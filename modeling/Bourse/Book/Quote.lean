import Bourse.Book.Basic

/-!
# Quotes

What can be read off a book: a `Quote` sums up one level, and a `TopOfBook` joins the best quote
of each side. Both are told in a type of quantities: a book adds up in `Qty`, where a sum that no
quantity can hold wraps around, and others may add up in numbers without a bound.
-/

namespace Bourse

/-- One level in summary. -/
structure Quote (κ : Type := Qty) where
  price : Price
  /-- Sum of the remaining quantities. -/
  qty : κ
  /-- Number of orders. -/
  orders : Nat
deriving DecidableEq, Repr, Inhabited

/-- The best quote of each side. -/
structure TopOfBook (κ : Type := Qty) where
  bid : Option (Quote κ) := none
  ask : Option (Quote κ) := none
deriving DecidableEq, Repr, Inhabited

namespace TopOfBook

variable {κ : Type}

/-- Nobody bids and nobody offers. -/
def isEmpty (t : TopOfBook κ) : Bool :=
  t.bid.isNone && t.ask.isNone

/-- Distance from the best bid up to the best offer, if there are both. It is a price itself, so a
distance that no price can hold wraps around. -/
def spread? (t : TopOfBook κ) : Option Price := do
  let bid ← t.bid
  let ask ← t.ask
  return ask.price - bid.price

end TopOfBook

namespace Book

/-- The summary of a level. -/
def Level.quote (l : Level) : Quote :=
  { price := l.price, qty := l.total, orders := l.orders }

/-- The level of a side at a price. -/
def level? (b : Book) (s : Side) (price : Price) : Option Level :=
  (b.ladder s).levels[s.rank price]?

/-- Looks for the best price of a side, the highest bid or the lowest offer, and drops the
candidates that stand before it in vain. -/
def seek (b : Book) (s : Side) : Book × Option Price :=
  (b.setLadder s (b.ladder s).search.1, (b.ladder s).search.2.map (·.2.price))

/-- The best price of a side. -/
def best? (b : Book) (s : Side) : Option Price :=
  (b.seek s).2

/-- Number of different prices on a side. -/
def depth (b : Book) (s : Side) : Nat :=
  (b.ladder s).levels.size

/-- Summary of the level of a side at a price. -/
def quote? (b : Book) (s : Side) (price : Price) : Option Quote :=
  (b.level? s price).map Level.quote

/-- The orders of a level, the earliest arrival first. -/
def ordersIn (b : Book) (l : Level) : List Order :=
  (b.pool.queueFrom b.pool.allocated l.head).filterMap b.pool.order?

/-- The orders that rest on a side at a price, the earliest arrival first. -/
def ordersAt (b : Book) (s : Side) (price : Price) : List Order :=
  ((b.level? s price).map b.ordersIn).getD []

/-- The levels of a side, the best one first. -/
def levels (b : Book) (s : Side) : List Level :=
  (b.ladder s).levels.values

/-- Looks for the best quotes of both sides. -/
def seekTop (b : Book) : Book × TopOfBook :=
  let (b, bid) := b.seek .buy
  let quote := bid.bind (b.quote? .buy)
  let (b, ask) := b.seek .sell
  (b, { bid := quote, ask := ask.bind (b.quote? .sell) })

/-- The best quotes of both sides. -/
def top (b : Book) : TopOfBook :=
  b.seekTop.2

end Book

end Bourse
