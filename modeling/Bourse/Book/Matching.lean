import Bourse.Book.Basic

/-!
# Matching

An arriving order, the taker, trades with the opposite side: best price first, and within a
price in order of arrival, each trade at the price of the resting order, the maker. It stops
when the taker is filled or when the best opposite price is beyond the taker's limit.

`Book.trade` does only that; `Book.submit` also rests what is left.
-/

namespace Bourse.Book

/-- A taker on its way through the book, with the trades made so far. -/
structure Sweep where
  book : Book
  taker : Order
  trades : Array Trade := #[]

namespace Sweep

/-- What is left of the taker: nothing also of one that had nothing to trade. -/
def rest (s : Sweep) : Qty :=
  if s.taker.isFilled then 0 else s.taker.qty

/-- A trade of `qty` lots with the order in a slot of a level. -/
def exchange (s : Sweep) (level : Level) (slot : Slot) (maker : Order) (qty : Qty) :
    Sweep × Level :=
  ({ book := { s.book with pool := s.book.pool.modify slot (·.fill qty) }
     taker := s.taker.fill qty
     trades := s.trades.push
      { maker := maker.id, taker := s.taker.id, price := level.price, qty } },
    { level with total := level.total - qty })

/-- A filled maker leaves its level and the book. -/
def retire (s : Sweep) (level : Level) (slot : Slot) (id : OrderId) : Sweep × Level :=
  let unlinked := level.unlink s.book.pool slot
  ({ s with
      book := { s.book with
        index := s.book.index.erase id, pool := (unlinked.2.release slot).2 } },
    unlinked.1)

/-- Trades with the orders of one level until the taker is filled or the level is used up. The
level is on loan from the book: the caller puts back what is left of it. -/
def consume (s : Sweep) (level : Level) : Sweep × Level :=
  if s.taker.isFilled then (s, level)
  else
    match level.head with
    | none => (s, level)
    | some slot =>
      match _h : s.book.pool.order? slot with
      | none => (s, level)
      | some maker =>
        let qty := min s.taker.qty maker.qty
        let t := s.exchange level slot maker qty
        if (maker.fill qty).isFilled then
          let u := t.1.retire t.2 slot maker.id
          consume u.1 u.2
        else
          -- The maker outlasts the taker: that one is filled.
          t
termination_by s.book.pool.orders.size
decreasing_by
  apply Pool.size_orders_release_lt (by assumption)
  exact (Level.relinked_unlink _ _ _).orders

/-- Trades with the best level of `side`, then with the next, as long as the taker wants more
and its limit allows. -/
def run (side : Side) (s : Sweep) : Sweep :=
  if s.taker.isFilled then s
  else
    let found := (s.book.ladder side).search
    let book := s.book.setLadder side found.1
    match _h : found.2 with
    | none => { s with book }
    | some (rank, level) =>
      if s.taker.side.accepts s.taker.price level.price then
        let t := consume { s with book } level
        let book := t.1.book.setLadder side (found.1.put rank t.2)
        -- Orders are left on the level only if the taker is filled.
        if t.2.isEmpty then run side { t.1 with book } else { t.1 with book }
      else { s with book }
termination_by (s.book.ladder side).levels.size
decreasing_by
  have hf := Ladder.getElem?_of_search (by assumption)
  rw [ladder_setLadder, if_pos rfl, ← Ladder.levels_search (s.book.ladder side)]
  refine Ladder.size_put_lt ?_ (by assumption)
  rw [Ladder.levels_search, Std.TreeMap.mem_iff_isSome_getElem?, hf.1]
  rfl

end Sweep

/-- Trades an arriving order against the opposite side without resting what is left. An order
that has nothing to trade changes nothing. -/
def trade (b : Book) (taker : Order) : Sweep :=
  Sweep.run taker.side.opposite { book := b, taker }

/-- Trades an arriving order and rests what is left of it. The last component is the quantity
that now rests: nothing if the order was filled or could not be added. -/
def submit (b : Book) (taker : Order) : Book × Array Trade × Qty :=
  let s := b.trade taker
  match s.book.add? s.taker with
  | some book => (book, s.trades, s.taker.qty)
  | none => (s.book, s.trades, 0)

end Bourse.Book
