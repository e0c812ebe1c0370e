import Bourse.Book.Quote
import Mathlib.Data.List.Dedup

/-!
# A plain book

Price-time priority at its plainest: one list of resting orders in order of arrival, searched
from the front by every operation. `Plain` is what a book with its levels, links, candidates and
slots is measured against.
-/

namespace Bourse

/-! ## Other quantities -/

/-- A quote in other quantities. -/
def Quote.map {κ μ : Type} (f : κ → μ) (q : Quote κ) : Quote μ where
  price := q.price
  qty := f q.qty
  orders := q.orders

/-- Quotes in other quantities. -/
def TopOfBook.map {κ μ : Type} (f : κ → μ) (t : TopOfBook κ) : TopOfBook μ where
  bid := t.bid.map (Quote.map f)
  ask := t.ask.map (Quote.map f)

@[simp] theorem TopOfBook.spread?_map {κ μ : Type} (f : κ → μ) (t : TopOfBook κ) :
    (t.map f).spread? = t.spread? := by
  obtain ⟨_ | bid, _ | ask⟩ := t <;> rfl

/-- A book that is nothing but its resting orders, the earliest arrival first. -/
structure Plain where
  /-- Most orders that may rest. -/
  bound : Nat
  resting : List Order := []
deriving DecidableEq, Repr

namespace Plain

/-! ## Resting orders -/

/-- Whether an order with this id rests. -/
def contains (b : Plain) (id : OrderId) : Bool :=
  b.resting.any (·.id = id)

/-- The resting order with this id. -/
def order? (b : Plain) (id : OrderId) : Option Order :=
  b.resting.find? (·.id = id)

/-- As many orders rest as may. -/
def isFull (b : Plain) : Bool :=
  b.bound ≤ b.resting.length

/-- Appends an order, unless it has nothing to trade, its id rests already or the bound is
reached. -/
def add? (b : Plain) (o : Order) : Option Plain :=
  if o.qty ≤ 0 || b.contains o.id || b.isFull then none
  else some { b with resting := b.resting ++ [o] }

/-- Removes the order with this id, if it rests. -/
def cancel? (b : Plain) (id : OrderId) : Option Plain :=
  if b.contains id then some { b with resting := b.resting.filter (·.id ≠ id) } else none

/-! ## Trading -/

/-- The orders that a taker can trade with: those of the other side within its limit. -/
def opposing (b : Plain) (taker : Order) : List Order :=
  b.resting.filter fun o =>
    o.side = taker.side.opposite && taker.side.accepts taker.price o.price

/-- The order with the best price, and the earliest of those. -/
def first? (orders : List Order) : Option Order :=
  orders.find? fun o => orders.all fun m => o.rank ≤ m.rank

/-- Takes `qty` lots from an order. It keeps its place if something is left, or else leaves. -/
def deduct (b : Plain) (id : OrderId) (qty : Qty) : Plain :=
  { b with
    resting := b.resting.filterMap fun o =>
      if o.id ≠ id then some o
      else if o.qty ≤ qty then none
      else some { o with qty := o.qty - qty } }

/-- A taker on its way through the book, with the trades made so far. -/
structure Sweep where
  book : Plain
  taker : Order
  trades : List Trade := []

/-- The best order stands before all that are no better, and behind only worse ones. -/
theorem first?_eq_some {pre post : List Order} {o : Order} (hpre : ∀ m ∈ pre, o.rank < m.rank)
    (hpost : ∀ m ∈ post, o.rank ≤ m.rank) : first? (pre ++ o :: post) = some o := by
  rw [first?, List.find?_eq_some_iff_append]
  refine ⟨?_, pre, post, rfl, fun m hm => ?_⟩
  · simp only [List.all_append, List.all_cons, Bool.and_eq_true, List.all_eq_true,
      decide_eq_true_eq]
    exact ⟨fun m hm => Int.le_of_lt (hpre m hm), Int.le_refl _, hpost⟩
  · have hlt := hpre m hm
    simp only [List.all_append, List.all_cons, Bool.not_eq_true', Bool.and_eq_false_iff,
      decide_eq_false_iff_not]
    right
    left
    omega

/-- A deduction concerns the one order with the id. -/
theorem deduct_around {bound : Nat} {pre post : List Order} {o : Order} {qty : Qty}
    (hne : ∀ m ∈ pre ++ post, m.id ≠ o.id) :
    ({ bound, resting := pre ++ o :: post } : Plain).deduct o.id qty =
      { bound
        resting := if o.qty ≤ qty then pre ++ post
          else pre ++ { o with qty := o.qty - qty } :: post } := by
  have hkeep (l : List Order) (hl : ∀ m ∈ l, m.id ≠ o.id) :
      (l.filterMap fun m =>
        if m.id ≠ o.id then some m
        else if m.qty ≤ qty then none
        else some { m with qty := m.qty - qty }) = l := by
    refine (List.filterMap_congr (g := some) fun m hm => ?_).trans List.filterMap_some
    exact if_pos (hl m hm)
  rw [deduct, List.filterMap_append, List.filterMap_cons,
    hkeep pre fun m hm => hne m (List.mem_append_left _ hm),
    hkeep post fun m hm => hne m (List.mem_append_right _ hm)]
  by_cases hle : o.qty ≤ qty
  · simp [hle]
  · simp [hle]

namespace Sweep

/-- The next trade, if the taker wants one and finds an order for it. -/
def step? (s : Sweep) : Option Sweep :=
  if s.taker.qty ≤ 0 then none
  else
    (first? (s.book.opposing s.taker)).map fun maker =>
      let qty := min s.taker.qty maker.qty
      { book := s.book.deduct maker.id qty
        taker := { s.taker with qty := s.taker.qty - qty }
        trades := s.trades ++
          [{ maker := maker.id, taker := s.taker.id, price := maker.price, qty }] }

/-- A trade uses up its maker, or else its taker. -/
theorem lt_of_step? {s t : Sweep} (h : s.step? = some t) :
    t.book.resting.length < s.book.resting.length ∨
      t.book.resting.length ≤ s.book.resting.length ∧
        t.taker.qty.toInt.toNat < s.taker.qty.toInt.toNat := by
  unfold step? at h
  split at h
  · cases h
  · next hpos =>
    obtain ⟨maker, hm, rfl⟩ := Option.map_eq_some_iff.1 h
    have hmem : maker ∈ s.book.resting := (List.mem_filter.1 (List.mem_of_find?_eq_some hm)).1
    by_cases hle : maker.qty ≤ s.taker.qty
    · left
      refine List.length_filterMap_lt_length_iff_exists.2 ⟨maker, hmem, ?_⟩
      have hq : maker.qty ≤ min s.taker.qty maker.qty := by
        rw [Qty.min_def]
        grind
      simp [hq]
    · right
      refine ⟨List.length_filterMap_le _ _, ?_⟩
      have hz : s.taker.qty - min s.taker.qty maker.qty = 0 := by
        rw [Qty.min_def]
        grind
      rw [Int64.le_iff_toInt_le] at hpos
      show (s.taker.qty - min s.taker.qty maker.qty).toInt.toNat < _
      rw [hz]
      simp only [Int64.toInt_zero] at hpos ⊢
      omega

/-- Trades until nothing is left to trade, or nothing to trade with. -/
def run (s : Sweep) : Sweep :=
  match _h : s.step? with
  | none => s
  | some t => t.run
termination_by (s.book.resting.length, s.taker.qty.toInt.toNat)
decreasing_by
  rcases lt_of_step? _h with hlt | ⟨hle, hlt⟩
  · exact Prod.Lex.left _ _ hlt
  · rcases Nat.lt_or_eq_of_le hle with hl | he
    · exact Prod.Lex.left _ _ hl
    · rw [he]
      exact Prod.Lex.right _ hlt

/-- What is left of the taker: nothing also of one that had nothing to trade. -/
def rest (s : Sweep) : Qty :=
  max s.taker.qty 0

end Sweep

/-- A taker that finds no trade has come to its end. -/
theorem run_of_none {s : Sweep} (h : s.step? = none) : s.run = s := by
  rw [Sweep.run.eq_def]
  split
  · rfl
  · next t ht =>
    rw [h] at ht
    cases ht

/-- Trades an arriving order without resting what is left. -/
def trade (b : Plain) (taker : Order) : Sweep :=
  Sweep.run { book := b, taker }

/-- Trades an arriving order and adds what is left. The last component is the quantity that now
rests. -/
def submit (b : Plain) (taker : Order) : Plain × List Trade × Qty :=
  let s := b.trade taker
  match s.book.add? s.taker with
  | some book => (book, s.trades, s.taker.qty)
  | none => (s.book, s.trades, 0)

/-! ## Queries -/

/-- The prices of a side, once for each order. -/
def prices (b : Plain) (s : Side) : List Price :=
  (b.resting.filter (·.side = s)).map (·.price)

/-- Whether a price is at least as good as another one: a bid as high, or an offer as low. -/
def leads (s : Side) (p q : Price) : Bool :=
  match s with
  | .buy => q ≤ p
  | .sell => p ≤ q

/-- The highest bid, or the lowest offer. -/
def best? (b : Plain) (s : Side) : Option Price :=
  (b.prices s).find? fun p => (b.prices s).all (leads s p)

/-- Number of different prices on a side. -/
def depth (b : Plain) (s : Side) : Nat :=
  (b.prices s).dedup.length

/-- The orders that rest on a side at a price. -/
def ordersAt (b : Plain) (s : Side) (price : Price) : List Order :=
  b.resting.filter fun o => o.side = s && o.price = price

/-- The orders of a side at a price in sum, if there are any. The sum has no bound. -/
def quote? (b : Plain) (s : Side) (price : Price) : Option (Quote Int) :=
  let orders := b.ordersAt s price
  if orders = [] then none
  else some { price, qty := Order.lots orders, orders := orders.length }

theorem leads_iff {s : Side} {p q : Price} : leads s p q ↔ s.rank p ≤ s.rank q := by
  cases s with
  | buy => simp [leads, Side.rank, Int64.le_iff_toInt_le]
  | sell => simp [leads, Side.rank, Int64.le_iff_toInt_le]

/-- The best quotes of both sides. -/
def top (b : Plain) : TopOfBook Int where
  bid := (b.best? .buy).bind (b.quote? .buy)
  ask := (b.best? .sell).bind (b.quote? .sell)

end Plain

end Bourse
