import Bourse.Proofs.Book.Trading

/-!
# Books refine plain books

Whatever is asked of a book, in whatever order, it answers as the plain book would that keeps one
list of orders: levels, links, candidates, slots and their reuse never show. `Call` lists what can
be asked, and `Book.answers_eq_plain` compares the answers to a whole list of calls.

The one thing that a plain book does better is adding up: its sums have no bound, while those of a
level wrap around. As long as the sums stay quantities (`Plain.SummableThrough`) that does not show
either.
-/

namespace Bourse

/-- What can be asked of a book. -/
inductive Call where
  | add (order : Order)
  | cancel (id : OrderId)
  | trade (taker : Order)
  | submit (taker : Order)
  | best (side : Side)
  | quote (side : Side) (price : Price)
  | ids (side : Side) (price : Price)
  | order (id : OrderId)
  | contains (id : OrderId)
  | size
  | depth (side : Side)
  | isFull
  | top

/-- What a book answers, with sums of quantities in some type. -/
inductive Answer (κ : Type := Qty) where
  | done (ok : Bool)
  /-- The trades in order, the quantity left over and what became of the taker. -/
  | traded (trades : List Trade) (rest : Qty) (taker : Order)
  /-- The trades in order and the quantity that now rests. -/
  | submitted (trades : List Trade) (rested : Qty)
  | price (price : Option Price)
  | quote (quote : Option (Quote κ))
  | ids (ids : List OrderId)
  | order (order : Option Order)
  | number (n : Nat)
  | top (top : TopOfBook κ)
deriving DecidableEq, Repr

/-- An answer with other sums of quantities. -/
def Answer.map {κ μ : Type} (f : κ → μ) : Answer κ → Answer μ
  | .done ok => .done ok
  | .traded trades rest taker => .traded trades rest taker
  | .submitted trades rested => .submitted trades rested
  | .price p => .price p
  | .quote q => .quote (q.map (Quote.map f))
  | .ids l => .ids l
  | .order o => .order o
  | .number n => .number n
  | .top t => .top (t.map f)

/-- The ways to make an empty book. -/
inductive Opening where
  | new
  | withCapacity (capacity : Nat)
  | bounded (limit : Nat)

namespace Opening

/-- The book that was made. -/
def book : Opening → Book
  | new => {}
  | withCapacity capacity => Book.withCapacity capacity
  | bounded limit => Book.bounded limit

/-- The plain book without orders. No book holds more orders than slots can be numbered. -/
def plain : Opening → Plain
  | new => { bound := Pool.maxSlots }
  | withCapacity _ => { bound := Pool.maxSlots }
  | bounded limit => { bound := min limit Pool.maxSlots }

end Opening

/-- A book takes a call. Looking for best prices may change what is inside. -/
def Book.call (b : Book) : Call → Book × Answer
  | .add o => ((b.add? o).getD b, .done (b.add? o).isSome)
  | .cancel id => ((b.cancel? id).getD b, .done (b.cancel? id).isSome)
  | .trade taker =>
    let s := b.trade taker
    (s.book, .traded s.trades.toList s.rest s.taker)
  | .submit taker =>
    let s := b.submit taker
    (s.1, .submitted s.2.1.toList s.2.2)
  | .best side => ((b.seek side).1, .price (b.seek side).2)
  | .quote side price => (b, .quote (b.quote? side price))
  | .ids side price => (b, .ids ((b.ordersAt side price).map (·.id)))
  | .order id => (b, .order (b.order? id))
  | .contains id => (b, .done (b.contains id))
  | .size => (b, .number b.size)
  | .depth side => (b, .number (b.depth side))
  | .isFull => (b, .done b.isFull)
  | .top => (b.seekTop.1, .top b.seekTop.2)

/-- A plain book takes a call. -/
def Plain.call (b : Plain) : Call → Plain × Answer Int
  | .add o => ((b.add? o).getD b, .done (b.add? o).isSome)
  | .cancel id => ((b.cancel? id).getD b, .done (b.cancel? id).isSome)
  | .trade taker =>
    let s := b.trade taker
    (s.book, .traded s.trades s.rest s.taker)
  | .submit taker =>
    let s := b.submit taker
    (s.1, .submitted s.2.1 s.2.2)
  | .best side => (b, .price (b.best? side))
  | .quote side price => (b, .quote (b.quote? side price))
  | .ids side price => (b, .ids ((b.ordersAt side price).map (·.id)))
  | .order id => (b, .order (b.order? id))
  | .contains id => (b, .done (b.contains id))
  | .size => (b, .number b.resting.length)
  | .depth side => (b, .number (b.depth side))
  | .isFull => (b, .done b.isFull)
  | .top => (b, .top b.top)

/-- What a book answers to a list of calls, one after the other. -/
def Book.answers (b : Book) : List Call → List Answer
  | [] => []
  | c :: calls => (b.call c).2 :: (b.call c).1.answers calls

@[inherit_doc Book.answers]
def Plain.answers (b : Plain) : List Call → List (Answer Int)
  | [] => []
  | c :: calls => (b.call c).2 :: (b.call c).1.answers calls

/-! ## Sums -/

namespace Plain

variable {b : Plain}

/-- The orders that rest on a side at a price have a sum that is a quantity, whichever these are. -/
def Summable (b : Plain) : Prop :=
  ∀ o ∈ b.resting, Qty.Fits (Order.lots (b.ordersAt o.side o.price))

/-- The orders have such sums before the first of some calls and after each of them. -/
def SummableThrough (b : Plain) : List Call → Prop
  | [] => b.Summable
  | c :: calls => b.Summable ∧ (b.call c).1.SummableThrough calls

/-- A sum that is a quantity survives being told as one. -/
theorem Summable.quote? (h : b.Summable) (side : Side) (price : Price) :
    ((b.quote? side price).map (Quote.map Int64.ofInt)).map (Quote.map Int64.toInt) =
      b.quote? side price := by
  rw [Plain.quote?]
  split
  · rfl
  · next hne =>
    obtain ⟨o, ho⟩ := List.exists_mem_of_ne_nil _ hne
    obtain ⟨hmem, hat⟩ := List.mem_filter.1 ho
    obtain ⟨rfl, rfl⟩ : o.side = side ∧ o.price = price := by simpa using hat
    simp only [Option.map_some, Quote.map, Qty.toInt_ofInt (h o hmem)]

theorem Summable.top (h : b.Summable) : (b.top.map Int64.ofInt).map Int64.toInt = b.top := by
  rw [Plain.top, TopOfBook.map, TopOfBook.map]
  dsimp only
  rw [Option.map_bind, Option.map_bind, Option.map_bind, Option.map_bind]
  congr 1
  · congr 1
    exact funext fun p => h.quote? .buy p
  · congr 1
    exact funext fun p => h.quote? .sell p

theorem Summable.call (h : b.Summable) (c : Call) :
    ((b.call c).2.map Int64.ofInt).map Int64.toInt = (b.call c).2 := by
  cases c with
  | quote side price => exact congrArg Answer.quote (h.quote? side price)
  | top => exact congrArg Answer.top h.top
  | _ => rfl

theorem SummableThrough.answers {calls : List Call} (h : b.SummableThrough calls) :
    ((b.answers calls).map (Answer.map Int64.ofInt)).map (Answer.map Int64.toInt) =
      b.answers calls := by
  induction calls generalizing b with
  | nil => rfl
  | cons c calls ih =>
    rw [Plain.answers, List.map_cons, List.map_cons, h.1.call c, ih h.2]

end Plain

namespace Book

variable {b : Book} {f : Plain}

theorem shows_opening (o : Opening) : o.book.Shows o.plain := by
  cases o with
  | new => exact shows_empty Pool.maxSlots
  | withCapacity capacity => exact shows_empty Pool.maxSlots
  | bounded limit => exact shows_empty (min limit Pool.maxSlots)

/-- An operation that may be refused: the answers agree, and so do the books afterwards. -/
theorem Shows.getD {b' : Option Book} {f' : Option Plain} (h : b.Shows f)
    (hr : Option.Rel Shows b' f') :
    (b'.getD b).Shows (f'.getD f) ∧ b'.isSome = f'.isSome := by
  cases hr with
  | none => exact ⟨h, rfl⟩
  | some hs => exact ⟨hs, rfl⟩

/-- One call gets the same answer and leaves the same orders. -/
theorem Shows.call (h : b.Shows f) (c : Call) :
    (b.call c).1.Shows (f.call c).1 ∧ (b.call c).2 = (f.call c).2.map Int64.ofInt := by
  cases c with
  | add o =>
    have hr := h.getD (h.add? o)
    exact ⟨hr.1, congrArg Answer.done hr.2⟩
  | cancel id =>
    have hr := h.getD (h.cancel? id)
    exact ⟨hr.1, congrArg Answer.done hr.2⟩
  | trade taker =>
    obtain ⟨hs, htaker, htrades, hrest⟩ := h.trade taker
    exact ⟨hs, congr (congrArg₂ Answer.traded htrades hrest) htaker⟩
  | submit taker =>
    obtain ⟨hs, htrades, hrested⟩ := h.submit taker
    exact ⟨hs, congrArg₂ Answer.submitted htrades hrested⟩
  | best side =>
    have hs := h.seek side
    exact ⟨hs.1, congrArg Answer.price hs.2⟩
  | quote side price => exact ⟨h, congrArg Answer.quote (h.quote? side price)⟩
  | ids side price =>
    have hids := congrArg (List.map Order.id) (h.ordersAt side price)
    exact ⟨h, congrArg Answer.ids hids⟩
  | order id => exact ⟨h, congrArg Answer.order (h.order? id)⟩
  | contains id => exact ⟨h, congrArg Answer.done (h.contains id)⟩
  | size => exact ⟨h, congrArg Answer.number h.size⟩
  | depth side => exact ⟨h, congrArg Answer.number (h.depth side)⟩
  | isFull => exact ⟨h, congrArg Answer.done h.isFull⟩
  | top =>
    have hs := h.seekTop
    exact ⟨hs.1, congrArg Answer.top hs.2⟩

theorem Shows.answers (h : b.Shows f) (calls : List Call) :
    b.answers calls = (f.answers calls).map (Answer.map Int64.ofInt) := by
  induction calls generalizing b f with
  | nil => rfl
  | cons c calls ih =>
    have hc := h.call c
    rw [Book.answers, Plain.answers, List.map_cons, hc.2, ih hc.1]

/-- **A book answers every list of calls as a plain book does**, however it was made: the same
trades in the same order, the same returned values and the same queries in between, except that
sums of quantities wrap around. As long as every price has a sum that is a quantity, the sums are
the same as well. -/
theorem answers_eq_plain (o : Opening) (calls : List Call) :
    o.book.answers calls = (o.plain.answers calls).map (Answer.map Int64.ofInt) ∧
      (o.plain.SummableThrough calls →
        (o.book.answers calls).map (Answer.map Int64.toInt) = o.plain.answers calls) := by
  have hanswers := (shows_opening o).answers calls
  refine ⟨hanswers, fun hsums => ?_⟩
  rw [hanswers, hsums.answers]

end Book

end Bourse
