import Bourse.Proofs.Book.Refinement
import Bourse.Proofs.Symbol.Journal

/-!
# Takers with many makers

A taker is reported with one event for each maker that it meets, so the number of its events is
bounded by the depth of the book alone. `length_execute_sweep` counts them for a book with any
number of offers of one lot each.
-/

namespace Bourse

namespace Plain

/-- Orders of one lot each, on one side and at one price, with ids of their own. -/
structure Lots (side : Side) (price : Price) (l : List Order) : Prop where
  side : ∀ o ∈ l, o.side = side
  price : ∀ o ∈ l, o.price = price
  qty : ∀ o ∈ l, o.qty = 1
  ids : (l.map (·.id)).Nodup

variable {side : Side} {price : Price} {l : List Order} {o taker : Order} {bound : Nat}

theorem Lots.tail (h : Lots side price (o :: l)) : Lots side price l where
  side m hm := h.side m (List.mem_cons_of_mem o hm)
  price m hm := h.price m (List.mem_cons_of_mem o hm)
  qty m hm := h.qty m (List.mem_cons_of_mem o hm)
  ids := (List.nodup_cons.1 h.ids).2

/-- All of them are open to a taker that accepts their price. -/
theorem Lots.opposing (h : Lots taker.side.opposite price l)
    (haccepts : taker.side.accepts taker.price price) :
    ({ bound, resting := l } : Plain).opposing taker = l := by
  rw [Plain.opposing, List.filter_eq_self]
  intro o ho
  rw [h.side o ho, h.price o ho, haccepts]
  simp

/-- The next trade is with the earliest of them, over one lot. -/
theorem Lots.step? (h : Lots taker.side.opposite price (o :: l))
    (haccepts : taker.side.accepts taker.price price) (hq : 1 ≤ taker.qty) (trades : List Trade) :
    ({ book := { bound, resting := o :: l }, taker, trades } : Sweep).step? =
      some { book := { bound, resting := l }
             taker := { taker with qty := taker.qty - 1 }
             trades := trades ++
               [{ maker := o.id, taker := taker.id, price := o.price, qty := 1 }] } := by
  have hpos : ¬ taker.qty ≤ 0 := by
    have hone : (1 : Int64).toInt = 1 := by decide
    intro hle
    rw [Int64.le_iff_toInt_le, hone] at hq
    rw [Int64.le_iff_toInt_le, Int64.toInt_zero] at hle
    omega
  have hrank : ∀ m ∈ l, o.rank ≤ m.rank := by
    intro m hm
    have hm' := List.mem_cons_of_mem o hm
    refine Int.le_of_eq ?_
    rw [Order.rank, Order.rank, h.side m hm', h.price m hm', h.side o List.mem_cons_self,
      h.price o List.mem_cons_self]
  have hnone : ∀ m ∈ ([] : List Order), o.rank < m.rank := by
    intro m hm
    cases hm
  have hfirst : first? (o :: l) = some o := first?_eq_some hnone hrank
  have hone : min taker.qty 1 = 1 := Qty.min_eq_right hq
  have hne : ∀ m ∈ ([] : List Order) ++ l, m.id ≠ o.id := by
    intro m hm heq
    exact (List.nodup_cons.1 h.ids).1 (List.mem_map.2 ⟨m, hm, heq⟩)
  have hdeduct : ({ bound, resting := [] ++ o :: l } : Plain).deduct o.id 1 = _ :=
    deduct_around hne
  rw [List.nil_append, h.qty o List.mem_cons_self, if_pos (by decide)] at hdeduct
  rw [Sweep.step?, if_neg hpos, h.opposing haccepts, hfirst, Option.map_some]
  dsimp only
  rw [h.qty o List.mem_cons_self, hone, hdeduct]
  rfl

/-- A taker of enough lots trades once with each of them. -/
theorem Lots.length_run (h : Lots taker.side.opposite price l)
    (haccepts : taker.side.accepts taker.price price) (hq : (l.length : Int) ≤ taker.qty.toInt)
    (trades : List Trade) :
    ({ book := { bound, resting := l }, taker, trades } : Sweep).run.trades.length =
      trades.length + l.length := by
  induction l generalizing taker trades with
  | nil =>
    have hstop : ({ book := { bound, resting := [] }, taker, trades } : Sweep).step? = none := by
      rw [Sweep.step?]
      split
      · rfl
      · rfl
    rw [run_of_none hstop]
    rfl
  | cons o l ih =>
    rw [List.length_cons] at hq
    have hone : (1 : Qty) ≤ taker.qty := by
      rw [Int64.le_iff_toInt_le]
      show (1 : Int) ≤ _
      omega
    have hless : (taker.qty - 1).toInt = taker.qty.toInt - 1 := Qty.toInt_sub (by decide) hone
    have hrest := @ih { taker with qty := taker.qty - 1 } h.tail haccepts
      (by
        show (l.length : Int) ≤ (taker.qty - 1).toInt
        omega)
      (trades ++ [{ maker := o.id, taker := taker.id, price := o.price, qty := 1 }])
    rw [← Book.Sweep.run_of_step? (h.step? haccepts hone trades), hrest, List.length_append,
      List.length_singleton, List.length_cons]
    omega

/-- Orders of one side only do not trade with each other. -/
theorem trade_of_side (f : Plain) {o : Order} (h : ∀ m ∈ f.resting, m.side ≠ o.side.opposite) :
    f.trade o = { book := f, taker := o } := by
  have hnone : f.opposing o = [] := by
    rw [opposing, List.filter_eq_nil_iff]
    intro m hm
    simp [h m hm]
  have hstop : ({ book := f, taker := o } : Sweep).step? = none := by
    rw [Sweep.step?]
    split
    · rfl
    · dsimp only
      rw [hnone]
      rfl
  exact run_of_none hstop

end Plain

/-- The order by which the offer with number `i` is made, over one lot. -/
def Order.offer (i : Nat) : Order :=
  { id := UInt64.ofNat (i + 1), user := 0, side := .sell, price := 1, qty := 1 }

/-- The order that takes all of `n` offers. -/
def Order.sweep (n : Nat) : Order :=
  { id := UInt64.ofNat (n + 1), user := 0, side := .buy, price := 1, qty := Int64.ofNat n }

/-- The commands that make `n` offers. -/
def Command.offers (n : Nat) : List Command :=
  (List.range n).map fun i => { action := .submit (.offer i) }

/-- The command that takes all of `n` offers. -/
def Command.sweep (n : Nat) : Command :=
  { action := .submit (.sweep n) }

/-- So many offers, one behind the other. -/
def Plain.offered (n : Nat) : Plain where
  bound := Pool.maxSlots
  resting := (List.range n).map Order.offer

section Offers

variable {n i : Nat}

theorem toNat_offer_id (hi : i < Pool.maxSlots) : (Order.offer i).id.toNat = i + 1 := by
  show (UInt64.ofNat (i + 1)).toNat = i + 1
  rw [UInt64.toNat_ofNat']
  refine Nat.mod_eq_of_lt ?_
  have : Pool.maxSlots = 4294967295 := rfl
  omega

theorem mem_offered {o : Order} (ho : o ∈ (Plain.offered n).resting) :
    ∃ i < n, o = Order.offer i := by
  obtain ⟨i, hi, rfl⟩ := List.mem_map.1 ho
  exact ⟨i, List.mem_range.1 hi, rfl⟩

theorem lots_offered (hn : n < Pool.maxSlots) : Plain.Lots .sell 1 (Plain.offered n).resting := by
  refine ⟨?_, ?_, ?_, ?_⟩
  · intro o ho
    obtain ⟨i, -, rfl⟩ := mem_offered ho
    rfl
  · intro o ho
    obtain ⟨i, -, rfl⟩ := mem_offered ho
    rfl
  · intro o ho
    obtain ⟨i, -, rfl⟩ := mem_offered ho
    rfl
  · rw [Plain.offered, List.map_map]
    refine List.nodup_range.map_on fun i hi j hj heq => ?_
    have hi := List.mem_range.1 hi
    have hj := List.mem_range.1 hj
    have hnat := congrArg UInt64.toNat heq
    rw [Function.comp_apply, Function.comp_apply, toNat_offer_id (by omega),
      toNat_offer_id (by omega)] at hnat
    omega

/-- The number of the next offer is not taken. -/
theorem contains_offered (hn : n < Pool.maxSlots) :
    (Plain.offered n).contains (Order.offer n).id = false := by
  rw [Plain.contains, List.any_eq_false]
  intro o ho
  obtain ⟨i, hi, rfl⟩ := mem_offered ho
  rw [decide_eq_true_eq]
  intro heq
  have hnat := congrArg UInt64.toNat heq
  rw [toNat_offer_id (by omega), toNat_offer_id hn] at hnat
  omega

theorem isFull_offered (hn : n < Pool.maxSlots) : (Plain.offered n).isFull = false := by
  simp only [Plain.isFull, Plain.offered, List.length_map, List.length_range]
  exact decide_eq_false (Nat.not_le.2 hn)

/-- The next offer rests behind the others. -/
theorem add?_offered (hn : n < Pool.maxSlots) :
    (Plain.offered n).add? (Order.offer n) = some (Plain.offered (n + 1)) := by
  have hq : ¬ (Order.offer n).qty ≤ 0 := by
    show ¬ (1 : Int64) ≤ 0
    decide
  rw [Plain.add?, contains_offered hn, isFull_offered hn, if_neg (by simp [hq])]
  simp [Plain.offered, List.range_succ]

end Offers

namespace Book

variable {b : Book} {f : Plain} {n : Nat}

/-- A command that is well formed enters the book with its order. -/
theorem execute_submit {o : Order} (hid : 0 < o.id.toNat) (hp : ¬ o.price ≤ 0) (hq : ¬ o.qty ≤ 0) :
    b.execute { action := .submit o } = b.enter o := by
  have hid' : o.id ≠ 0 := by
    rintro heq
    rw [heq] at hid
    cases hid
  rw [execute, Command.fault?]
  simp [hid', hp, hq]

/-- An order that is admitted has an event for each of its trades besides that for being
accepted. -/
theorem Shows.lt_length_enter (h : b.Shows f) {o : Order} (hid : f.contains o.id = false)
    (hfull : f.isFull = false) : (f.trade o).trades.length < (b.enter o).2.length := by
  obtain ⟨-, -, htrades, -⟩ := h.trade o
  rw [enter, if_neg (by simp [h.contains, hid]), if_neg (by simp [h.isFull, hfull])]
  dsimp only
  rw [htrades]
  split
  · simp only [List.cons_append, List.length_cons, List.length_append, List.length_map]
    omega
  · simp

/-- An order that finds nothing to trade with rests. -/
theorem Shows.enter_of_side (h : b.Shows f) {o : Order} {f' : Plain}
    (hid : f.contains o.id = false) (hfull : f.isFull = false)
    (hside : ∀ m ∈ f.resting, m.side ≠ o.side.opposite) (hadd : f.add? o = some f') :
    (b.enter o).1.Shows f' := by
  obtain ⟨hshows, htaker, -, -⟩ := h.trade o
  rw [f.trade_of_side hside] at hshows htaker
  have hrel := hshows.add? o
  rw [hadd] at hrel
  rw [enter, if_neg (by simp [h.contains, hid]), if_neg (by simp [h.isFull, hfull])]
  dsimp only
  rw [htaker]
  cases hrel' : (b.trade o).book.add? o with
  | none =>
    rw [hrel'] at hrel
    cases hrel
  | some b' =>
    rw [hrel'] at hrel
    cases hrel with
    | some hs => exact hs

/-- So many offers rest one behind the other. -/
theorem shows_offers (hn : n ≤ Pool.maxSlots) :
    (({} : Book).executeAll (Command.offers n)).Shows (Plain.offered n) := by
  induction n with
  | zero => exact shows_empty Pool.maxSlots
  | succ n ih =>
    have hlt : n < Pool.maxSlots := hn
    have hsplit : Command.offers (n + 1) =
        Command.offers n ++ [{ action := .submit (.offer n) }] := by
      simp [Command.offers, List.range_succ]
    have hid : 0 < (Order.offer n).id.toNat := by
      rw [toNat_offer_id hlt]
      omega
    have hone : ¬ (1 : Int64) ≤ 0 := by decide
    rw [hsplit, executeAll_append, executeAll_cons, executeAll_nil,
      execute_submit (o := .offer n) hid hone hone]
    refine (ih (Nat.le_of_lt hlt)).enter_of_side (contains_offered hlt) (isFull_offered hlt) ?_
      (add?_offered hlt)
    intro m hm
    rw [(lots_offered hlt).side m hm]
    exact (by decide : Side.sell ≠ Side.buy)

/-- **A taker has more events than there are makers for it.** With `n` offers in the book, the order
that takes all of them has more than `n` events. -/
theorem lt_length_execute_sweep (hpos : 0 < n) (hn : n < Pool.maxSlots) :
    n < ((({} : Book).executeAll (Command.offers n)).execute (Command.sweep n)).2.length := by
  have hmax : Pool.maxSlots = 4294967295 := rfl
  have hqty : (Order.sweep n).qty.toInt = n := by
    show (Int64.ofNat n).toInt = n
    exact Int64.toInt_ofNat_of_lt (by omega)
  have hq : ¬ (Order.sweep n).qty ≤ 0 := by
    rw [Int64.le_iff_toInt_le, hqty]
    show ¬ (n : Int) ≤ 0
    omega
  have hid : 0 < (Order.sweep n).id.toNat := by
    have hnat : (Order.sweep n).id.toNat = n + 1 := toNat_offer_id hn
    omega
  have hone : ¬ (1 : Int64) ≤ 0 := by decide
  rw [Command.sweep, execute_submit (o := .sweep n) hid hone hq]
  have hlen : (Plain.offered n).resting.length = n := by
    rw [Plain.offered, List.length_map, List.length_range]
  have htrades : ((Plain.offered n).trade (.sweep n)).trades.length = n := by
    have hlots : Plain.Lots (Order.sweep n).side.opposite 1 (Plain.offered n).resting :=
      lots_offered hn
    have henough : ((Plain.offered n).resting.length : Int) ≤ (Order.sweep n).qty.toInt :=
      Int.le_of_eq (by rw [hlen, hqty])
    have hrun : ((Plain.offered n).trade (.sweep n)).trades.length =
        ([] : List Trade).length + (Plain.offered n).resting.length :=
      hlots.length_run rfl henough []
    rw [hlen, List.length_nil, Nat.zero_add] at hrun
    exact hrun
  have hlt := (shows_offers (Nat.le_of_lt hn)).lt_length_enter (o := .sweep n)
    (contains_offered hn) (isFull_offered hn)
  rwa [htrades] at hlt

end Book

end Bourse
