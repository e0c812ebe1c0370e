import Mathlib.Algebra.BigOperators.Group.List.Basic
import Mathlib.Algebra.GroupWithZero.Nat
import Mathlib.Data.List.Induction
import Bourse.Proofs.Book.Refinement

/-!
# Sound books

What the parts of a book owe each other is said here in the fields of the book alone, with no list
of arrivals beside it. A level's queue can be walked from its head along the next links and from
its tail along the previous ones; levels, index, slots and candidates agree with what is met on
these walks. `Book.sound_after` says that every book is sound, whatever was asked of it before.
-/

namespace Bourse

/-- Going onward from a slot, if there is one, meets just the given slots and comes to an end. -/
inductive Walk (onward : Slot → Option Slot) : Option Slot → List Slot → Prop
  | done : Walk onward none []
  | step {s : Slot} {rest : List Slot} :
    Walk onward (onward s) rest → Walk onward (some s) (s :: rest)

/-- There is one way to go. -/
theorem Walk.unique {onward : Slot → Option Slot} {start : Option Slot} {l r : List Slot}
    (hl : Walk onward start l) (hr : Walk onward start r) : l = r := by
  induction hl generalizing r with
  | done =>
    cases hr with
    | done => rfl
  | step _ ih =>
    cases hr with
    | step hr => rw [ih hr]

namespace Pool

/-- The slot behind a slot. -/
def next (p : Pool) (s : Slot) : Option Slot :=
  (p.link s).next

/-- The slot before a slot. -/
def prev (p : Pool) (s : Slot) : Option Slot :=
  (p.link s).prev

variable {p : Pool} {before after : Option Slot} {l : List Slot}

/-- Linked slots are met in order from the first one. -/
theorem Linked.forward (h : p.Linked before l none) : Walk p.next l.head? l := by
  induction l generalizing before with
  | nil => exact .done
  | cons s l ih =>
    refine .step ?_
    have hnext : p.next s = l.head? := by
      rw [next, h.1]
      exact Option.or_none
    rw [hnext]
    exact ih h.2

/-- They are met the other way round from the last one. -/
theorem Linked.backward (h : p.Linked none l after) : Walk p.prev l.getLast? l.reverse := by
  induction l using List.reverseRecOn generalizing after with
  | nil => exact .done
  | append_singleton l s ih =>
    rw [linked_append] at h
    rw [List.getLast?_concat, List.reverse_concat]
    refine .step ?_
    have hprev : p.prev s = l.getLast? := by
      rw [prev, h.2.1]
      exact Option.or_none
    rw [hprev]
    exact ih h.1

end Pool

namespace Book

/-- A level of a side serves just the given orders in their slots: they are met from both ends,
they belong to it, and it has counted them and their lots. Its sum of lots wraps around, which is
of no consequence as long as the sum is a quantity. -/
structure Level.Serves (l : Level) (p : Pool) (side : Side) (q : List Entry) : Prop where
  nonempty : q ≠ []
  forward : Walk p.next l.head (slots q)
  backward : Walk p.prev l.tail (slots q).reverse
  nodup : (slots q).Nodup
  count : l.orders = q.length
  wrapped : l.total = Int64.ofInt (Order.lots (Bourse.orders q))
  total : Qty.Fits (Order.lots (Bourse.orders q)) → l.total.toInt = Order.lots (Bourse.orders q)
  stored : ∀ e ∈ q, p.order? e.1 = some e.2
  side : ∀ e ∈ q, e.2.side = side
  price : ∀ e ∈ q, e.2.price = l.price
  positive : ∀ e ∈ q, 0 < e.2.qty

/-- A slot is met on the way through the queue of the level at a rank. -/
def InQueue (b : Book) (side : Side) (rank : Int) (s : Slot) : Prop :=
  ∃ level l, (b.ladder side).levels[rank]? = some level ∧ Walk b.pool.next level.head l ∧ s ∈ l

/-- The prices at which a side has a level. -/
def prices (b : Book) (side : Side) : List Price :=
  (b.ladder side).levels.toList.map (·.2.price)

/-- What the levels of a side have counted. -/
def counted (b : Book) (side : Side) : Nat :=
  ((b.ladder side).levels.toList.map (·.2.orders)).sum

/-- The parts of a book agree. -/
structure Sound (b : Book) : Prop where
  /-- Every level stands at the rank of its price and serves some orders. -/
  level : ∀ side rank level, (b.ladder side).levels[rank]? = some level →
    side.rank level.price = rank ∧ ∃ q, level.Serves b.pool side q
  /-- The index leads from the ids of the queued orders to their slots, and nowhere else. -/
  index : ∀ id s, b.index[id]? = some s ↔
    ∃ side rank o, b.InQueue side rank s ∧ b.pool.order? s = some o ∧ o.id = id
  /-- The slots with an order are those that were handed out and are not free. -/
  live : ∀ s, (b.pool.order? s).isSome ↔ s < b.pool.allocated ∧ s ∉ b.pool.free
  /-- Each of them is in one queue, and in one only. -/
  queued : ∀ s, (b.pool.order? s).isSome → ∃! place : Side × Int, b.InQueue place.1 place.2 s
  /-- A free slot is in none. -/
  unqueued : ∀ s ∈ b.pool.free, ∀ side rank, ¬ b.InQueue side rank s
  pool_size : b.pool.live = b.size
  level_size : b.size = b.counted .buy + b.counted .sell
  candidate : ∀ side rank, rank ∈ (b.ladder side).levels → rank ∈ (b.ladder side).candidates
  best_bid : ∀ p, b.best? .buy = some p ↔ p ∈ b.prices .buy ∧ ∀ q ∈ b.prices .buy, q ≤ p
  best_ask : ∀ p, b.best? .sell = some p ↔ p ∈ b.prices .sell ∧ ∀ q ∈ b.prices .sell, p ≤ q

variable {b : Book} {f : Plain} {es : List Entry} {side : Side} {rank : Int} {level : Level}

/-! ## Queues -/

theorem Holds.serves (h : b.Holds es) (hl : (b.ladder side).levels[rank]? = some level) :
    level.Serves b.pool side (queue side rank es) := by
  obtain ⟨hlevel, hprice⟩ := (h.ladder side).level rank level hl
  have hlinked := hlevel.linked
  refine ⟨?_, ?_, ?_, ?_, hlevel.count, hlevel.total, ?_, ?_, ?_, ?_, ?_⟩
  · exact ((h.ladder side).present rank).1
      (Std.TreeMap.mem_iff_isSome_getElem?.2 (Option.isSome_of_eq_some hl))
  · rw [hlevel.head]
    exact hlinked.forward
  · rw [hlevel.tail]
    exact hlinked.backward
  · exact h.pool.nodup.sublist (slots_queue_sublist side rank es)
  · intro hfits
    rw [hlevel.total, Qty.toInt_ofInt hfits]
  · intro e he
    exact (h.pool.orders e.1 e.2).2 (mem_queue.1 he).1
  · intro e he
    exact (mem_queue.1 he).2.1
  · intro e he
    obtain ⟨-, rfl, hr⟩ := mem_queue.1 he
    exact e.2.side.rank_injective (hr.trans hprice.symm)
  · intro e he
    exact h.positive e (mem_queue.1 he).1

/-- The walks through the queues meet the entries. -/
theorem Holds.inQueue (h : b.Holds es) {s : Slot} :
    b.InQueue side rank s ↔ s ∈ slots (queue side rank es) := by
  constructor
  · rintro ⟨level, l, hl, hwalk, hs⟩
    rwa [(h.serves hl).forward.unique hwalk]
  · intro hs
    obtain ⟨e, he, rfl⟩ := List.mem_map.1 hs
    have hm : rank ∈ (b.ladder side).levels :=
      ((h.ladder side).present rank).2 (List.ne_nil_of_mem he)
    obtain ⟨level, hl⟩ := Option.isSome_iff_exists.1 (Std.TreeMap.mem_iff_isSome_getElem?.1 hm)
    exact ⟨level, _, hl, (h.serves hl).forward, hs⟩

/-- A slot with an order is met where that order belongs, and nowhere else. -/
theorem Holds.inQueue_of_mem (h : b.Holds es) {e : Entry} (he : e ∈ es) :
    b.InQueue side rank e.1 ↔ e.2.side = side ∧ e.2.rank = rank := by
  rw [h.inQueue]
  constructor
  · intro hs
    by_contra hne
    exact not_mem_slots_queue h.pool.nodup he hne hs
  · intro hs
    exact mem_slots_of_mem (mem_queue.2 ⟨he, hs⟩)

/-! ## Slots and counts -/

theorem Holds.mem_slots (h : b.Holds es) {s : Slot} :
    s ∈ slots es ↔ s < b.pool.allocated ∧ s ∉ b.pool.free := by
  have hperm := h.pool.allotted
  have hdisj := (List.nodup_append.1 (hperm.nodup_iff.2 List.nodup_range)).2.2
  rw [← List.mem_range, ← hperm.mem_iff, List.mem_append]
  constructor
  · intro hs
    exact ⟨.inl hs, fun hf => hdisj s hs s hf rfl⟩
  · rintro ⟨hs | hs, hf⟩
    · exact hs
    · exact absurd hs hf

theorem Holds.isSome_order? (h : b.Holds es) {s : Slot} :
    (b.pool.order? s).isSome ↔ s ∈ slots es := by
  rw [Option.isSome_iff_exists]
  simp [h.pool.orders, slots]

/-- Every entry is counted at one of some ranks that include them all. -/
theorem sum_length_queue {side : Side} {ranks : List Int} {es : List Entry} (hn : ranks.Nodup)
    (h : ∀ e ∈ es, e.2.side = side → e.2.rank ∈ ranks) :
    (ranks.map fun rank => (queue side rank es).length).sum =
      (es.filter fun e => e.2.side = side).length := by
  induction es with
  | nil => simp
  | cons e es ih =>
    have ih := ih fun f hf => h f (List.mem_cons_of_mem e hf)
    by_cases hs : e.2.side = side
    · have hlen (rank : Int) : (queue side rank (e :: es)).length =
          (queue side rank es).length + if rank = e.2.rank then 1 else 0 := by
        by_cases hr : rank = e.2.rank
        · rw [queue_cons_of_pos ⟨hs, hr.symm⟩, if_pos hr, List.length_cons]
        · rw [queue_cons_of_neg fun hq => hr hq.2.symm, if_neg hr, Nat.add_zero]
      have hone : (ranks.map fun rank => if rank = e.2.rank then 1 else 0).sum = 1 := by
        rw [List.sum_map_ite, List.map_const', List.map_const', List.sum_replicate,
          List.sum_replicate, ← List.countP_eq_length_filter]
        simpa [List.count, beq_eq_decide] using List.count_eq_one_of_mem hn (h e List.mem_cons_self hs)
      simp only [hlen]
      rw [List.sum_map_add, ih, hone, List.filter_cons_of_pos (by simpa using hs),
        List.length_cons]
    · have hlen (rank : Int) : queue side rank (e :: es) = queue side rank es :=
        queue_cons_of_neg fun hq => hs hq.1
      simp only [hlen]
      rw [ih, List.filter_cons_of_neg (by simpa using hs)]

/-- The levels of a side have counted the orders of that side. -/
theorem Holds.counted (h : b.Holds es) (side : Side) :
    b.counted side = (es.filter fun e => e.2.side = side).length := by
  rw [← sum_length_queue Std.TreeMap.nodup_keys fun e he hs =>
    Std.TreeMap.mem_keys.2 ((h.ladder side).mem_levels he hs)]
  rw [Book.counted, ← Std.TreeMap.map_fst_toList_eq_keys, List.map_map]
  congr 1
  refine List.map_congr_left fun kv hkv => ?_
  exact (h.serves (Std.TreeMap.mem_toList_iff_getElem?_eq_some.1 hkv)).count

theorem Holds.length_eq_size (h : b.Holds es) : es.length = b.size := by
  have hsize := Shows.size (f := b.plain es) ⟨es, h, rfl⟩
  rw [hsize, plain, length_orders]

/-! ## Best prices -/

theorem Holds.mem_prices (h : b.Holds es) {p : Price} :
    p ∈ b.prices side ↔ side.rank p ∈ (b.ladder side).levels := by
  rw [prices, List.mem_map, Std.TreeMap.mem_iff_isSome_getElem?, Option.isSome_iff_exists]
  constructor
  · rintro ⟨kv, hkv, rfl⟩
    have hl := Std.TreeMap.mem_toList_iff_getElem?_eq_some.1 hkv
    exact ⟨kv.2, ((h.ladder side).level _ _ hl).2 ▸ hl⟩
  · rintro ⟨level, hl⟩
    have hprice := ((h.ladder side).level _ _ hl).2
    exact ⟨_, Std.TreeMap.mem_toList_iff_getElem?_eq_some.2 hl, side.rank_injective hprice⟩

/-- The best price of a side is one that no other has a smaller rank than. -/
theorem Holds.best? (h : b.Holds es) {p : Price} : b.best? side = some p ↔
    p ∈ b.prices side ∧ ∀ q ∈ b.prices side, side.rank p ≤ side.rank q := by
  obtain ⟨-, hnone, hsome⟩ := (h.ladder side).search
  -- Every price has an entry of its rank.
  have hentry {q : Price} (hq : q ∈ b.prices side) :
      ∃ e ∈ es, e.2.side = side ∧ e.2.rank = side.rank q := by
    have hne := ((h.ladder side).present _).1 (h.mem_prices.1 hq)
    obtain ⟨e, he⟩ := List.exists_mem_of_ne_nil _ hne
    exact ⟨e, mem_queue.1 he⟩
  show (b.ladder side).search.2.map (·.2.price) = some p ↔ _
  cases hf : (b.ladder side).search.2 with
  | none =>
    constructor
    · intro hp
      cases hp
    · rintro ⟨hp, -⟩
      obtain ⟨e, he, hs, -⟩ := hentry hp
      exact absurd hs (hnone hf e he)
  | some found =>
    obtain ⟨-, hl, hbest⟩ := hsome found.1 found.2 hf
    have hprice := ((h.ladder side).level _ _ hl).2
    have hmem : found.2.price ∈ b.prices side := by
      rw [h.mem_prices, hprice]
      exact Std.TreeMap.mem_iff_isSome_getElem?.2 (Option.isSome_of_eq_some hl)
    have hle (q : Price) (hq : q ∈ b.prices side) : side.rank found.2.price ≤ side.rank q := by
      obtain ⟨e, he, hs, hr⟩ := hentry hq
      rw [hprice, ← hr]
      exact hbest e he hs
    rw [Option.map_some, Option.some.injEq]
    constructor
    · rintro rfl
      exact ⟨hmem, hle⟩
    · rintro ⟨hp, hall⟩
      exact side.rank_injective (Int.le_antisymm (hle p hp) (hall _ hmem))

/-! ## Sound books -/

/-- A book that agrees with a list of arrivals is sound. -/
theorem Holds.sound (h : b.Holds es) : b.Sound where
  level side rank level hl := ⟨((h.ladder side).level rank level hl).2, _, h.serves hl⟩
  index id s := by
    rw [h.index id s]
    constructor
    · rintro ⟨o, he, rfl⟩
      exact ⟨o.side, o.rank, o, (h.inQueue_of_mem he).2 ⟨rfl, rfl⟩, (h.pool.orders s o).2 he, rfl⟩
    · rintro ⟨-, -, o, -, ho, rfl⟩
      exact ⟨o, (h.pool.orders s o).1 ho, rfl⟩
  live s := h.isSome_order?.trans h.mem_slots
  queued s hs := by
    obtain ⟨o, ho⟩ := Option.isSome_iff_exists.1 hs
    have he := (h.pool.orders s o).1 ho
    refine ⟨(o.side, o.rank), (h.inQueue_of_mem he).2 ⟨rfl, rfl⟩, ?_⟩
    rintro ⟨side, rank⟩ hin
    obtain ⟨rfl, rfl⟩ := (h.inQueue_of_mem he).1 hin
    rfl
  unqueued s hs side rank hin := by
    have hslot := (slots_queue_sublist side rank es).subset (h.inQueue.1 hin)
    exact (h.mem_slots.1 hslot).2 hs
  pool_size := by
    rw [Pool.live, h.pool.allocated, Nat.add_sub_cancel, h.length_eq_size]
  level_size := by
    rw [h.counted, h.counted, ← h.length_eq_size, ← List.countP_eq_length_filter,
      ← List.countP_eq_length_filter, List.length_eq_countP_add_countP fun e => e.2.side = .buy]
    congr 2
    funext e
    cases e.2.side <;> rfl
  candidate side := (h.ladder side).candidate
  best_bid p := by
    rw [h.best?]
    simp only [Side.rank, Int64.le_iff_toInt_le, Int.neg_le_neg_iff]
  best_ask p := by
    rw [h.best?]
    simp only [Side.rank, Int64.le_iff_toInt_le]

/-- A book after a list of calls, one after the other. -/
def after (b : Book) (calls : List Call) : Book :=
  calls.foldl (fun b c => (b.call c).1) b

theorem Shows.after (h : b.Shows f) (calls : List Call) : ∃ f', (b.after calls).Shows f' := by
  induction calls generalizing b f with
  | nil => exact ⟨f, h⟩
  | cons c calls ih => exact ih (h.call c).1

/-- **Every book is sound**, however it was made and whatever was asked of it, in any order. The
total of a level is the sum of its lots if that is a quantity; the other parts agree whatever the
sums are. -/
theorem sound_after (o : Opening) (calls : List Call) : (o.book.after calls).Sound := by
  obtain ⟨f, es, h, -⟩ := (shows_opening o).after calls
  exact h.sound

end Book

end Bourse
