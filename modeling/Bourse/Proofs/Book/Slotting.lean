import Bourse.Proofs.Book.Keeping

/-!
# Slots under any use

A pool may be asked for slots, to empty slots and to fill the orders in them, in any order, also to
empty a slot twice. What it should hold then is told by what was asked and answered: `housed` lists
the orders that are in slots, `freed` the slots that are waiting, and `peak` is the largest number of
orders that there were at once. `Orderly` says that the pool agrees with all of that, and
`orderly_asked` that it always does. A slot that was emptied twice is waiting once only, so no two
orders ever share one.
-/

namespace Bourse.Pool

/-- What a pool may be asked for. -/
inductive Ask where
  /-- A slot for an order. -/
  | acquire (o : Order)
  /-- The order in a slot, which is empty afterwards. -/
  | release (s : Slot)
  /-- To take some lots from the order in a slot. -/
  | fill (s : Slot) (qty : Qty)

/-- What a pool answers. -/
inductive Answer where
  | slot (s : Option Slot)
  | order (o : Option Order)
  /-- The lots that the order in the slot could give, if there is one. -/
  | filled (qty : Option Qty)

/-- What a pool was asked and has answered so far, the latest first. -/
abbrev History := List (Ask × Answer)

/-- Asks a pool for something. -/
def ask (p : Pool) : Ask → Pool × Answer
  | .acquire o =>
    match p.acquire? o with
    | some (s, q) => (q, .slot (some s))
    | none => (p, .slot none)
  | .release s =>
    let (o, q) := p.release s
    (q, .order o)
  | .fill s qty => (p.modify s (·.fill qty), .filled ((p.order? s).map (·.available qty)))

/-- Asks a pool for one thing after the other. -/
def asked (p : Pool) (asks : List Ask) : Pool × History :=
  asks.foldl (fun (p, h) a =>
    let (q, answer) := p.ask a
    (q, (a, answer) :: h)) (p, [])

/-! ## What a history tells -/

/-- The orders that were given a slot and were not taken out of it, each with its slot and with what
is left of it. -/
def housed : History → List Entry
  | [] => []
  | (.acquire o, .slot (some s)) :: before => housed before ++ [(s, o)]
  | (.release s, _) :: before => (housed before).filter (·.1 ≠ s)
  | (.fill s qty, _) :: before =>
    (housed before).map fun e => if e.1 = s then (s, e.2.fill qty) else e
  | _ :: before => housed before

/-- The slots from which an order was taken and which have had none since, the latest first. -/
def freed : History → List Slot
  | [] => []
  | (.acquire _, .slot (some s)) :: before => (freed before).erase s
  | (.release s, _) :: before =>
    if s ∈ slots (housed before) then s :: freed before else freed before
  | _ :: before => freed before

/-- The largest number of orders that were in slots at once. -/
def peak : History → Nat
  | [] => 0
  | latest :: before => max (housed (latest :: before)).length (peak before)

variable {p q : Pool} {h : History} {bound : Nat} {s : Slot} {o : Order} {es : List Entry}

theorem exists_order (hs : s ∈ slots es) : ∃ o, (s, o) ∈ es := by
  obtain ⟨e, he, rfl⟩ := List.mem_map.1 hs
  exact ⟨e.2, he⟩

/-- Leaving out a slot makes no difference to entries that do not have it. -/
theorem filter_of_not_mem (hs : s ∉ slots es) : es.filter (·.1 ≠ s) = es := by
  refine List.filter_eq_self.2 fun e he => decide_eq_true fun heq => hs ?_
  exact List.mem_map.2 ⟨e, he, heq⟩

/-- Nor does filling the order in it. -/
theorem map_fill_of_not_mem (hs : s ∉ slots es) (qty : Qty) :
    es.map (fun e => if e.1 = s then (s, e.2.fill qty) else e) = es := by
  refine (List.map_congr_left fun e he => if_neg fun heq => hs ?_).trans (List.map_id es)
  exact List.mem_map.2 ⟨e, he, heq⟩

/-- Where no two slots are the same, a slot is left out with its one entry. -/
theorem filter_slot {pre post : List Entry} (hn : (slots (pre ++ (s, o) :: post)).Nodup) :
    (pre ++ (s, o) :: post).filter (·.1 ≠ s) = pre ++ post := by
  obtain ⟨hpre, hpost⟩ := not_mem_slots hn
  rw [List.filter_append, filter_of_not_mem hpre, List.filter_cons_of_neg (by simp),
    filter_of_not_mem hpost]

/-- And only its order is filled. -/
theorem map_fill_slot {pre post : List Entry} (hn : (slots (pre ++ (s, o) :: post)).Nodup)
    (qty : Qty) :
    (pre ++ (s, o) :: post).map (fun e => if e.1 = s then (s, e.2.fill qty) else e) =
      pre ++ (s, o.fill qty) :: post := by
  obtain ⟨hpre, hpost⟩ := not_mem_slots hn
  rw [List.map_append, map_fill_of_not_mem hpre, List.map_cons, if_pos rfl,
    map_fill_of_not_mem hpost]

/-! ## What each operation does -/

/-- A pool is asked for a slot: it is full, or it hands out the slot that was freed last, or, if none
was, a new one. -/
theorem acquire?_cases (p : Pool) (o : Order) :
    (p.isFull ∧ p.acquire? o = none) ∨
    (∃ s free, p.free = s :: free ∧
      p.acquire? o = some (s, { p with orders := p.orders.insert s o, free })) ∨
    (p.free = [] ∧ p.allocated < p.limit ∧
      p.acquire? o = some (p.allocated,
        { p with orders := p.orders.insert p.allocated o, allocated := p.allocated + 1 })) := by
  unfold Pool.acquire?
  cases hfree : p.free with
  | cons s free => exact .inr (.inl ⟨s, free, rfl, rfl⟩)
  | nil =>
    by_cases hle : p.limit ≤ p.allocated
    · exact .inl ⟨by simp [isFull, hfree, hle], if_pos hle⟩
    · exact .inr (.inr ⟨rfl, Nat.lt_of_not_le hle, if_neg hle⟩)

/-- An order that gets a slot is in the pool then, behind the others. -/
theorem Holds.of_acquire? (hp : p.Holds es) (h : p.acquire? o = some (s, q)) :
    q.Holds (es ++ [(s, o)]) := by
  have hroom : ¬ p.isFull := by
    intro hfull
    rw [acquire?_of_isFull hfull] at h
    cases h
  obtain ⟨s', q', hacquire, hholds, -, -⟩ := hp.acquire? hroom o
  obtain ⟨rfl, rfl⟩ := Prod.mk.inj (Option.some.inj (hacquire.symm.trans h))
  exact hholds

/-- A slot without an order has none to give, and none to fill. -/
theorem Holds.order?_eq_none (hp : p.Holds es) (hs : s ∉ slots es) : p.order? s = none := by
  cases ho : p.order? s with
  | none => rfl
  | some o => exact absurd (mem_slots_of_mem ((hp.orders s o).1 ho)) hs

/-- A slot that is free holds no order. -/
theorem Holds.not_mem_of_free (hp : p.Holds es) (hs : s ∈ p.free) : s ∉ slots es := by
  have hnd := hp.allotted.nodup_iff.2 List.nodup_range
  exact fun hmem => (List.nodup_append.1 hnd).2.2 s hmem s hs rfl

theorem release_of_none (ho : p.order? s = none) : p.release s = (none, p) := by
  rw [Pool.release, ho]

theorem release_of_some (ho : p.order? s = some o) :
    p.release s =
      (some o, { p with
        orders := p.orders.erase s, links := p.links.erase s, free := s :: p.free }) := by
  rw [Pool.release, ho]

/-- Filling where there is no order makes no difference. -/
theorem Holds.modify_of_not_mem (hp : p.Holds es) (hs : s ∉ slots es) (f : Order → Order) :
    (p.modify s f).Holds es where
  orders t o := by
    show (p.orders.modify s f)[t]? = some o ↔ _
    rw [Std.TreeMap.getElem?_modify]
    simp only [Nat.compare_eq_eq]
    split
    · next heq =>
      subst heq
      have hnone : p.orders[s]? = none := hp.order?_eq_none hs
      rw [hnone]
      exact ⟨fun hn => (by cases hn), fun hm => absurd (mem_slots_of_mem hm) hs⟩
    · exact hp.orders t o
  allotted := hp.allotted
  allocated_le := hp.allocated_le

/-! ## What is kept -/

/-- A pool agrees with its history. -/
structure Keeps (bound : Nat) (p : Pool) (h : History) : Prop where
  holds : p.Holds (housed h)
  free : p.free = freed h
  most : p.allocated = peak h
  unlinked : ∀ s, p.link s = {}
  limit : p.limit = bound

theorem keeps_empty (limit : Nat) : Keeps limit { limit } [] where
  holds := holds_empty limit
  free := rfl
  most := rfl
  unlinked s := by simp [link]
  limit := rfl

/-- The peak stays where it is when there are no more orders than before. -/
theorem Keeps.most_same (hk : Keeps bound p h) {latest : Ask × Answer}
    (hle : (housed (latest :: h)).length ≤ (housed h).length) :
    p.allocated = Pool.peak (latest :: h) := by
  have hall := hk.holds.allocated
  rw [Pool.peak, ← hk.most, Nat.max_eq_right]
  omega

theorem Keeps.acquire (hk : Keeps bound p h) (o : Order) :
    Keeps bound (p.ask (.acquire o)).1 ((.acquire o, (p.ask (.acquire o)).2) :: h) := by
  rcases acquire?_cases p o with ⟨-, hnone⟩ | ⟨s, free, hfree, hsome⟩ | ⟨hfree, -, hsome⟩
  · -- The pool is full.
    simp only [ask, hnone]
    exact
      { holds := hk.holds, free := hk.free, most := hk.most_same (Nat.le_refl _)
        unlinked := hk.unlinked, limit := hk.limit }
  · -- A slot is used again, so there were more orders at once before.
    have hholds := hk.holds.of_acquire? hsome
    have hall := hholds.allocated
    simp only [ask, hsome]
    refine
      { holds := hholds, free := ?_, most := ?_, unlinked := hk.unlinked, limit := hk.limit }
    · show free = (freed h).erase s
      rw [← hk.free, hfree, List.erase_cons_head]
    · show p.allocated = max (housed h ++ [(s, o)]).length (peak h)
      rw [← hk.most, Nat.max_eq_right]
      change p.allocated = _ at hall
      omega
  · -- A new slot is used, so there were never as many orders before.
    have hholds := hk.holds.of_acquire? hsome
    have hall := hk.holds.allocated
    rw [hfree, List.length_nil, Nat.add_zero] at hall
    simp only [ask, hsome]
    refine
      { holds := hholds, free := ?_, most := ?_, unlinked := hk.unlinked, limit := hk.limit }
    · show p.free = (freed h).erase p.allocated
      rw [← hk.free, hfree, List.erase_nil]
    · show p.allocated + 1 = max (housed h ++ [(p.allocated, o)]).length (peak h)
      rw [← hk.most, List.length_append, List.length_singleton, ← hall]
      omega

theorem Keeps.release (hk : Keeps bound p h) (s : Slot) :
    Keeps bound (p.ask (.release s)).1 ((.release s, (p.ask (.release s)).2) :: h) := by
  by_cases hs : s ∈ slots (housed h)
  · obtain ⟨o, hmem⟩ := exists_order hs
    obtain ⟨pre, post, hsplit⟩ := List.append_of_mem hmem
    have hholds := hsplit ▸ hk.holds
    have hsome := release_of_some ((hk.holds.orders _ o).2 hmem)
    have hleft := hholds.release
    have hhoused : (housed h).filter (·.1 ≠ s) = pre ++ post := by
      rw [hsplit]
      exact filter_slot hholds.nodup
    simp only [ask, hsome] at hleft ⊢
    refine
      { holds := ?_, free := ?_, most := ?_, unlinked := fun t => ?_, limit := hk.limit }
    · show Holds _ ((housed h).filter (·.1 ≠ s))
      rw [hhoused]
      exact hleft
    · show s :: p.free = if s ∈ slots (housed h) then s :: freed h else freed h
      rw [if_pos hs, hk.free]
    · exact hk.most_same (List.length_filter_le ..)
    · show (p.links.erase s).getD t {} = {}
      rw [Std.TreeMap.getD_erase]
      split
      · rfl
      · exact hk.unlinked t
  · have hnone := release_of_none (hk.holds.order?_eq_none hs)
    simp only [ask, hnone]
    refine
      { holds := ?_, free := ?_, most := hk.most_same (List.length_filter_le ..)
        unlinked := hk.unlinked, limit := hk.limit }
    · show p.Holds ((housed h).filter (·.1 ≠ s))
      rw [filter_of_not_mem hs]
      exact hk.holds
    · show p.free = if s ∈ slots (housed h) then s :: freed h else freed h
      rw [if_neg hs, hk.free]

theorem Keeps.fill (hk : Keeps bound p h) (s : Slot) (qty : Qty) :
    Keeps bound (p.ask (.fill s qty)).1 ((.fill s qty, (p.ask (.fill s qty)).2) :: h) := by
  have hmost : p.allocated = Pool.peak ((.fill s qty, (p.ask (.fill s qty)).2) :: h) :=
    hk.most_same (Nat.le_of_eq (List.length_map ..))
  refine
    { holds := ?_, free := hk.free, most := hmost, unlinked := hk.unlinked, limit := hk.limit }
  show (p.modify s (·.fill qty)).Holds
    ((housed h).map fun e => if e.1 = s then (s, e.2.fill qty) else e)
  by_cases hs : s ∈ slots (housed h)
  · obtain ⟨o, hmem⟩ := exists_order hs
    obtain ⟨pre, post, hsplit⟩ := List.append_of_mem hmem
    have hholds := hsplit ▸ hk.holds
    rw [hsplit, map_fill_slot hholds.nodup]
    exact hholds.modify (·.fill qty)
  · rw [map_fill_of_not_mem hs]
    exact hk.holds.modify_of_not_mem hs _

/-- Whatever a pool is asked for, it goes on to agree with its history. -/
theorem Keeps.ask (hk : Keeps bound p h) (a : Ask) :
    Keeps bound (p.ask a).1 ((a, (p.ask a).2) :: h) := by
  cases a with
  | acquire o => exact hk.acquire o
  | release s => exact hk.release s
  | fill s qty => exact hk.fill s qty

theorem Keeps.asked (hk : Keeps bound p h) (asks : List Ask) :
    ∃ q h', asks.foldl (fun (p, h) a =>
        let (q, answer) := Pool.ask p a
        (q, (a, answer) :: h)) (p, h) = (q, h') ∧ Keeps bound q h' := by
  induction asks generalizing p h with
  | nil => exact ⟨p, h, rfl, hk⟩
  | cons a rest ih => exact ih (hk.ask a)

/-! ## Orderly pools -/

/-- A pool of at most `bound` slots does what it should after its history. -/
structure Orderly (bound : Nat) (p : Pool) (h : History) : Prop where
  /-- Every slot is in use or waiting. -/
  allocated : p.allocated = p.live + p.free.length
  allocated_le : p.allocated ≤ bound
  /-- There are as many slots as there ever were orders at once. -/
  peak : p.allocated = Pool.peak h
  live : p.live = (housed h).length
  /-- No two orders share a slot, and every slot that was ever handed out has an order or is waiting,
  but not both, and waits once only. -/
  allotted : (slots (housed h) ++ freed h).Perm (List.range p.allocated)
  /-- A slot holds the order that was put there, with what is left of it. -/
  order : ∀ s o, p.order? s = some o ↔ (s, o) ∈ housed h
  /-- An order is refused exactly if the pool has its most orders already. -/
  refused : ∀ o, p.acquire? o = none ↔ p.live = bound
  /-- Any other order gets a slot that has none: the one that was freed last, or else a new one. -/
  acquired : ∀ o s q, p.acquire? o = some (s, q) →
    s ∉ slots (housed h) ∧ s = (freed h).head?.getD p.allocated
  /-- Emptying a slot hands out the order in it. -/
  released : ∀ s o, (s, o) ∈ housed h → (p.release s).1 = some o
  /-- Where there is none, nothing is handed out and nothing changes. -/
  vacant : ∀ s, s ∉ slots (housed h) → p.release s = (none, p)
  /-- The slots that are waiting are those that were freed. -/
  isVacant : ∀ s, p.isVacant s ↔ s ∈ freed h

theorem Keeps.live (hk : Keeps bound p h) : p.live = (housed h).length := by
  rw [Pool.live, hk.holds.allocated, Nat.add_sub_cancel]

theorem Keeps.isVacant (hk : Keeps bound p h) (s : Slot) : p.isVacant s ↔ s ∈ freed h := by
  rw [← hk.free]
  constructor
  · intro hv
    simp only [Pool.isVacant, Bool.and_eq_true] at hv
    exact List.contains_iff_mem.1 hv.1.1
  · intro hs
    have hnone := hk.holds.order?_eq_none (hk.holds.not_mem_of_free hs)
    simp [Pool.isVacant, hs, hnone, hk.unlinked s]

theorem Keeps.orderly (hk : Keeps bound p h) : Orderly bound p h where
  allocated := by
    rw [hk.live]
    exact hk.holds.allocated
  allocated_le := hk.limit ▸ hk.holds.allocated_le
  peak := hk.most
  live := hk.live
  allotted := hk.free ▸ hk.holds.allotted
  order := hk.holds.orders
  refused o := by
    have hle := hk.limit ▸ hk.holds.allocated_le
    have hall := hk.holds.allocated
    have hfull := hk.holds.isFull
    rw [hk.limit] at hfull
    rw [hk.live]
    rcases acquire?_cases p o with ⟨hf, hnone⟩ | ⟨s, free, hfree, hsome⟩ | ⟨hfree, hlt, hsome⟩
    · have := hfull.1 hf
      rw [hnone]
      exact ⟨fun _ => by omega, fun _ => rfl⟩
    · rw [hfree, List.length_cons] at hall
      rw [hsome]
      exact ⟨fun hn => (by cases hn), fun heq => by omega⟩
    · rw [hk.limit] at hlt
      rw [hfree, List.length_nil] at hall
      rw [hsome]
      exact ⟨fun hn => (by cases hn), fun heq => by omega⟩
  acquired o s q hsome := by
    rw [← hk.free]
    rcases acquire?_cases p o with ⟨-, hnone⟩ | ⟨s', free, hfree, hacquire⟩ | ⟨hfree, -, hacquire⟩
    · rw [hnone] at hsome
      cases hsome
    · rw [hacquire] at hsome
      cases hsome
      refine ⟨hk.holds.not_mem_of_free ?_, by rw [hfree]; rfl⟩
      rw [hfree]
      exact List.mem_cons_self
    · rw [hacquire] at hsome
      cases hsome
      refine ⟨fun hs => ?_, by rw [hfree]; rfl⟩
      have hmem := hk.holds.allotted.mem_iff.1 (List.mem_append_left p.free hs)
      exact Nat.lt_irrefl _ (List.mem_range.1 hmem)
  released s o hmem := by rw [release_of_some ((hk.holds.orders s o).2 hmem)]
  vacant s hs := release_of_none (hk.holds.order?_eq_none hs)
  isVacant := hk.isVacant

/-- **A pool is orderly whatever it is asked for**, with any limit and in any order, also when slots
are emptied that are empty already. It has one slot for each order of the time when there were most,
never more than its limit and never more than can be numbered. -/
theorem orderly_asked (limit : Nat) (asks : List Ask) :
    let (p, h) := (bounded limit).asked asks
    Orderly (min limit maxSlots) p h := by
  obtain ⟨p, h, hasked, hk⟩ := (keeps_empty (min limit maxSlots)).asked asks
  have hrun : (bounded limit).asked asks = (p, h) := hasked
  rw [hrun]
  exact hk.orderly

/-- A pool without a limit of its own has as many slots as can be numbered. -/
example : ({} : Pool) = bounded maxSlots := rfl

end Bourse.Pool
