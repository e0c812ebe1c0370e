import Bourse.Proofs.Book.Linking

/-!
# What a book keeps

A book is described by the list of its entries, the resting orders with their slots, in order of
arrival. `Pool.Holds`, `Ladder.Holds` and `Book.Holds` say that pool, levels, index and
candidates agree with that list; the queue of a level is what the list has at its price.
A step of the book touches one queue at most: `Frame` says that all the others are as before.
-/

namespace Bourse

/-- Where no two members look the same, the others look different from any one of them. -/
theorem ne_of_nodup_map {α β : Type} {f : α → β} {pre post : List α} {a : α}
    (h : ((pre ++ a :: post).map f).Nodup) : ∀ x ∈ pre ++ post, f x ≠ f a := by
  rw [List.map_append, List.map_cons, List.nodup_append] at h
  obtain ⟨-, hpost, hdisj⟩ := h
  intro x hx
  rcases List.mem_append.1 hx with hx | hx
  · exact hdisj _ (List.mem_map_of_mem hx) _ List.mem_cons_self
  · intro heq
    exact (List.nodup_cons.1 hpost).1 (heq ▸ List.mem_map_of_mem hx)

/-- The entries of one side and rank, the earliest arrival first. -/
def queue (side : Side) (rank : Int) (es : List Entry) : List Entry :=
  es.filter fun e => e.2.side = side ∧ e.2.rank = rank

section Queue

variable {side : Side} {rank : Int} {e : Entry} {es fs : List Entry}

@[simp] theorem mem_queue :
    e ∈ queue side rank es ↔ e ∈ es ∧ e.2.side = side ∧ e.2.rank = rank := by
  simp [queue]

@[simp] theorem queue_nil : queue side rank [] = [] := rfl

@[simp] theorem queue_append :
    queue side rank (es ++ fs) = queue side rank es ++ queue side rank fs := by
  simp [queue]

theorem queue_cons_of_pos (h : e.2.side = side ∧ e.2.rank = rank) :
    queue side rank (e :: es) = e :: queue side rank es := by
  simp [queue, h]

theorem queue_cons_of_neg (h : ¬ (e.2.side = side ∧ e.2.rank = rank)) :
    queue side rank (e :: es) = queue side rank es := by
  rw [queue, List.filter_cons_of_neg (by simpa using h)]
  rfl

theorem slots_queue_sublist (side : Side) (rank : Int) (es : List Entry) :
    (slots (queue side rank es)).Sublist (slots es) :=
  List.filter_sublist.map Prod.fst

theorem mem_slots_of_mem {s : Slot} {o : Order} (h : (s, o) ∈ es) : s ∈ slots es :=
  List.mem_map.2 ⟨(s, o), h, rfl⟩

/-- The slot of one entry is none of the others'. -/
theorem not_mem_slots {s : Slot} {o : Order} (hn : (slots (es ++ (s, o) :: fs)).Nodup) :
    s ∉ slots es ∧ s ∉ slots fs := by
  have hne := ne_of_nodup_map hn
  constructor
  · intro hs
    obtain ⟨e, he, heq⟩ := List.mem_map.1 hs
    exact hne e (List.mem_append_left _ he) heq
  · intro hs
    obtain ⟨e, he, heq⟩ := List.mem_map.1 hs
    exact hne e (List.mem_append_right _ he) heq

end Queue

/-! ## The pool -/

namespace Pool

/-- A pool holds just the given orders in their slots, and every other slot that was handed out
is free. -/
structure Holds (p : Pool) (es : List Entry) : Prop where
  orders : ∀ s o, p.order? s = some o ↔ (s, o) ∈ es
  allotted : (slots es ++ p.free).Perm (List.range p.allocated)
  allocated_le : p.allocated ≤ p.limit

variable {p q : Pool} {s : Slot} {o : Order} {es pre post : List Entry}

theorem Holds.nodup (h : p.Holds es) : (slots es).Nodup :=
  (List.nodup_append.1 (h.allotted.nodup_iff.2 List.nodup_range)).1

theorem Holds.allocated (h : p.Holds es) : p.allocated = es.length + p.free.length := by
  have hlen := h.allotted.length_eq
  rw [List.length_append, List.length_range, slots, List.length_map] at hlen
  exact hlen.symm

/-- A pool is full when it holds as many orders as it may. -/
theorem Holds.isFull (h : p.Holds es) : p.isFull ↔ p.limit ≤ es.length := by
  have hall := h.allocated
  have hle := h.allocated_le
  simp only [Pool.isFull, Bool.and_eq_true, List.isEmpty_iff, decide_eq_true_eq]
  constructor
  · rintro ⟨hfree, hlim⟩
    rw [hfree, List.length_nil] at hall
    omega
  · intro hlim
    exact ⟨List.eq_nil_of_length_eq_zero (by omega), by omega⟩

theorem holds_empty (limit : Nat) : ({ limit } : Pool).Holds [] where
  orders s o := by simp [order?]
  allotted := .refl _
  allocated_le := Nat.zero_le _

theorem Holds.relinked (h : p.Holds es) (hq : p.Relinked q) : q.Holds es where
  orders s o := by
    rw [order?, hq.orders]
    exact h.orders s o
  allotted := by
    rw [hq.free, hq.allocated]
    exact h.allotted
  allocated_le := by
    rw [hq.allocated, hq.limit]
    exact h.allocated_le

/-- A full pool takes no order. -/
theorem acquire?_of_isFull (hf : p.isFull) : p.acquire? o = none := by
  simp only [Pool.isFull, Bool.and_eq_true, List.isEmpty_iff, decide_eq_true_eq] at hf
  rw [acquire?, hf.1]
  exact if_pos hf.2

/-- Any other pool stores an order in a slot that held none. -/
theorem Holds.acquire? (h : p.Holds es) (hf : ¬ p.isFull) (o : Order) :
    ∃ s q, p.acquire? o = some (s, q) ∧ q.Holds (es ++ [(s, o)]) ∧ q.links = p.links ∧
      q.limit = p.limit := by
  have hstore {s : Slot} {orders : Std.TreeMap Slot Order} (hs : s ∉ slots es)
      (ho : orders = p.orders.insert s o) (t : Slot) (o' : Order) :
      orders[t]? = some o' ↔ (t, o') ∈ es ++ [(s, o)] := by
    rw [ho, Std.TreeMap.getElem?_insert, List.mem_append, List.mem_singleton, Prod.mk.injEq]
    simp only [Nat.compare_eq_eq]
    split
    · next hst =>
      subst hst
      have hnot : (s, o') ∉ es := fun hm => hs (mem_slots_of_mem hm)
      simp [hnot, eq_comm]
    · next hst =>
      have hts : ¬ t = s := fun hts => hst hts.symm
      simp only [hts, false_and, or_false]
      exact h.orders t o'
  have hnd : (slots es ++ p.free).Nodup := h.allotted.nodup_iff.2 List.nodup_range
  cases hfree : p.free with
  | cons s free =>
    rw [hfree] at hnd
    refine ⟨s, { p with orders := p.orders.insert s o, free }, by simp only [Pool.acquire?, hfree],
      ⟨?_, ?_, h.allocated_le⟩, rfl, rfl⟩
    · refine hstore ?_ rfl
      exact fun hs => (List.nodup_append.1 hnd).2.2 s hs s List.mem_cons_self rfl
    · have hslots := h.allotted
      rw [hfree] at hslots
      simpa using hslots
  | nil =>
    have hlim : ¬ p.limit ≤ p.allocated := by
      intro hle
      apply hf
      simp [Pool.isFull, hfree, hle]
    have hslots := h.allotted
    rw [hfree, List.append_nil] at hslots
    refine ⟨p.allocated,
      { p with orders := p.orders.insert p.allocated o, allocated := p.allocated + 1 },
      by simp only [Pool.acquire?, hfree, if_neg hlim], ⟨?_, ?_, ?_⟩, rfl, rfl⟩
    · refine hstore ?_ rfl
      intro hs
      exact absurd (List.mem_range.1 (hslots.mem_iff.1 hs)) (Nat.lt_irrefl _)
    · rw [List.range_succ]
      simpa [hfree] using hslots.append_right [p.allocated]
    · show p.allocated + 1 ≤ p.limit
      omega

/-- The order in one slot is replaced. -/
theorem Holds.modify (h : p.Holds (pre ++ (s, o) :: post)) (f : Order → Order) :
    (p.modify s f).Holds (pre ++ (s, f o) :: post) where
  orders t o' := by
    obtain ⟨hpre, hpost⟩ := not_mem_slots h.nodup
    have ho : p.orders[s]? = some o := (h.orders s o).2 (by simp)
    have ht := h.orders t o'
    show (p.orders.modify s f)[t]? = some o' ↔ _
    rw [Std.TreeMap.getElem?_modify]
    simp only [List.mem_append, List.mem_cons, Prod.mk.injEq, Nat.compare_eq_eq] at ht ⊢
    split
    · next hst =>
      subst hst
      have hp : (s, o') ∉ pre := fun hm => hpre (mem_slots_of_mem hm)
      have hq : (s, o') ∉ post := fun hm => hpost (mem_slots_of_mem hm)
      simp [hp, hq, ho, eq_comm]
    · next hst =>
      have hts : ¬ t = s := fun hts => hst hts.symm
      simp only [hts, false_and, false_or] at ht ⊢
      exact ht
  allotted := by
    have hslots := h.allotted
    rw [slots_append, slots_cons] at hslots ⊢
    exact hslots
  allocated_le := h.allocated_le

/-- A slot that held an order is free again. -/
theorem Holds.release (h : p.Holds (pre ++ (s, o) :: post)) :
    (p.release s).2.Holds (pre ++ post) := by
  obtain ⟨hpre, hpost⟩ := not_mem_slots h.nodup
  have ho : p.order? s = some o := (h.orders s o).2 (by simp)
  rw [Pool.release, ho]
  refine ⟨?_, ?_, h.allocated_le⟩
  · intro t o'
    have ht := h.orders t o'
    show (p.orders.erase s)[t]? = some o' ↔ _
    rw [Std.TreeMap.getElem?_erase]
    simp only [List.mem_append, List.mem_cons, Prod.mk.injEq, Nat.compare_eq_eq] at ht ⊢
    split
    · next hst =>
      subst hst
      have hp : (s, o') ∉ pre := fun hm => hpre (mem_slots_of_mem hm)
      have hq : (s, o') ∉ post := fun hm => hpost (mem_slots_of_mem hm)
      simp [hp, hq]
    · next hst =>
      have hts : ¬ t = s := fun hts => hst hts.symm
      simp only [hts, false_and, false_or] at ht
      exact ht
  · have hslots := h.allotted
    rw [slots_append, slots_cons, List.append_assoc, List.cons_append] at hslots
    show (slots (pre ++ post) ++ s :: p.free).Perm _
    rw [slots_append, List.append_assoc]
    refine List.Perm.trans ?_ hslots
    exact List.Perm.append_left _ List.perm_middle

theorem link_release {t : Slot} (ht : t ≠ s) : (p.release s).2.link t = p.link t := by
  unfold Pool.release
  split
  · rfl
  · rw [link, Std.TreeMap.getD_erase, if_neg]
    · rfl
    · exact fun hc => ht (Nat.compare_eq_eq.1 hc).symm

theorem limit_release : (p.release s).2.limit = p.limit := by
  unfold Pool.release
  split <;> rfl

end Pool

/-! ## Steps that touch one queue -/

/-- Between two states of the pool, with their entries, only one queue has changed. -/
structure Frame (side : Side) (rank : Int) (p p' : Pool) (es es' : List Entry) : Prop where
  queues : ∀ side' rank', ¬ (side' = side ∧ rank' = rank) →
    queue side' rank' es' = queue side' rank' es
  links : ∀ e ∈ es, ¬ (e.2.side = side ∧ e.2.rank = rank) → p'.link e.1 = p.link e.1

namespace Frame

variable {side : Side} {rank : Int} {p p' p'' : Pool} {es es' es'' : List Entry}

theorem of_link (h : ∀ s, p'.link s = p.link s) : Frame side rank p p' es es :=
  ⟨fun _ _ _ => rfl, fun e _ _ => h e.1⟩

theorem refl : Frame side rank p p es es :=
  of_link fun _ => rfl

/-- Entries outside the queue are the same before and after. -/
theorem mem_iff (h : Frame side rank p p' es es') {e : Entry}
    (he : ¬ (e.2.side = side ∧ e.2.rank = rank)) : e ∈ es' ↔ e ∈ es := by
  have hq := congrArg (e ∈ ·) (h.queues e.2.side e.2.rank he)
  simpa using hq

theorem trans (h : Frame side rank p p' es es') (h' : Frame side rank p' p'' es' es'') :
    Frame side rank p p'' es es'' where
  queues side' rank' hne := (h'.queues side' rank' hne).trans (h.queues side' rank' hne)
  links e he hne := (h'.links e ((h.mem_iff hne).2 he) hne).trans (h.links e he hne)

/-- A level elsewhere is as before. -/
theorem level (h : Frame side rank p p' es es') {l : Book.Level} {side' : Side} {rank' : Int}
    (hl : l.Holds p (queue side' rank' es)) (hne : ¬ (side' = side ∧ rank' = rank)) :
    l.Holds p' (queue side' rank' es') := by
  rw [h.queues side' rank' hne]
  refine hl.congr fun s hs => ?_
  obtain ⟨e, he, rfl⟩ := List.mem_map.1 hs
  obtain ⟨hmem, rfl, rfl⟩ := mem_queue.1 he
  exact h.links e hmem hne

end Frame

/-! ## The levels of a side -/

namespace Book.Ladder

/-- A ladder has a level for each queue with orders, and every level is a candidate. -/
structure Holds (l : Ladder) (p : Pool) (side : Side) (es : List Entry) : Prop where
  present : ∀ rank, rank ∈ l.levels ↔ queue side rank es ≠ []
  level : ∀ rank level, l.levels[rank]? = some level →
    level.Holds p (queue side rank es) ∧ side.rank level.price = rank
  candidate : ∀ rank, rank ∈ l.levels → rank ∈ l.candidates

variable {l : Ladder} {p p' : Pool} {side side' : Side} {rank : Int} {es es' : List Entry}

theorem holds_empty (p : Pool) (side : Side) : ({} : Ladder).Holds p side [] where
  present rank := by simp
  level rank level h := by simp at h
  candidate rank h := by simp at h

/-- Every entry has its level. -/
theorem Holds.mem_levels (h : l.Holds p side es) {e : Entry} (he : e ∈ es) (hs : e.2.side = side) :
    e.2.rank ∈ l.levels :=
  (h.present e.2.rank).2 (List.ne_nil_of_mem (mem_queue.2 ⟨he, hs, rfl⟩))

/-- There is no level without orders. -/
theorem Holds.not_isEmpty (h : l.Holds p side es) {level : Level}
    (hl : l.levels[rank]? = some level) : ¬ level.isEmpty := by
  rw [(h.level rank level hl).1.isEmpty, ← ne_eq, ← h.present, Std.TreeMap.mem_iff_isSome_getElem?,
    hl]
  rfl

/-- The other side is as before. -/
theorem Holds.frame (h : l.Holds p side' es) (hf : Frame side rank p p' es es')
    (hne : side' ≠ side) : l.Holds p' side' es' where
  present r := by
    rw [hf.queues side' r fun hs => hne hs.1]
    exact h.present r
  level r level hl :=
    have hlevel := h.level r level hl
    ⟨hf.level hlevel.1 fun hs => hne hs.1, hlevel.2⟩
  candidate := h.candidate

/-- The one level that has changed is put back in its place. -/
theorem Holds.put (h : l.Holds p side es) (hf : Frame side rank p p' es es') {level : Level}
    (hl : level.Holds p' (queue side rank es')) (hr : side.rank level.price = rank)
    (hc : rank ∈ l.candidates) : (l.put rank level).Holds p' side es' where
  present r := by
    rw [Std.TreeMap.mem_iff_isSome_getElem?, getElem?_put]
    split
    · next heq =>
      rw [← heq, ne_eq, ← hl.isEmpty]
      cases level.isEmpty <;> simp
    · next hne =>
      rw [hf.queues side r fun hs => hne hs.2.symm, ← Std.TreeMap.mem_iff_isSome_getElem?]
      exact h.present r
  level r level' hl' := by
    rw [getElem?_put] at hl'
    split at hl'
    · next heq =>
      subst heq
      split at hl'
      · cases hl'
      · cases hl'
        exact ⟨hl, hr⟩
    · next hne =>
      have hlevel := h.level r level' hl'
      exact ⟨hf.level hlevel.1 fun hs => hne hs.2.symm, hlevel.2⟩
  candidate r hm := by
    show r ∈ l.candidates
    by_cases heq : rank = r
    · exact heq ▸ hc
    · refine h.candidate r ?_
      rw [Std.TreeMap.mem_iff_isSome_getElem?, getElem?_put, if_neg heq] at hm
      exact Std.TreeMap.mem_iff_isSome_getElem?.2 hm

theorem Holds.compact (h : l.Holds p side es) : l.compact.Holds p side es where
  present rank := by
    rw [levels_compact]
    exact h.present rank
  level rank level := by
    rw [levels_compact]
    exact h.level rank level
  candidate rank hm := by
    rw [levels_compact] at hm
    unfold Ladder.compact
    split
    · exact Candidates.mem_ofList.2 (Std.TreeMap.mem_keys.2 hm)
    · exact h.candidate rank hm

/-- The level at a rank, a new one if there is none, queues what rests there, and is a
candidate. -/
theorem Holds.entry (h : l.Holds p side es) (price : Price) (hr : side.rank price = rank) :
    (l.entry rank price).1.Holds p side es ∧ rank ∈ (l.entry rank price).1.candidates ∧
      (l.entry rank price).2.Holds p (queue side rank es) ∧
      side.rank (l.entry rank price).2.price = rank := by
  unfold Ladder.entry
  split
  · next level hl =>
    have hm : rank ∈ l.levels := Std.TreeMap.mem_iff_isSome_getElem?.2 (by rw [hl]; rfl)
    exact ⟨h, h.candidate rank hm, h.level rank level hl⟩
  · next hl =>
    have hm : rank ∉ l.levels := by
      rw [Std.TreeMap.mem_iff_isSome_getElem?, hl]
      exact Bool.false_ne_true
    have hq : queue side rank es = [] := by
      by_cases hq : queue side rank es = []
      · exact hq
      · exact absurd ((h.present rank).2 hq) hm
    refine ⟨{ h with candidate := fun r hr => ?_ }, Candidates.mem_push.2 (.inl rfl), ?_, hr⟩
    · exact Candidates.mem_push.2 (.inr (h.candidate r hr))
    · rw [hq]
      exact Level.holds_new p price

/-- A search keeps the ladder, and finds the level with the least rank of all entries. -/
theorem Holds.search (h : l.Holds p side es) :
    l.search.1.Holds p side es ∧
      (l.search.2 = none → ∀ e ∈ es, e.2.side ≠ side) ∧
      ∀ rank level, l.search.2 = some (rank, level) →
        rank ∈ l.search.1.candidates ∧ l.levels[rank]? = some level ∧
        ∀ e ∈ es, e.2.side = side → rank ≤ e.2.rank := by
  fun_induction Ladder.search l with
  | case1 l htop =>
    refine ⟨h, fun _ e he hs => ?_, fun _ _ hf => by cases hf⟩
    exact Candidates.not_mem_of_top?_eq_none htop _ (h.candidate _ (h.mem_levels he hs))
  | case2 l top htop level hf =>
    refine ⟨h, (by intro hn; cases hn), ?_⟩
    rintro rank level' heq
    cases heq
    have hl := (Option.filter_eq_some_iff.1 hf).1
    have hm : top ∈ l.levels := Std.TreeMap.mem_iff_isSome_getElem?.2 (by rw [hl]; rfl)
    refine ⟨h.candidate top hm, hl, fun e he hs => ?_⟩
    exact Candidates.top_le htop _ (h.candidate _ (h.mem_levels he hs))
  | case3 l top htop hf ih =>
    -- The top has no level, so no level loses its candidate.
    have hnone : top ∉ l.levels := by
      rw [Std.TreeMap.mem_iff_isSome_getElem?]
      intro hsome
      obtain ⟨level, hl⟩ := Option.isSome_iff_exists.1 hsome
      have hne := h.not_isEmpty hl
      rw [hl, Option.filter_some] at hf
      simp [hne] at hf
    refine ih { h with candidate := fun r hr => ?_ }
    rcases (Candidates.mem_iff_of_top? htop r).1 (h.candidate r hr) with rfl | hpop
    · exact absurd hr hnone
    · exact hpop

end Book.Ladder

/-! ## The book -/

namespace Book

/-- Pool and index of a book hold just the given entries. -/
structure Stocked (b : Book) (es : List Entry) : Prop where
  pool : b.pool.Holds es
  index : ∀ id s, b.index[id]? = some s ↔ ∃ o, (s, o) ∈ es ∧ o.id = id
  distinct : (es.map (·.2.id)).Nodup

/-- A book holds just the given entries, all of which want to trade. -/
structure Holds (b : Book) (es : List Entry) : Prop extends Stocked b es where
  positive : ∀ e ∈ es, 0 < e.2.qty
  ladder : ∀ side, (b.ladder side).Holds b.pool side es

end Book

end Bourse
