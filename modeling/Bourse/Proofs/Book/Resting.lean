import Bourse.Proofs.Book.Keeping
import Bourse.Proofs.Book.Plain

/-!
# Resting and removing orders

An order that is added comes last among the entries of a book; one that is removed leaves the
others in their order. `Book.Shows` says that a book and a plain book have the same orders in
the same order of arrival and the same bound, and both operations keep it so.
-/

namespace Bourse

section Removing

variable {side : Side} {rank : Int} {p : Pool} {s : Slot} {o : Order} {es pre post : List Entry}
  {l : Book.Level}

/-- A slot belongs to one queue only. -/
theorem not_mem_slots_queue (hn : (slots es).Nodup) {e : Entry} (he : e ∈ es)
    (hne : ¬ (e.2.side = side ∧ e.2.rank = rank)) : e.1 ∉ slots (queue side rank es) := by
  intro hs
  obtain ⟨e', he', hfst⟩ := List.mem_map.1 hs
  obtain ⟨hmem, hq⟩ := mem_queue.1 he'
  have heq := List.inj_on_of_nodup_map hn hmem he hfst
  exact hne (heq ▸ hq)

/-- An entry that comes last comes last in its queue. -/
theorem queue_last (ho : o.side = side ∧ o.rank = rank) :
    queue side rank (es ++ [(s, o)]) = queue side rank es ++ [(s, o)] := by
  rw [queue_append, queue_cons_of_pos ho, queue_nil]

/-- A new entry joins its level. -/
theorem Book.Level.Holds.add (h : l.Holds p (queue side rank es)) (hp : p.Holds (es ++ [(s, o)]))
    (ho : o.side = side ∧ o.rank = rank) :
    (l.pushBack p s).1.Holds (l.pushBack p s).2 (queue side rank (es ++ [(s, o)])) := by
  have hn := hp.nodup.sublist (slots_queue_sublist side rank _)
  rw [queue_last ho] at hn ⊢
  exact h.pushBack hn ((hp.orders s o).2 (by simp))

/-- When an entry joins, the other queues stay as they are. -/
theorem Frame.add (h : l.Holds p (queue side rank es)) (hp : p.Holds (es ++ [(s, o)]))
    (ho : o.side = side ∧ o.rank = rank) :
    Frame side rank p (l.pushBack p s).2 es (es ++ [(s, o)]) where
  queues side' rank' hne := by
    have hneg : ¬ (o.side = side' ∧ o.rank = rank') := by
      rintro ⟨rfl, rfl⟩
      exact hne ⟨ho.1, ho.2⟩
    rw [queue_append, queue_cons_of_neg hneg, queue_nil, List.append_nil]
  links e he hne := by
    have hnot := not_mem_slots_queue hp.nodup (List.mem_append_left _ he) hne
    rw [queue_last ho] at hnot
    exact h.link_pushBack hnot

/-- The queue of an entry, around that entry. -/
theorem queue_around (ho : o.side = side ∧ o.rank = rank) :
    queue side rank (pre ++ (s, o) :: post) =
      queue side rank pre ++ (s, o) :: queue side rank post := by
  rw [queue_append, queue_cons_of_pos ho]

/-- The entry in a slot leaves its level. -/
theorem Book.Level.Holds.remove (h : l.Holds p (queue side rank (pre ++ (s, o) :: post)))
    (hp : p.Holds (pre ++ (s, o) :: post)) (ho : o.side = side ∧ o.rank = rank) :
    (l.unlink p s).1.Holds ((l.unlink p s).2.release s).2 (queue side rank (pre ++ post)) := by
  have hn := hp.nodup.sublist (slots_queue_sublist side rank _)
  rw [queue_around ho] at h hn
  rw [queue_append]
  have hs := not_mem_slots hn
  refine (h.unlink hn ((hp.orders s o).2 (by simp))).congr fun t ht => ?_
  refine Pool.link_release ?_
  rintro rfl
  rw [slots_append, List.mem_append] at ht
  exact ht.elim hs.1 hs.2

/-- The entry in a slot leaves the pool. -/
theorem Pool.Holds.remove (hp : p.Holds (pre ++ (s, o) :: post)) (l : Book.Level) :
    ((l.unlink p s).2.release s).2.Holds (pre ++ post) :=
  (hp.relinked (Book.Level.relinked_unlink l p s)).release

/-- When an entry leaves, the other queues stay as they are. -/
theorem Frame.remove (h : l.Holds p (queue side rank (pre ++ (s, o) :: post)))
    (hp : p.Holds (pre ++ (s, o) :: post)) (ho : o.side = side ∧ o.rank = rank) :
    Frame side rank p ((l.unlink p s).2.release s).2 (pre ++ (s, o) :: post) (pre ++ post) where
  queues side' rank' hne := by
    have hneg : ¬ (o.side = side' ∧ o.rank = rank') := by
      rintro ⟨rfl, rfl⟩
      exact hne ⟨ho.1, ho.2⟩
    rw [queue_append, queue_append, queue_cons_of_neg hneg]
  links e he hne := by
    have hnot := not_mem_slots_queue hp.nodup he hne
    have hs : e.1 ≠ s := by
      rintro rfl
      exact hnot (mem_slots_of_mem (mem_queue.2 ⟨by simp, ho⟩))
    rw [queue_around ho] at h hnot
    rw [Pool.link_release hs, h.link_unlink hnot]

theorem limit_remove (l : Book.Level) (p : Pool) (s : Slot) :
    ((l.unlink p s).2.release s).2.limit = p.limit :=
  Pool.limit_release.trans (Book.Level.relinked_unlink l p s).limit

end Removing

namespace Book

variable {b : Book} {es : List Entry}

@[simp] theorem ladder_with (b : Book) (index : Std.TreeMap OrderId Slot) (pool : Pool)
    (s : Side) : ({ b with index, pool } : Book).ladder s = b.ladder s := by
  cases s <;> rfl

theorem holds_empty (limit : Nat) : ({ pool := { limit } } : Book).Holds [] where
  pool := Pool.holds_empty limit
  index id s := by simp
  distinct := List.nodup_nil
  positive := by simp
  ladder s := by
    cases s
    · exact Ladder.holds_empty _ _
    · exact Ladder.holds_empty _ _

/-- One level of one side has changed: the levels of both sides agree with the entries again. -/
theorem Holds.setLadder (h : b.Holds es) {side : Side} {rank : Int} {p : Pool} {es' : List Entry}
    (hf : Frame side rank b.pool p es es') {l : Ladder} (hl : l.Holds p side es') (side' : Side) :
    ((b.setLadder side l).ladder side').Holds p side' es' := by
  rw [ladder_setLadder]
  split
  · next heq => exact heq ▸ hl
  · next hne => exact (h.ladder side').frame hf (Ne.symm hne)

theorem Stocked.contains (h : b.Stocked es) (id : OrderId) :
    b.contains id ↔ ∃ e ∈ es, e.2.id = id := by
  rw [Book.contains, Std.TreeMap.contains_eq_isSome_getElem?, Option.isSome_iff_exists]
  simp only [h.index]
  constructor
  · rintro ⟨s, o, hm, rfl⟩
    exact ⟨(s, o), hm, rfl⟩
  · rintro ⟨e, hm, rfl⟩
    exact ⟨e.1, e.2, hm, rfl⟩

/-- The entry of an id is no other's. -/
theorem Stocked.eq_of_id (h : b.Stocked es) {e f : Entry} (he : e ∈ es) (hf : f ∈ es)
    (hid : e.2.id = f.2.id) : e = f :=
  List.inj_on_of_nodup_map h.distinct he hf hid

/-- An arrival is entered into the index. -/
theorem Stocked.add (h : b.Stocked es) {s : Slot} {o : Order} {p : Pool}
    (hp : p.Holds (es ++ [(s, o)])) (hid : ¬ b.contains o.id) :
    ({ b with index := b.index.insert o.id s, pool := p } : Book).Stocked (es ++ [(s, o)]) where
  pool := hp
  index id t := by
    rw [h.contains] at hid
    have hi := h.index id t
    rw [Std.TreeMap.getElem?_insert]
    simp only [List.mem_append, List.mem_singleton, Prod.mk.injEq, Std.LawfulEqCmp.compare_eq_iff_eq]
    split
    · next heq =>
      subst heq
      constructor
      · intro hs
        exact ⟨o, .inr ⟨(Option.some.inj hs).symm, rfl⟩, rfl⟩
      · rintro ⟨o', hm | ⟨rfl, -⟩, ho'⟩
        · exact absurd ⟨(t, o'), hm, ho'⟩ hid
        · rfl
    · next hne =>
      rw [hi]
      constructor
      · rintro ⟨o', hm, ho'⟩
        exact ⟨o', .inl hm, ho'⟩
      · rintro ⟨o', hm | ⟨-, rfl⟩, ho'⟩
        · exact ⟨o', hm, ho'⟩
        · exact absurd ho' hne
  distinct := by
    rw [h.contains] at hid
    rw [List.map_append, List.nodup_append]
    refine ⟨h.distinct, List.nodup_singleton _, ?_⟩
    intro x hx y hy hxy
    obtain ⟨e, he, rfl⟩ := List.mem_map.1 hx
    exact hid ⟨e, he, hxy.trans (List.mem_singleton.1 hy)⟩

variable {pre post : List Entry} {s : Slot} {o o' : Order}

/-- An entry is taken out of the index. -/
theorem Stocked.remove (h : b.Stocked (pre ++ (s, o) :: post)) {p : Pool}
    (hp : p.Holds (pre ++ post)) :
    ({ b with index := b.index.erase o.id, pool := p } : Book).Stocked (pre ++ post) where
  pool := hp
  index id t := by
    have hi := h.index id t
    have hne := ne_of_nodup_map h.distinct
    rw [Std.TreeMap.getElem?_erase]
    simp only [Std.LawfulEqCmp.compare_eq_iff_eq]
    split
    · next heq =>
      subst heq
      constructor
      · intro hs
        cases hs
      · rintro ⟨o', hm, ho'⟩
        exact absurd ho' (hne _ hm)
    · next hid =>
      rw [hi]
      constructor
      · rintro ⟨o', hm, ho'⟩
        refine ⟨o', ?_, ho'⟩
        rcases List.mem_append.1 hm with hm | hm
        · exact List.mem_append_left _ hm
        · rcases List.mem_cons.1 hm with heq | hm
          · obtain ⟨-, rfl⟩ := Prod.mk.inj heq
            exact absurd ho' hid
          · exact List.mem_append_right _ hm
      · rintro ⟨o', hm, ho'⟩
        refine ⟨o', ?_, ho'⟩
        rcases List.mem_append.1 hm with hm | hm
        · exact List.mem_append_left _ hm
        · exact List.mem_append_right _ (List.mem_cons_of_mem _ hm)
  distinct := h.distinct.sublist (List.Sublist.map _ (by simp))

/-- An entry keeps its id when its order is replaced. -/
theorem Stocked.replace (h : b.Stocked (pre ++ (s, o) :: post)) {p : Pool}
    (hp : p.Holds (pre ++ (s, o') :: post)) (hid : o'.id = o.id) :
    ({ b with pool := p } : Book).Stocked (pre ++ (s, o') :: post) where
  pool := hp
  index id t := by
    show b.index[id]? = some t ↔ _
    rw [h.index id t]
    simp only [List.mem_append, List.mem_cons, Prod.mk.injEq, or_and_right, exists_or, and_assoc,
      exists_and_left, exists_eq_left, hid]
  distinct := by
    have hd := h.distinct
    rw [List.map_append, List.map_cons] at hd ⊢
    rw [hid]
    exact hd

/-! ## The operations -/

/-- An order with something to trade and an id of its own rests if there is room. -/
theorem Holds.add? (h : b.Holds es) (hq : ¬ o.isFilled) (hid : ¬ b.contains o.id)
    (hf : ¬ b.isFull) :
    ∃ s b', b.add? o = some b' ∧ b'.Holds (es ++ [(s, o)]) ∧ b'.pool.limit = b.pool.limit := by
  obtain ⟨s, p, hacq, hp, hlinks, hlim⟩ := h.pool.acquire? hf o
  have hlink (t : Slot) : p.link t = b.pool.link t := by rw [Pool.link, hlinks, Pool.link]
  obtain ⟨hladder, hcand, hlevel, hprice⟩ :=
    (h.ladder o.side).entry o.price (show o.side.rank o.price = o.rank from rfl)
  generalize he : (b.ladder o.side).entry o.rank o.price = entry at hladder hcand hlevel hprice
  replace hlevel : entry.2.Holds p _ := hlevel.congr fun t _ => hlink t
  have hrel := Level.relinked_pushBack entry.2 p s
  have hframe : Frame o.side o.rank b.pool (entry.2.pushBack p s).2 es (es ++ [(s, o)]) :=
    (Frame.of_link hlink).trans (.add hlevel hp ⟨rfl, rfl⟩)
  have hput := hladder.put hframe (hlevel.add hp ⟨rfl, rfl⟩)
    ((congrArg o.side.rank rfl).trans hprice) hcand
  have hadd : b.add? o = some ({ b.setLadder o.side
      (entry.1.put o.rank (entry.2.pushBack p s).1) with
        index := b.index.insert o.id s, pool := (entry.2.pushBack p s).2 } : Book).compact := by
    rw [Book.add?, if_neg (by simp [hq, hid]), hacq, Option.map_some, he]
  refine ⟨s, _, hadd, ⟨?_, ?_, fun side => ?_⟩, ?_⟩
  · have hst := h.toStocked.add (hp.relinked hrel) hid
    exact ⟨hst.pool, hst.index, hst.distinct⟩
  · intro e hm
    rcases List.mem_append.1 hm with hm | hm
    · exact h.positive e hm
    · rw [List.mem_singleton.1 hm]
      simpa [Order.isFilled] using hq
  · rw [ladder_compact, ladder_with]
    exact (h.setLadder hframe hput side).compact
  · exact hrel.limit.trans hlim

/-- An order that rests can be removed, and the others stay. -/
theorem Holds.cancel? (h : b.Holds (pre ++ (s, o) :: post)) :
    ∃ b', b.cancel? o.id = some b' ∧ b'.Holds (pre ++ post) ∧ b'.pool.limit = b.pool.limit := by
  have hself : (s, o) ∈ pre ++ (s, o) :: post := by simp
  have hindex : b.index[o.id]? = some s := (h.index o.id s).2 ⟨o, hself, rfl⟩
  have horder : b.pool.order? s = some o := (h.pool.orders s o).2 hself
  obtain ⟨level, hl⟩ := Option.isSome_iff_exists.1
    (Std.TreeMap.mem_iff_isSome_getElem?.1 ((h.ladder o.side).mem_levels hself rfl))
  obtain ⟨hlevel, hprice⟩ := (h.ladder o.side).level _ _ hl
  have hframe := Frame.remove hlevel h.pool ⟨rfl, rfl⟩
  have hput := (h.ladder o.side).put hframe (hlevel.remove h.pool ⟨rfl, rfl⟩) hprice
    ((h.ladder o.side).candidate _ ((h.ladder o.side).mem_levels hself rfl))
  have hcancel : b.cancel? o.id = some { b.setLadder o.side
      ((b.ladder o.side).put o.rank (level.unlink b.pool s).1) with
        index := b.index.erase o.id, pool := ((level.unlink b.pool s).2.release s).2 } := by
    simp [Book.cancel?, hindex, horder, Book.unqueue, hl]
  refine ⟨_, hcancel, ⟨?_, ?_, fun side => ?_⟩, ?_⟩
  · have hst := h.toStocked.remove (h.pool.remove level)
    exact ⟨hst.pool, hst.index, hst.distinct⟩
  · intro e hm
    refine h.positive e ?_
    rcases List.mem_append.1 hm with hm | hm <;> simp [hm]
  · rw [ladder_with]
    exact h.setLadder hframe hput side
  · exact limit_remove level b.pool s

end Book

end Bourse
