/-!
# Heaps

A `Heap` is a tree of ranks from which the least one can be taken. It does not say at once
whether a rank is in it, and a rank may be in it several times. Two heaps are merged along their
right spines, whose sides are swapped on the way so that no spine stays long.
-/

namespace Bourse.Book

/-- A tree of ranks. -/
inductive Heap where
  | nil
  | node (top : Int) (left right : Heap)
deriving Inhabited

namespace Heap

/-- Number of ranks. -/
def size : Heap → Nat
  | nil => 0
  | node _ left right => left.size + right.size + 1

/-- All ranks, in no particular order. -/
def toList : Heap → List Int
  | nil => []
  | node top left right => top :: (left.toList ++ right.toList)

/-- No rank stands above a smaller one. -/
def Ordered : Heap → Prop
  | nil => True
  | node top left right =>
    (∀ r ∈ left.toList ++ right.toList, top ≤ r) ∧ left.Ordered ∧ right.Ordered

/-- Everything from two heaps in one. -/
def merge : Heap → Heap → Heap
  | nil, h => h
  | h, nil => h
  | node a l r, node b l' r' =>
    if a ≤ b then node a (merge r (node b l' r')) l else node b (merge r' (node a l r)) l'
termination_by h h' => h.size + h'.size
decreasing_by all_goals simp only [size]; omega

/-- The least rank. -/
def top? : Heap → Option Int
  | nil => none
  | node top _ _ => some top

/-- Adds a rank. -/
def push (h : Heap) (rank : Int) : Heap :=
  merge (node rank nil nil) h

/-- Takes the least rank out. -/
def pop : Heap → Heap
  | nil => nil
  | node _ left right => merge left right

theorem length_toList (h : Heap) : h.toList.length = h.size := by
  induction h with
  | nil => rfl
  | node top left right ihl ihr => simp [toList, size, ihl, ihr]

theorem toList_merge (h h' : Heap) : (merge h h').toList.Perm (h.toList ++ h'.toList) := by
  fun_induction merge h h' with
  | case1 h' => simp [toList]
  | case2 h => simp [toList]
  | case3 a l r b l' r' hle ih =>
    rw [List.perm_iff_count] at ih ⊢
    intro x
    have := ih x
    simp only [toList, List.count_append, List.count_cons] at this ⊢
    omega
  | case4 a l r b l' r' hlt ih =>
    rw [List.perm_iff_count] at ih ⊢
    intro x
    have := ih x
    simp only [toList, List.count_append, List.count_cons] at this ⊢
    omega

/-- Merging keeps the order: what comes out on top was on top, and is the smaller one. -/
theorem Ordered.merge {h h' : Heap} (ho : h.Ordered) (ho' : h'.Ordered) :
    (merge h h').Ordered := by
  fun_induction Heap.merge h h' with
  | case1 h' => exact ho'
  | case2 h => exact ho
  | case3 a l r b l' r' hle ih =>
    refine ⟨?_, ih ho.2.2 ho', ho.2.1⟩
    intro x hx
    simp only [List.mem_append, (toList_merge r _).mem_iff, toList, List.mem_cons] at hx
    have ha := ho.1 x
    have hb := ho'.1 x
    simp only [List.mem_append] at ha hb
    rcases hx with (hx | rfl | hx) | hx
    · exact ha (.inr hx)
    · exact hle
    · exact Int.le_trans hle (hb hx)
    · exact ha (.inl hx)
  | case4 a l r b l' r' hlt ih =>
    refine ⟨?_, ih ho'.2.2 ho, ho'.2.1⟩
    intro x hx
    simp only [List.mem_append, (toList_merge r' _).mem_iff, toList, List.mem_cons] at hx
    have ha := ho.1 x
    have hb := ho'.1 x
    simp only [List.mem_append] at ha hb
    rcases hx with (hx | rfl | hx) | hx
    · exact hb (.inr hx)
    · omega
    · exact Int.le_trans (by omega) (ha hx)
    · exact hb (.inl hx)

theorem toList_push (h : Heap) (rank : Int) : (h.push rank).toList.Perm (rank :: h.toList) := by
  simpa [push, toList] using toList_merge (node rank nil nil) h

theorem toList_of_top? {h : Heap} {rank : Int} (ht : h.top? = some rank) :
    h.toList.Perm (rank :: h.pop.toList) := by
  cases h with
  | nil => cases ht
  | node top left right =>
    obtain rfl : top = rank := Option.some.inj ht
    exact ((toList_merge left right).symm.cons top)

theorem Ordered.push {h : Heap} (ho : h.Ordered) (rank : Int) : (h.push rank).Ordered := by
  refine Ordered.merge ?_ ho
  simp [Ordered, toList]

theorem Ordered.pop {h : Heap} (ho : h.Ordered) : h.pop.Ordered := by
  cases h with
  | nil => exact ho
  | node top left right => exact ho.2.1.merge ho.2.2

theorem Ordered.top_le {h : Heap} (ho : h.Ordered) {rank : Int} (ht : h.top? = some rank) :
    ∀ r ∈ h.toList, rank ≤ r := by
  cases h with
  | nil => cases ht
  | node top left right =>
    obtain rfl : top = rank := Option.some.inj ht
    intro r hr
    rcases List.mem_cons.1 hr with rfl | hr
    · exact Int.le_refl r
    · exact ho.1 r hr

theorem size_pop (h : Heap) : h.pop.size = h.size - 1 := by
  cases h with
  | nil => rfl
  | node top left right =>
    show (merge left right).size = left.size + right.size
    rw [← length_toList, (toList_merge left right).length_eq]
    simp [length_toList]

end Heap

/-- The ranks at which the best level may be, with their number. Some may be there in vain. -/
structure Candidates where
  heap : Heap
  count : Nat
  size_heap : heap.size = count
  ordered : heap.Ordered

namespace Candidates

/-- There are none. -/
def empty : Candidates where
  heap := .nil
  count := 0
  size_heap := rfl
  ordered := True.intro

instance : Inhabited Candidates := ⟨empty⟩

instance : Membership Int Candidates :=
  ⟨fun c rank => rank ∈ c.heap.toList⟩

/-- The best candidate. -/
def top? (c : Candidates) : Option Int :=
  c.heap.top?

/-- Adds a candidate. -/
def push (c : Candidates) (rank : Int) : Candidates where
  heap := c.heap.push rank
  count := c.count + 1
  size_heap := by
    rw [← c.size_heap, ← Heap.length_toList, (Heap.toList_push c.heap rank).length_eq,
      List.length_cons, Heap.length_toList]
  ordered := c.ordered.push rank

/-- Drops the best candidate. -/
def pop (c : Candidates) : Candidates where
  heap := c.heap.pop
  count := c.count - 1
  size_heap := by rw [Heap.size_pop, c.size_heap]
  ordered := c.ordered.pop

/-- The candidates are just the given ones. -/
def ofList (ranks : List Int) : Candidates :=
  ranks.foldl push empty

@[simp] theorem not_mem_empty (r : Int) : ¬ r ∈ empty :=
  List.not_mem_nil

@[simp] theorem mem_push {c : Candidates} {rank r : Int} :
    r ∈ c.push rank ↔ r = rank ∨ r ∈ c := by
  show r ∈ (c.heap.push rank).toList ↔ r = rank ∨ r ∈ c.heap.toList
  rw [(Heap.toList_push c.heap rank).mem_iff, List.mem_cons]

@[simp] theorem mem_ofList {ranks : List Int} {r : Int} : r ∈ ofList ranks ↔ r ∈ ranks := by
  suffices ∀ c : Candidates, r ∈ ranks.foldl push c ↔ r ∈ ranks ∨ r ∈ c by
    simp [ofList, this]
  induction ranks with
  | nil => simp
  | cons rank ranks ih =>
    intro c
    rw [List.foldl_cons, ih, mem_push, List.mem_cons, or_left_comm, or_assoc]

theorem not_mem_of_top?_eq_none {c : Candidates} (h : c.top? = none) (r : Int) : ¬ r ∈ c := by
  show ¬ r ∈ c.heap.toList
  unfold top? at h
  cases hh : c.heap with
  | nil => exact List.not_mem_nil
  | node top left right => simp [hh, Heap.top?] at h

/-- Behind the best candidate are the others. -/
theorem mem_iff_of_top? {c : Candidates} {rank : Int} (h : c.top? = some rank) (r : Int) :
    r ∈ c ↔ r = rank ∨ r ∈ c.pop := by
  show r ∈ c.heap.toList ↔ r = rank ∨ r ∈ c.heap.pop.toList
  rw [(Heap.toList_of_top? h).mem_iff, List.mem_cons]

theorem top_le {c : Candidates} {rank : Int} (h : c.top? = some rank) : ∀ r ∈ c, rank ≤ r :=
  c.ordered.top_le h

theorem count_pop_lt {c : Candidates} {rank : Int} (h : c.top? = some rank) :
    c.pop.count < c.count := by
  have hlen := (Heap.toList_of_top? h).length_eq
  rw [List.length_cons, Heap.length_toList, c.size_heap] at hlen
  show c.count - 1 < c.count
  omega

end Candidates

end Bourse.Book
