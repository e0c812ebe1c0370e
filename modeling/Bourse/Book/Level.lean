import Bourse.Book.Heap
import Bourse.Pool

/-!
# Levels

Orders that rest on one side at one price form a `Level`, served in order of arrival. A level
knows the first and the last slot of its queue; the slots themselves know their neighbours, so
an order leaves from anywhere in the queue without a search.

The levels of a side form a `Ladder`, by `Side.rank`. Its best level is found through
candidates: every level is among them, and a rank whose level is gone stays until it comes out
on top, or until there are so many of them that the candidates are listed anew.
-/

namespace Bourse.Book

/-- The orders that rest on one side at one price. -/
structure Level where
  price : Price
  /-- Slot of the earliest arrival. -/
  head : Option Slot := none
  /-- Slot of the latest arrival. -/
  tail : Option Slot := none
  /-- Number of orders in the queue. -/
  orders : Nat := 0
  /-- Sum of the remaining quantities. It wraps around when no quantity is so large. -/
  total : Qty := 0
deriving Inhabited

namespace Level

/-- No order is left. -/
def isEmpty (l : Level) : Bool :=
  l.orders = 0

/-- Queues an occupied slot behind the others. -/
def pushBack (l : Level) (p : Pool) (s : Slot) : Level × Pool :=
  let qty := (p.order? s).elim 0 (·.qty)
  ({ l with
      head := if l.tail.isNone then some s else l.head
      tail := some s
      orders := l.orders + 1
      total := l.total + qty },
    (p.setLink s { prev := l.tail }).setNext l.tail (some s))

/-- Takes a slot out of the queue, wherever it stands. It keeps its order. -/
def unlink (l : Level) (p : Pool) (s : Slot) : Level × Pool :=
  let { prev, next } := p.link s
  let qty := (p.order? s).elim 0 (·.qty)
  ({ l with
      head := if prev.isNone then next else l.head
      tail := if next.isNone then prev else l.tail
      orders := l.orders - 1
      total := l.total - qty },
    ((p.setNext prev next).setPrev next prev).setLink s {})

theorem relinked_pushBack (l : Level) (p : Pool) (s : Slot) : p.Relinked (l.pushBack p s).2 :=
  (Pool.relinked_setLink p s _).trans (Pool.relinked_setNext _ _ _)

theorem relinked_unlink (l : Level) (p : Pool) (s : Slot) : p.Relinked (l.unlink p s).2 :=
  ((Pool.relinked_setNext p _ _).trans (Pool.relinked_setPrev _ _ _)).trans
    (Pool.relinked_setLink _ _ _)

end Level

/-- The levels of one side. -/
structure Ladder where
  /-- The levels by rank, the best one first. -/
  levels : Std.TreeMap Int Level := ∅
  candidates : Candidates := .empty

namespace Ladder

instance : Inhabited Ladder := ⟨{}⟩

/-- The best level with its rank. Candidates without a level are dropped on the way. -/
def search (l : Ladder) : Ladder × Option (Int × Level) :=
  match _h : l.candidates.top? with
  | none => (l, none)
  | some rank =>
    match l.levels[rank]?.filter (!·.isEmpty) with
    | some level => (l, some (rank, level))
    | none => search { l with candidates := l.candidates.pop }
termination_by l.candidates.count
decreasing_by exact Candidates.count_pop_lt (by assumption)

/-- The level at a rank. If there is none, an empty one is a new candidate. -/
def entry (l : Ladder) (rank : Int) (price : Price) : Ladder × Level :=
  match l.levels[rank]? with
  | some level => (l, level)
  | none => ({ l with candidates := l.candidates.push rank }, { price })

/-- Puts a level in its place. One without orders is not kept. -/
def put (l : Ladder) (rank : Int) (level : Level) : Ladder :=
  { l with
    levels := if level.isEmpty then l.levels.erase rank else l.levels.insert rank level }

/-- How many candidates there may be for each level, and how many on top of that. -/
def staleFactor : Nat := 4

@[inherit_doc staleFactor]
def staleFloor : Nat := 1024

/-- Lists the candidates anew if there are too many. -/
def compact (l : Ladder) : Ladder :=
  if l.levels.size * staleFactor + staleFloor < l.candidates.count then
    { l with candidates := .ofList l.levels.keys }
  else l

/-- Emptying a level shortens the ladder. -/
theorem size_put_lt {l : Ladder} {rank : Int} {level : Level} (hm : rank ∈ l.levels)
    (he : level.isEmpty) : (l.put rank level).levels.size < l.levels.size := by
  have hpos : l.levels.size ≠ 0 := fun h0 =>
    Std.TreeMap.not_mem_of_isEmpty (by simp [Std.TreeMap.isEmpty_eq_size_eq_zero, h0]) hm
  rw [put, if_pos he, Std.TreeMap.size_erase, if_pos (Std.TreeMap.contains_iff_mem.2 hm)]
  omega

theorem getElem?_put (l : Ladder) (rank r : Int) (level : Level) :
    (l.put rank level).levels[r]? =
      if rank = r then (if level.isEmpty then none else some level) else l.levels[r]? := by
  unfold put
  split
  · simp [Std.TreeMap.getElem?_erase]
  · simp [Std.TreeMap.getElem?_insert]

@[simp] theorem levels_compact (l : Ladder) : l.compact.levels = l.levels := by
  unfold compact
  split <;> rfl

/-- A search changes candidates only. -/
@[simp] theorem levels_search (l : Ladder) : l.search.1.levels = l.levels := by
  fun_induction search l with
  | case1 => rfl
  | case2 => rfl
  | case3 l rank _ _ ih => exact ih

/-- A search answers with a level of the ladder. -/
theorem getElem?_of_search {l : Ladder} {rank : Int} {level : Level}
    (h : l.search.2 = some (rank, level)) : l.levels[rank]? = some level ∧ !level.isEmpty := by
  fun_induction search l with
  | case1 => cases h
  | case2 l top _ found hf =>
    obtain ⟨rfl, rfl⟩ := Prod.mk.inj (Option.some.inj h)
    exact Option.filter_eq_some_iff.1 hf
  | case3 l top _ _ ih => exact ih h

end Ladder

end Bourse.Book
