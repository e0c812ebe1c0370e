import Bourse.Book.Level

/-!
# Order books

A `Book` holds the resting orders of one symbol: the levels of both sides, an index that leads
from an order's id to its slot, and the pool that the slots belong to.

`Book.add?` rests an order and `Book.cancel?` removes one.
-/

namespace Bourse

/-- The resting orders of one symbol. -/
structure Book where
  bids : Book.Ladder := {}
  asks : Book.Ladder := {}
  /-- Slot of each resting order. -/
  index : Std.TreeMap OrderId Slot := ∅
  pool : Pool := {}

namespace Book

instance : Inhabited Book := ⟨{}⟩

/-- An empty book with room set aside for `capacity` orders. It can hold more. -/
def withCapacity (_capacity : Nat) : Book :=
  {}

/-- An empty book that holds at most `limit` orders. -/
def bounded (limit : Nat) : Book :=
  { pool := Pool.bounded limit }

/-- The levels of one side. -/
def ladder (b : Book) : Side → Ladder
  | .buy => b.bids
  | .sell => b.asks

/-- Replaces the levels of one side. -/
def setLadder (b : Book) (s : Side) (l : Ladder) : Book :=
  match s with
  | .buy => { b with bids := l }
  | .sell => { b with asks := l }

/-- Keeps the candidates of both sides few. -/
def compact (b : Book) : Book :=
  { b with bids := b.bids.compact, asks := b.asks.compact }

/-- Whether an order with this id rests in the book. -/
def contains (b : Book) (id : OrderId) : Bool :=
  b.index.contains id

/-- The resting order with this id. -/
def order? (b : Book) (id : OrderId) : Option Order :=
  b.index[id]?.bind b.pool.order?

/-- Number of resting orders. -/
def size (b : Book) : Nat :=
  b.index.size

/-- No order rests in the book. -/
def isEmpty (b : Book) : Bool :=
  b.index.isEmpty

/-- No further order can rest in the book. -/
def isFull (b : Book) : Bool :=
  b.pool.isFull

/-- Rests an order behind those of its price. Refused, with `none`, if it has nothing to trade,
if its id is already resting, or if the book is full. -/
def add? (b : Book) (o : Order) : Option Book :=
  if o.isFilled || b.contains o.id then none
  else
    (b.pool.acquire? o).map fun (slot, pool) =>
      let (ladder, level) := (b.ladder o.side).entry o.rank o.price
      let (level, pool) := level.pushBack pool slot
      { b.setLadder o.side (ladder.put o.rank level) with
        index := b.index.insert o.id slot, pool }.compact

/-- Takes the order in a slot out of the queue it waits in. -/
def unqueue (b : Book) (o : Order) (slot : Slot) : Book :=
  match (b.ladder o.side).levels[o.rank]? with
  | none => b
  | some level =>
    let (level, pool) := level.unlink b.pool slot
    { b.setLadder o.side ((b.ladder o.side).put o.rank level) with pool }

/-- Removes a resting order; `none` if there is none with this id. -/
def cancel? (b : Book) (id : OrderId) : Option Book := do
  let slot ← b.index[id]?
  let o ← b.pool.order? slot
  let b := b.unqueue o slot
  return { b with index := b.index.erase id, pool := (b.pool.release slot).2 }

/-! ## The two sides of a book -/

@[simp] theorem ladder_setLadder (b : Book) (s t : Side) (l : Ladder) :
    (b.setLadder s l).ladder t = if s = t then l else b.ladder t := by
  cases s <;> cases t <;> rfl

@[simp] theorem index_setLadder (b : Book) (s : Side) (l : Ladder) :
    (b.setLadder s l).index = b.index := by
  cases s <;> rfl

@[simp] theorem pool_setLadder (b : Book) (s : Side) (l : Ladder) :
    (b.setLadder s l).pool = b.pool := by
  cases s <;> rfl

@[simp] theorem ladder_compact (b : Book) (s : Side) :
    b.compact.ladder s = (b.ladder s).compact := by
  cases s <;> rfl

end Book

end Bourse
