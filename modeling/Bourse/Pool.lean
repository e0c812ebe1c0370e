import Bourse.Order
import Std.Data.TreeMap

/-!
# Slots for resting orders

A `Pool` hands out numbered slots, each holding one order together with the slots before and
behind it in the queue that it waits in. A released slot goes on a free list and is the next one
handed out, so a pool never grows beyond the largest number of orders that were held at once;
`limit` caps that number.
-/

namespace Bourse

/-- Number of a place in a pool. -/
abbrev Slot := Nat

/-- The neighbours of a slot in its queue. -/
structure Link where
  prev : Option Slot := none
  next : Option Slot := none
deriving DecidableEq, Repr, Inhabited

/-- Most slots that any pool can number. -/
def Pool.maxSlots : Nat := 4294967295

/-- Orders in numbered slots, with the slots that are waiting to be used again. -/
structure Pool where
  /-- The orders, by slot. -/
  orders : Std.TreeMap Slot Order := ∅
  /-- The neighbours, by slot. A slot that is not listed has none. -/
  links : Std.TreeMap Slot Link := ∅
  /-- Number of slots that were ever handed out: those below it. -/
  allocated : Nat := 0
  /-- Released slots, the latest first. -/
  free : List Slot := []
  /-- Most slots that may ever be allocated. -/
  limit : Nat := Pool.maxSlots

namespace Pool

instance : Inhabited Pool := ⟨{}⟩

/-- An empty pool of at most `limit` slots. -/
def bounded (limit : Nat) : Pool :=
  { limit := min limit maxSlots }

/-- Number of slots that hold an order. -/
def live (p : Pool) : Nat :=
  p.allocated - p.free.length

/-- No further slot can be handed out. -/
def isFull (p : Pool) : Bool :=
  p.free.isEmpty && p.limit ≤ p.allocated

/-- The order in a slot, if there is one. -/
def order? (p : Pool) (s : Slot) : Option Order :=
  p.orders[s]?

/-- The neighbours of a slot. -/
def link (p : Pool) (s : Slot) : Link :=
  p.links.getD s {}

/-- Stores an order in the slot released last, or else in a new one; `none` if the pool is
full. -/
def acquire? (p : Pool) (o : Order) : Option (Slot × Pool) :=
  match p.free with
  | s :: free => some (s, { p with orders := p.orders.insert s o, free })
  | [] =>
    if p.limit ≤ p.allocated then none
    else
      some (p.allocated,
        { p with orders := p.orders.insert p.allocated o, allocated := p.allocated + 1 })

/-- Replaces the order in an occupied slot. -/
def modify (p : Pool) (s : Slot) (f : Order → Order) : Pool :=
  { p with orders := p.orders.modify s f }

/-- Gives a slot its neighbours. -/
def setLink (p : Pool) (s : Slot) (l : Link) : Pool :=
  { p with links := p.links.insert s l }

/-- Sets what comes behind a slot; nothing to do if there is no slot. -/
def setNext (p : Pool) (s : Option Slot) (next : Option Slot) : Pool :=
  s.elim p fun s => p.setLink s { p.link s with next }

/-- Sets what comes before a slot; nothing to do if there is no slot. -/
def setPrev (p : Pool) (s : Option Slot) (prev : Option Slot) : Pool :=
  s.elim p fun s => p.setLink s { p.link s with prev }

/-- The slots from one on, following the queue to its end. A queue has no more slots than were
handed out. -/
def queueFrom (p : Pool) : Nat → Option Slot → List Slot
  | 0, _ => []
  | _ + 1, none => []
  | fuel + 1, some s => s :: p.queueFrom fuel (p.link s).next

/-- Empties a slot for later use and returns what it held. Nothing changes for a slot that is
already empty. -/
def release (p : Pool) (s : Slot) : Option Order × Pool :=
  match p.order? s with
  | none => (none, p)
  | some o =>
    (some o, { p with
      orders := p.orders.erase s, links := p.links.erase s, free := s :: p.free })

/-- Whether a slot was released and not handed out again, with nothing left in it. -/
def isVacant (p : Pool) (s : Slot) : Bool :=
  p.free.contains s && p.link s = {} && (p.order? s).isNone

/-! ## What the operations do to links and orders -/

@[simp] theorem link_setLink (p : Pool) (s t : Slot) (l : Link) :
    (p.setLink s l).link t = if s = t then l else p.link t := by
  simp [link, setLink, Std.TreeMap.getD_insert]

@[simp] theorem link_setNext (p : Pool) (s next : Option Slot) (t : Slot) :
    (p.setNext s next).link t = if s = some t then { p.link t with next } else p.link t := by
  cases s with
  | none => simp [setNext]
  | some s =>
    simp only [setNext, Option.elim_some, link_setLink, Option.some.injEq]
    split
    · next h => rw [h]
    · rfl

@[simp] theorem link_setPrev (p : Pool) (s prev : Option Slot) (t : Slot) :
    (p.setPrev s prev).link t = if s = some t then { p.link t with prev } else p.link t := by
  cases s with
  | none => simp [setPrev]
  | some s =>
    simp only [setPrev, Option.elim_some, link_setLink, Option.some.injEq]
    split
    · next h => rw [h]
    · rfl

@[simp] theorem link_modify (p : Pool) (s t : Slot) (f : Order → Order) :
    (p.modify s f).link t = p.link t := rfl

/-- Releasing an occupied slot leaves fewer orders. -/
theorem size_orders_release_lt {p q : Pool} {s : Slot} {o : Order} {f : Order → Order}
    (h : p.order? s = some o) (hq : q.orders = p.orders.modify s f) :
    (q.release s).2.orders.size < p.orders.size := by
  have hmem : s ∈ p.orders := Std.TreeMap.mem_iff_isSome_getElem?.2 (Option.isSome_of_eq_some h)
  have hpos : p.orders.size ≠ 0 := fun h0 =>
    Std.TreeMap.not_mem_of_isEmpty (by simp [Std.TreeMap.isEmpty_eq_size_eq_zero, h0]) hmem
  have hqs : q.order? s = some (f o) := by
    rw [order?, hq, Std.TreeMap.getElem?_modify_self]
    exact congrArg (Option.map f) h
  rw [release, hqs]
  show (q.orders.erase s).size < p.orders.size
  rw [hq, Std.TreeMap.size_erase, Std.TreeMap.contains_modify,
    if_pos (Std.TreeMap.contains_iff_mem.2 hmem), Std.TreeMap.size_modify]
  omega

/-- Only the neighbours differ: everything else about two pools is the same. -/
structure Relinked (p q : Pool) : Prop where
  orders : q.orders = p.orders
  allocated : q.allocated = p.allocated
  free : q.free = p.free
  limit : q.limit = p.limit

theorem Relinked.refl (p : Pool) : Relinked p p :=
  ⟨rfl, rfl, rfl, rfl⟩

theorem Relinked.trans {p q r : Pool} (h : Relinked p q) (h' : Relinked q r) : Relinked p r :=
  ⟨h'.orders.trans h.orders, h'.allocated.trans h.allocated, h'.free.trans h.free,
    h'.limit.trans h.limit⟩

theorem relinked_setLink (p : Pool) (s : Slot) (l : Link) : Relinked p (p.setLink s l) :=
  ⟨rfl, rfl, rfl, rfl⟩

theorem relinked_setNext (p : Pool) (s next : Option Slot) : Relinked p (p.setNext s next) := by
  cases s with
  | none => exact .refl p
  | some s => exact relinked_setLink p s _

theorem relinked_setPrev (p : Pool) (s prev : Option Slot) : Relinked p (p.setPrev s prev) := by
  cases s with
  | none => exact .refl p
  | some s => exact relinked_setLink p s _

end Pool

end Bourse
