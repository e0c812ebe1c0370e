import Bourse.Book.Quote

/-!
# Linked queues

The queue of a level is spread over a pool: the level knows its two ends and each slot knows its
neighbours. `Pool.Linked` says that the links of some slots spell out a given list, and
`Level.Holds` that a level's ends, count and total are those of a list of orders. Adding at the
end and taking out from anywhere do to that list what they should, and touch no link outside.
-/

namespace Bourse

/-- A resting order with its slot. -/
abbrev Entry := Slot × Order

/-- The slots of a list of entries. -/
def slots (q : List Entry) : List Slot :=
  q.map Prod.fst

@[simp] theorem slots_nil : slots [] = [] := rfl

@[simp] theorem slots_cons (e : Entry) (q : List Entry) : slots (e :: q) = e.1 :: slots q := rfl

@[simp] theorem slots_append (q r : List Entry) : slots (q ++ r) = slots q ++ slots r :=
  List.map_append

/-- The orders of a list of entries. -/
def orders (q : List Entry) : List Order :=
  q.map Prod.snd

@[simp] theorem orders_nil : orders [] = [] := rfl

@[simp] theorem orders_cons (e : Entry) (q : List Entry) : orders (e :: q) = e.2 :: orders q := rfl

@[simp] theorem orders_append (q r : List Entry) : orders (q ++ r) = orders q ++ orders r :=
  List.map_append

@[simp] theorem length_orders (q : List Entry) : (orders q).length = q.length :=
  List.length_map _

namespace Pool

/-- The slots of a list are neighbours in its order; `before` and `after` stand around it. -/
def Linked (p : Pool) : Option Slot → List Slot → Option Slot → Prop
  | _, [], _ => True
  | before, s :: rest, after =>
    p.link s = { prev := before, next := rest.head?.or after } ∧ p.Linked (some s) rest after

variable {p q : Pool} {before after : Option Slot} {l r : List Slot}

theorem linked_append : p.Linked before (l ++ r) after ↔
    p.Linked before l (r.head?.or after) ∧ p.Linked (l.getLast?.or before) r after := by
  induction l generalizing before with
  | nil => simp [Linked]
  | cons s l ih =>
    have hlast : (s :: l).getLast?.or before = l.getLast?.or (some s) := by
      cases l with
      | nil => rfl
      | cons t l => simp [List.getLast?_cons]
    have hhead : (l ++ r).head?.or after = l.head?.or (r.head?.or after) := by
      rw [List.head?_append, Option.or_assoc]
    rw [List.cons_append, Linked, Linked, ih, hlast, hhead, and_assoc]

/-- Only the links of the listed slots matter. -/
theorem Linked.congr (h : p.Linked before l after) (hl : ∀ s ∈ l, q.link s = p.link s) :
    q.Linked before l after := by
  induction l generalizing before with
  | nil => trivial
  | cons s l ih =>
    refine ⟨?_, ih h.2 fun t ht => hl t (List.mem_cons_of_mem s ht)⟩
    rw [hl s List.mem_cons_self]
    exact h.1

/-- What comes behind the list is recorded with its last slot. -/
theorem Linked.setNext (h : p.Linked before l after) (hl : l.Nodup) (next : Option Slot) :
    (p.setNext l.getLast? next).Linked before l next := by
  rcases List.eq_nil_or_concat l with rfl | ⟨init, s, rfl⟩
  · trivial
  · rw [List.concat_eq_append] at h hl ⊢
    have hs : s ∉ init := fun hs => (List.nodup_append.1 hl).2.2 s hs s (by simp) rfl
    rw [linked_append] at h ⊢
    refine ⟨h.1.congr fun t ht => ?_, ?_, trivial⟩
    · rw [link_setNext, if_neg]
      rintro heq
      rw [List.getLast?_concat, Option.some.injEq] at heq
      exact hs (heq ▸ ht)
    · rw [link_setNext, if_pos List.getLast?_concat, h.2.1]
      rfl

/-- What comes before the list is recorded with its first slot. -/
theorem Linked.setPrev (h : p.Linked before l after) (hl : l.Nodup) (prev : Option Slot) :
    (p.setPrev l.head? prev).Linked prev l after := by
  cases l with
  | nil => trivial
  | cons s l =>
    refine ⟨?_, h.2.congr fun t ht => ?_⟩
    · rw [link_setPrev, if_pos List.head?_cons, h.1]
    · rw [link_setPrev, if_neg]
      rintro heq
      rw [List.head?_cons, Option.some.injEq] at heq
      exact (List.nodup_cons.1 hl).1 (heq ▸ ht)

/-- Setting a link changes nothing for slots elsewhere. -/
theorem link_setNext_of_not_mem {s : Slot} (hs : s ∉ l) (next : Option Slot) :
    (p.setNext l.getLast? next).link s = p.link s := by
  rw [link_setNext, if_neg]
  exact fun heq => hs (List.mem_of_getLast? heq)

@[inherit_doc link_setNext_of_not_mem]
theorem link_setPrev_of_not_mem {s : Slot} (hs : s ∉ l) (prev : Option Slot) :
    (p.setPrev l.head? prev).link s = p.link s := by
  rw [link_setPrev, if_neg]
  exact fun heq => hs (List.mem_of_head? heq)

/-- A new last slot. -/
theorem Linked.pushBack (h : p.Linked none l none) {s : Slot} (hl : (l ++ [s]).Nodup) :
    ((p.setLink s { prev := l.getLast? }).setNext l.getLast? (some s)).Linked
      none (l ++ [s]) none := by
  have hs : s ∉ l := fun hs => (List.nodup_append.1 hl).2.2 s hs s (by simp) rfl
  have hset : (p.setLink s { prev := l.getLast? }).Linked none l none := by
    refine h.congr fun t ht => ?_
    rw [link_setLink, if_neg]
    rintro rfl
    exact hs ht
  refine linked_append.2 ⟨hset.setNext (List.nodup_append.1 hl).1 _, ?_, trivial⟩
  rw [link_setNext_of_not_mem hs, link_setLink, if_pos rfl, Option.or_none]
  rfl

/-- A slot leaves from between two lists, which then follow each other. -/
theorem Linked.unlink {s : Slot} (h : p.Linked none (l ++ s :: r) none)
    (hl : (l ++ s :: r).Nodup) :
    (((p.setNext l.getLast? r.head?).setPrev r.head? l.getLast?).setLink s {}).Linked
      none (l ++ r) none := by
  obtain ⟨hnl, hnr, hdisj⟩ := List.nodup_append.1 hl
  obtain ⟨hsr, hnr⟩ := List.nodup_cons.1 hnr
  obtain ⟨hleft, -, hright⟩ := linked_append.1 h
  refine linked_append.2 ⟨?_, ?_⟩
  · have hset := hleft.setNext hnl r.head?
    rw [Option.or_none]
    refine hset.congr fun t ht => ?_
    have htr : t ∉ r := fun htr => hdisj t ht t (List.mem_cons_of_mem s htr) rfl
    have hts : ¬ s = t := fun hts => hdisj t ht s List.mem_cons_self hts.symm
    rw [link_setLink, if_neg hts, link_setPrev_of_not_mem htr]
  · have hnext : (p.setNext l.getLast? r.head?).Linked (some s) r none := by
      refine hright.congr fun t ht => link_setNext_of_not_mem ?_ _
      exact fun htl => hdisj t htl t (List.mem_cons_of_mem s ht) rfl
    have hset := hnext.setPrev hnr l.getLast?
    rw [Option.or_none]
    refine hset.congr fun t ht => ?_
    have hts : ¬ s = t := by
      rintro rfl
      exact hsr ht
    rw [link_setLink, if_neg hts]

/-- Following the links reads the list, however much fuel there is beyond its length. -/
theorem Linked.queueFrom (h : p.Linked before l none) {fuel : Nat} (hf : l.length ≤ fuel) :
    p.queueFrom fuel l.head? = l := by
  induction l generalizing before fuel with
  | nil => cases fuel <;> rfl
  | cons s l ih =>
    obtain ⟨fuel, rfl⟩ : ∃ n, fuel = n + 1 := ⟨fuel - 1, by simp at hf; omega⟩
    have hnext : (p.link s).next = l.head? := by
      rw [h.1]
      exact Option.or_none
    rw [List.head?_cons, Pool.queueFrom, hnext, ih h.2 (by simpa using hf)]

end Pool

namespace Book.Level

/-- A level queues just the given orders in their slots, and has counted them. -/
structure Holds (l : Level) (p : Pool) (q : List Entry) : Prop where
  head : l.head = (slots q).head?
  tail : l.tail = (slots q).getLast?
  count : l.orders = q.length
  total : l.total = Int64.ofInt (Order.lots (Bourse.orders q))
  linked : p.Linked none (slots q) none

variable {l : Level} {p : Pool} {s : Slot} {o : Order} {q pre post : List Entry}

theorem Holds.isEmpty (h : l.Holds p q) : l.isEmpty ↔ q = [] := by
  simp [Level.isEmpty, h.count]

/-- A new level queues nothing. -/
theorem holds_new (p : Pool) (price : Price) : ({ price } : Level).Holds p [] :=
  ⟨rfl, rfl, rfl, rfl, trivial⟩

/-- A level only minds the links of its own slots. -/
theorem Holds.congr {p' : Pool} (h : l.Holds p q) (hl : ∀ s ∈ slots q, p'.link s = p.link s) :
    l.Holds p' q :=
  { h with linked := h.linked.congr hl }

/-- An arrival queues behind the others. -/
theorem Holds.pushBack (h : l.Holds p q) (hn : (slots (q ++ [(s, o)])).Nodup)
    (ho : p.order? s = some o) :
    (l.pushBack p s).1.Holds (l.pushBack p s).2 (q ++ [(s, o)]) where
  head := by
    show (if l.tail.isNone then some s else l.head) = _
    rw [h.tail, h.head]
    cases q <;> simp [List.getLast?_cons]
  tail := by simp [Level.pushBack]
  count := by simp [Level.pushBack, h.count]
  total := by
    show l.total + (p.order? s).elim 0 (·.qty) = _
    rw [h.total, ho, orders_append, Order.lots_append, Int64.ofInt_add]
    simp [Order.lots]
  linked := by
    show ((p.setLink s { prev := l.tail }).setNext l.tail (some s)).Linked none _ none
    rw [slots_append] at hn ⊢
    rw [h.tail]
    exact h.linked.pushBack hn

/-- Queueing an arrival leaves the links of other levels alone. -/
theorem Holds.link_pushBack (h : l.Holds p q) {t : Slot} (ht : t ∉ slots (q ++ [(s, o)])) :
    (l.pushBack p s).2.link t = p.link t := by
  simp only [slots_append, slots_cons, slots_nil, List.mem_append, List.mem_singleton,
    not_or] at ht
  show ((p.setLink s { prev := l.tail }).setNext l.tail (some s)).link t = _
  rw [h.tail, Pool.link_setNext_of_not_mem ht.1, Pool.link_setLink, if_neg (Ne.symm ht.2)]

/-- The neighbours of a queued slot. -/
theorem Holds.link (h : l.Holds p (pre ++ (s, o) :: post)) :
    p.link s = { prev := (slots pre).getLast?, next := (slots post).head? } := by
  have hl := h.linked
  rw [slots_append, Pool.linked_append] at hl
  have hs := hl.2.1
  rwa [Option.or_none, Option.or_none] at hs

/-- An order leaves from wherever it stands. -/
theorem Holds.unlink (h : l.Holds p (pre ++ (s, o) :: post))
    (hn : (slots (pre ++ (s, o) :: post)).Nodup) (ho : p.order? s = some o) :
    (l.unlink p s).1.Holds (l.unlink p s).2 (pre ++ post) where
  head := by
    show (if (p.link s).prev.isNone then (p.link s).next else l.head) = _
    rw [h.link, h.head]
    cases pre <;> simp [List.getLast?_cons]
  tail := by
    show (if (p.link s).next.isNone then (p.link s).prev else l.tail) = _
    rw [h.link, h.tail]
    cases post <;> simp [List.getLast?_cons, List.getLast?_append]
  count := by simp [Level.unlink, h.count]
  total := by
    show l.total - (p.order? s).elim 0 (·.qty) = _
    have hlots (a b : Int) : a + (o.qty.toInt + b) - o.qty.toInt = a + b := by
      omega
    rw [h.total, ho, Option.elim_some, ← Int64.ofInt_toInt o.qty, ← Int64.ofInt_sub]
    simp only [orders_append, orders_cons, Order.lots_append, Order.lots, hlots]
  linked := by
    show (((p.setNext (p.link s).prev (p.link s).next).setPrev (p.link s).next
      (p.link s).prev).setLink s {}).Linked none _ none
    have hl := h.linked
    rw [slots_append, slots_cons] at hl hn
    rw [h.link, slots_append]
    exact hl.unlink hn

/-- Taking an order out leaves the links of other levels alone. -/
theorem Holds.link_unlink (h : l.Holds p (pre ++ (s, o) :: post)) {t : Slot}
    (ht : t ∉ slots (pre ++ (s, o) :: post)) : (l.unlink p s).2.link t = p.link t := by
  simp only [slots_append, slots_cons, List.mem_append, List.mem_cons, not_or] at ht
  show (((p.setNext (p.link s).prev (p.link s).next).setPrev (p.link s).next
    (p.link s).prev).setLink s {}).link t = _
  rw [h.link, Pool.link_setLink, if_neg (Ne.symm ht.2.1), Pool.link_setPrev_of_not_mem ht.2.2,
    Pool.link_setNext_of_not_mem ht.1]

end Book.Level

end Bourse
