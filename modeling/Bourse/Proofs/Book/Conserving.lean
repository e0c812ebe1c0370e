import Bourse.Proofs.Book.Executing
import Bourse.Proofs.Symbol.Journal

/-!
# Quantity is conserved

Every lot that was ever submitted is somewhere: it was got by its order as a taker, given by it as
a maker, came back with a cancellation, or still rests. `Book.ledger` follows one order from the
moment at which it rests through any later commands, until it leaves. An id may be used again
afterwards, so the ledger ends there.
-/

namespace Bourse

/-- The trades among some events. -/
def EventKind.trades (events : List EventKind) : List Trade :=
  events.filterMap fun
    | .traded t => some t
    | _ => none

/-- What became of the lots of an order that rested. -/
structure Ledger where
  /-- Lots in trades that name it as the taker. -/
  taken : Int := 0
  /-- Lots in trades that name it as the maker. -/
  given : Int := 0
  /-- Lots that it still had when it was cancelled. -/
  returned : Int := 0
  /-- Lots that it has now. -/
  resting : Int := 0
deriving DecidableEq, Repr

/-- All lots of a ledger. -/
def Ledger.total (a : Ledger) : Int :=
  a.taken + a.given + a.returned + a.resting

namespace Book

/-- The lots of the order that rests under an id. -/
def lotsOf (b : Book) (id : OrderId) : Int :=
  Order.lots (b.order? id).toList

/-- Follows the order that rests under an id through some commands, for as long as it rests. -/
def ledger (b : Book) (id : OrderId) : List Command → Ledger
  | [] => { resting := b.lotsOf id }
  | c :: cs =>
    if b.contains id then
      let trades := EventKind.trades (b.execute c).2
      let later := (b.execute c).1.ledger id cs
      { taken := Trade.taken id trades + later.taken
        given := Trade.given id trades + later.given
        returned := (if .cancelled id ∈ (b.execute c).2 then b.lotsOf id else 0) + later.returned
        resting := later.resting }
    else {}

/-- No lot is lost or made up by a command, nor by those that follow it. -/
structure Conserves (b : Book) (c : Command) (since : List Command) : Prop where
  /-- An order that is accepted gets its lots at once, or they are in its ledger from then on. -/
  submitted : ∀ o, c.action = .submit o → .accepted o.id o.user ∈ (b.execute c).2 →
    o.qty.toInt = Trade.taken o.id (EventKind.trades (b.execute c).2) +
      ((b.execute c).1.ledger o.id since).total
  /-- Every trade is one of an order that was just accepted, with one that rests at that moment. -/
  traded : ∀ past t next, EventKind.trades (b.execute c).2 = past ++ t :: next →
    ∃ o, c.action = .submit o ∧ .accepted o.id o.user ∈ (b.execute c).2 ∧ t.Fair b.order? o past
  /-- An order that leaves was cancelled, or has given all that it had. -/
  left : ∀ id o, b.order? id = some o → (b.execute c).1.order? id = none →
    .cancelled id ∈ (b.execute c).2 ∨
      o.qty.toInt - Trade.given id (EventKind.trades (b.execute c).2) = 0
  /-- An order that stays has what it has not given, and is the same one otherwise. -/
  stayed : ∀ id o o', b.order? id = some o → (b.execute c).1.order? id = some o' →
    o' = { o with qty := o'.qty } ∧
      o'.qty.toInt = o.qty.toInt - Trade.given id (EventKind.trades (b.execute c).2)

end Book

/-! ## Events and orders -/

/-- The events of an order that was accepted tell its trades. -/
theorem EventKind.trades_accepted {id : OrderId} {user : UserId} {ts : List Trade}
    {last : List EventKind} (h : last = [] ∨ last = [.added id user]) :
    trades (.accepted id user :: ts.map .traded ++ last) = ts := by
  have htraded : trades (ts.map .traded) = ts := by
    rw [trades, List.filterMap_map]
    exact List.filterMap_some
  rw [trades] at htraded
  rcases h with rfl | rfl
  · simp [trades, htraded]
  · simp [trades, htraded]

/-- They do not tell that an order was cancelled. -/
theorem EventKind.cancelled_not_mem_accepted {id id' : OrderId} {user : UserId} {ts : List Trade}
    {last : List EventKind} (h : last = [] ∨ last = [.added id user]) :
    .cancelled id' ∉ .accepted id user :: ts.map .traded ++ last := by
  rcases h with rfl | rfl
  · simp
  · simp

namespace Plain

variable {f : Plain} {o : Order} {id : OrderId} {c : Command}

/-- What is left of an order rests under its id, and the others rest as they did on its way. -/
theorem order?_settled (f : Plain) (o : Order) (id : OrderId) :
    (f.settled o).order? id = ((f.trade o).book.order? id).or
      (if (f.trade o).taker.qty ≤ 0 then none
        else if (f.trade o).taker.id = id then some (f.trade o).taker else none) := by
  rw [settled]
  by_cases hq : (f.trade o).taker.qty ≤ 0
  · rw [if_pos hq, if_pos hq, Option.or_none]
  · rw [if_neg hq, if_neg hq, order?, List.find?_append, order?]
    by_cases hid : (f.trade o).taker.id = id
    · simp [hid]
    · simp [hid]

/-- A cancelled order is gone, and no other one. -/
theorem order?_filter (f : Plain) (target id : OrderId) :
    ({ f with resting := f.resting.filter (·.id ≠ target) } : Plain).order? id =
      if id = target then none else f.order? id := by
  by_cases htarget : id = target
  · rw [if_pos htarget, order?, List.find?_eq_none]
    intro o ho
    rw [htarget]
    simpa using (List.mem_filter.1 ho).2
  · rw [if_neg htarget, order?, order?, List.find?_filter]
    congr 1
    funext o
    by_cases ho : o.id = id
    · simp [ho, htarget]
    · simp [ho]

/-- An accepted order has got what no longer rests of it. -/
theorem Tidy.qty_settled (h : f.Tidy) (hq : 0 < o.qty) (hid : f.contains o.id = false) :
    o.qty.toInt = Trade.taken o.id (f.trade o).trades +
      Order.lots ((f.settled o).order? o.id).toList := by
  obtain ⟨hpasses, -⟩ := h.passes_trade o
  have hsame : (f.trade o).taker.id = o.id := by rw [hpasses.taker]
  rw [Trade.taken_eq_lots fun t ht => hpasses.taker_of_mem ht, order?_settled,
    order?_eq_none (hpasses.contains hid), Option.none_or,
    if_pos hsame, hpasses.taken]
  congr 1
  by_cases hfilled : (f.trade o).taker.qty ≤ 0
  · have hzero := Int64.le_antisymm hfilled (hpasses.nonneg (Int64.le_of_lt hq))
    rw [if_pos hfilled, hzero]
    rfl
  · rw [if_neg hfilled]
    simp [Order.lots]

/-- Another order has given what no longer rests of it. -/
theorem Tidy.given_settled (h : f.Tidy) (hid : id ≠ o.id) :
    Order.lots (f.order? id).toList = Trade.given id (f.trade o).trades +
      Order.lots ((f.settled o).order? id).toList := by
  obtain ⟨hpasses, -⟩ := h.passes_trade o
  have hother : (f.trade o).taker.id ≠ id := by
    rw [hpasses.taker]
    exact hid.symm
  rw [hpasses.given id, order?_settled, if_neg hother]
  simp

/-! ## One command -/

/-- What an order has when a command begins it gives to takers, gets back or keeps. -/
theorem Tidy.lots_execute (h : f.Tidy) (c : Command) (hid : f.contains id) :
    Order.lots (f.order? id).toList = Trade.given id (EventKind.trades (f.execute c).2) +
      (if .cancelled id ∈ (f.execute c).2 then Order.lots (f.order? id).toList else 0) +
      Order.lots ((f.execute c).1.order? id).toList := by
  rcases h.execute_cases c with
    ⟨other, user, reason, heq⟩ | ⟨o, last, -, -, -, hnew, hlast, heq⟩ | ⟨target, heq⟩
  · rw [heq]
    simp [EventKind.trades]
  · have hne : id ≠ o.id := by
      rintro rfl
      rw [hid] at hnew
      cases hnew
    rw [heq, EventKind.trades_accepted hlast,
      if_neg (EventKind.cancelled_not_mem_accepted hlast), Int.add_zero]
    exact h.given_settled hne
  · rw [heq, order?_filter]
    by_cases htarget : id = target
    · simp [htarget, EventKind.trades, Order.lots]
    · simp [htarget, EventKind.trades]

/-- No order gets anything while it rests. -/
theorem Tidy.taken_execute (h : f.Tidy) (c : Command) (hid : f.contains id) :
    Trade.taken id (EventKind.trades (f.execute c).2) = 0 := by
  rcases h.execute_cases c with
    ⟨other, user, reason, heq⟩ | ⟨o, last, -, -, -, hnew, hlast, heq⟩ | ⟨target, heq⟩
  · rw [heq]
    rfl
  · rw [heq, EventKind.trades_accepted hlast]
    refine Trade.taken_eq_zero fun t ht => ?_
    rw [(h.passes_trade o).1.taker_of_mem ht]
    rintro rfl
    rw [hid] at hnew
    cases hnew
  · rw [heq]
    rfl

/-- An order that stays was not cancelled, and it is the one that rested before. -/
theorem Tidy.order?_execute (h : f.Tidy) {m m' : Order} (hm : f.order? id = some m)
    (hm' : (f.execute c).1.order? id = some m') :
    .cancelled id ∉ (f.execute c).2 ∧ m' = { m with qty := m'.qty } := by
  rcases h.execute_cases c with
    ⟨other, user, reason, heq⟩ | ⟨o, last, -, -, -, hnew, hlast, heq⟩ | ⟨target, heq⟩
  · rw [heq] at hm' ⊢
    rw [hm] at hm'
    cases hm'
    simp
  · rw [heq] at hm' ⊢
    refine ⟨EventKind.cancelled_not_mem_accepted hlast, ?_⟩
    obtain ⟨hpasses, -⟩ := h.passes_trade o
    have hne : (f.trade o).taker.id ≠ id := by
      rw [hpasses.taker]
      rintro rfl
      rw [order?_eq_none hnew] at hm
      cases hm
    rw [order?_settled, if_neg hne, ite_self, Option.or_none] at hm'
    exact hpasses.order?_kept h hm hm'
  · rw [heq] at hm' ⊢
    rw [order?_filter] at hm'
    by_cases htarget : id = target
    · rw [if_pos htarget] at hm'
      cases hm'
    · rw [if_neg htarget, hm] at hm'
      cases hm'
      simp [htarget]

/-- An order that is accepted got what no longer rests of it. -/
theorem Tidy.qty_of_accepted (h : f.Tidy) (haction : c.action = .submit o)
    (haccepted : .accepted o.id o.user ∈ (f.execute c).2) :
    o.qty.toInt = Trade.taken o.id (EventKind.trades (f.execute c).2) +
      Order.lots ((f.execute c).1.order? o.id).toList := by
  rcases h.execute_cases c with
    ⟨other, user, reason, heq⟩ | ⟨o', last, haction', -, hq, hnew, hlast, heq⟩ | ⟨target, heq⟩
  · rw [heq] at haccepted
    simp at haccepted
  · rw [haction] at haction'
    cases haction'
    rw [heq, EventKind.trades_accepted hlast]
    exact h.qty_settled hq hnew
  · rw [heq] at haccepted
    simp at haccepted

/-- A command that trades has an order that is accepted, and its trades are fair. -/
theorem Tidy.fair_of_trades (h : f.Tidy) {past next : List Trade} {t : Trade}
    (htrades : EventKind.trades (f.execute c).2 = past ++ t :: next) :
    ∃ o, c.action = .submit o ∧ .accepted o.id o.user ∈ (f.execute c).2 ∧
      t.Fair f.order? o past := by
  rcases h.execute_cases c with
    ⟨other, user, reason, heq⟩ | ⟨o, last, haction, -, -, -, hlast, heq⟩ | ⟨target, heq⟩
  · rw [heq] at htrades
    simp [EventKind.trades] at htrades
  · rw [heq, EventKind.trades_accepted hlast] at htrades
    rw [heq]
    exact ⟨o, haction, by simp, (h.passes_trade o).1.fair past t next htrades⟩
  · rw [heq] at htrades
    simp [EventKind.trades] at htrades

end Plain

namespace Book

variable {b : Book} {f : Plain} {id : OrderId}

/-- What an order has when a command begins it gives to takers, gets back or keeps. -/
theorem Shows.lots_execute (h : b.Shows f) (c : Command) (hid : b.contains id) :
    b.lotsOf id = Trade.given id (EventKind.trades (b.execute c).2) +
      (if .cancelled id ∈ (b.execute c).2 then b.lotsOf id else 0) +
      (b.execute c).1.lotsOf id := by
  obtain ⟨hshows, hevents⟩ := h.executes c
  rw [h.contains] at hid
  rw [lotsOf, lotsOf, h.order?, hshows.order?, hevents]
  exact h.tidy.lots_execute c hid

/-! ## All commands -/

/-- All lots that an order has stay in its ledger. -/
theorem Shows.total_ledger (h : b.Shows f) (id : OrderId) (cs : List Command) :
    (b.ledger id cs).total = b.lotsOf id := by
  induction cs generalizing b f with
  | nil => simp [ledger, Ledger.total]
  | cons c cs ih =>
    have hlater := ih (h.executes c).1
    rw [Ledger.total] at hlater ⊢
    rw [ledger]
    by_cases hid : b.contains id
    · have hstep := h.lots_execute c hid
      have htaken : Trade.taken id (EventKind.trades (b.execute c).2) = 0 := by
        rw [(h.executes c).2]
        exact h.tidy.taken_execute c (h.contains id ▸ hid)
      rw [if_pos hid]
      dsimp only
      omega
    · rw [h.contains, Bool.not_eq_true] at hid
      rw [if_neg (by simp [h.contains, hid]), lotsOf, h.order?, Plain.order?_eq_none hid]
      rfl

theorem Shows.executesAll (h : b.Shows f) (cs : List Command) :
    ∃ f', (b.executeAll cs).Shows f' := by
  induction cs generalizing b f with
  | nil => exact ⟨f, h⟩
  | cons c cs ih => exact ih (h.executes c).1

/-- A command and what follows it account for all lots of a book. -/
theorem Shows.conserves (h : b.Shows f) (c : Command) (since : List Command) :
    b.Conserves c since := by
  obtain ⟨hshows, hevents⟩ := h.executes c
  have hcontains {id : OrderId} {o : Order} (horder : b.order? id = some o) : b.contains id := by
    rw [h.contains, Plain.contains_eq_isSome, ← h.order?, horder]
    rfl
  refine ⟨?_, ?_, ?_, ?_⟩
  · intro o haction haccepted
    have htotal := hshows.total_ledger o.id since
    rw [hevents] at haccepted
    have hqty := h.tidy.qty_of_accepted haction haccepted
    rw [lotsOf, hshows.order?] at htotal
    rw [hevents, htotal]
    exact hqty
  · intro past t next htrades
    rw [hevents] at htrades
    rw [hevents, h.order?_eq]
    exact h.tidy.fair_of_trades htrades
  · intro id o horder hgone
    have hstep := h.lots_execute c (hcontains horder)
    by_cases hcancelled : .cancelled id ∈ (b.execute c).2
    · exact .inl hcancelled
    · right
      rw [if_neg hcancelled, lotsOf, lotsOf, horder, hgone] at hstep
      simp only [Option.toList_some, Option.toList_none, Order.lots] at hstep
      omega
  · intro id o o' horder horder'
    have hstep := h.lots_execute c (hcontains horder)
    have hkept := h.tidy.order?_execute (h.order? id ▸ horder) (hshows.order? id ▸ horder')
    rw [← hevents] at hkept
    refine ⟨hkept.2, ?_⟩
    rw [if_neg hkept.1, lotsOf, lotsOf, horder, horder'] at hstep
    simp only [Option.toList_some, Order.lots] at hstep
    omega

/-- **Quantity is conserved.** Whatever commands a book of any bound has executed before, the next
one and all that follow it account for all lots. -/
theorem quantity_conserved (o : Opening) (before : List Command) (c : Command)
    (since : List Command) : (o.book.executeAll before).Conserves c since := by
  obtain ⟨f, h⟩ := (shows_opening o).executesAll before
  exact h.conserves c since

/-- An order gives two of its lots and is cancelled with the others, and its id is used again. -/
example :
    (({} : Book).execute
      { action := .submit { id := 1, user := 7, side := .sell, price := 10, qty := 5 } }).1.ledger 1
      [{ action := .submit { id := 2, user := 7, side := .buy, price := 12, qty := 2 } },
       { action := .cancel 1 },
       { action := .submit { id := 1, user := 7, side := .sell, price := 10, qty := 4 } }] =
      { given := 2, returned := 3 } := by
  decide +kernel

end Book

end Bourse
