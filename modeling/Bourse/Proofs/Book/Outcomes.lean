import Bourse.Proofs.Book.Conserving

/-!
# What becomes of a command

A command is refused for one of five reasons and nothing happens, or it takes just the order that it
names off the book, or its order is accepted, trades and rests with what is left of it. The room for
that is asked for before the order trades. It is there afterwards too, since no trade takes room:
`command_outcome`.
-/

namespace Bourse

/-! ## Plain books -/

namespace Plain

variable {b f : Plain} {o maker : Order} {qty : Qty} {side : Side}

/-- A deduction leaves the queues of the other side as they are. -/
theorem Tidy.ordersAt_deduct (h : b.Tidy) (hm : maker ∈ b.resting) (hside : maker.side ≠ side)
    (price : Price) : (b.deduct maker.id qty).ordersAt side price = b.ordersAt side price := by
  obtain ⟨bound, resting⟩ := b
  obtain ⟨pre, post, rfl, hne⟩ := h.exists_around hm
  rw [deduct_around hne, ordersAt, ordersAt]
  by_cases hle : maker.qty ≤ qty
  · simp [hle, hside]
  · simp [hle, hside]

/-- A taker trades with the other side only, so the queues of its own side stay as they are. -/
theorem Tidy.ordersAt_trade (h : f.Tidy) (o : Order) (price : Price) :
    (f.trade o).book.ordersAt o.side price = f.ordersAt o.side price := by
  have hstep (s t : Sweep)
      (hs : f.Passes o s ∧ s.book.ordersAt o.side price = f.ordersAt o.side price)
      (hst : s.step? = some t) :
      f.Passes o t ∧ t.book.ordersAt o.side price = f.ordersAt o.side price := by
    refine ⟨hs.1.step h hst, ?_⟩
    obtain ⟨-, maker, hmem, hside, -, rfl⟩ := Sweep.exists_maker_of_step? hst
    have hown : maker.side ≠ o.side := by
      rw [hside, hs.1.taker]
      cases o.side <;> decide
    rw [← hs.2]
    exact hs.1.tidy.ordersAt_deduct hmem hown price
  exact (Sweep.run_induct (s := { book := f, taker := o }) hstep ⟨.refl h o, rfl⟩).1.2

/-- Just one order rests under an id. -/
theorem Tidy.length_filter (h : b.Tidy) {id : OrderId} (hid : b.contains id) :
    (b.resting.filter (·.id ≠ id)).length + 1 = b.resting.length := by
  obtain ⟨o, ho, hoid⟩ := List.any_eq_true.1 hid
  rw [decide_eq_true_eq] at hoid
  subst hoid
  obtain ⟨pre, post, heq, hne⟩ := h.exists_around ho
  have hkeep : (pre ++ post).filter (·.id ≠ o.id) = pre ++ post :=
    List.filter_eq_self.2 fun m hm => decide_eq_true (hne m hm)
  rw [List.filter_append] at hkeep
  rw [heq, List.filter_append, List.filter_cons_of_neg (by simp), hkeep, List.length_append,
    List.length_append, List.length_cons, Nat.add_assoc]

/-- No more orders rest than may, also when one was just accepted. -/
theorem Tidy.within_execute (h : f.Tidy) (hle : f.resting.length ≤ f.bound) (c : Command) :
    (f.execute c).1.bound = f.bound ∧ (f.execute c).1.resting.length ≤ f.bound := by
  rw [execute]
  cases c.fault? with
  | some reason => exact ⟨rfl, hle⟩
  | none =>
    cases c.action with
    | submit o =>
      dsimp only
      by_cases hid : f.contains o.id
      · rw [enter, if_pos hid]
        exact ⟨rfl, hle⟩
      by_cases hfull : f.isFull
      · rw [enter, if_neg hid, if_pos hfull]
        exact ⟨rfl, hle⟩
      rw [Bool.not_eq_true] at hid hfull
      have hpasses := (h.passes_trade o).1
      have hsize := hpasses.size
      rw [h.enter_admitted hid hfull, settled]
      split
      · exact ⟨hpasses.bound, hsize.trans hle⟩
      · refine ⟨hpasses.bound, ?_⟩
        simp only [isFull, decide_eq_false_iff_not] at hfull
        simp only [List.length_append, List.length_singleton]
        omega
    | cancel id =>
      dsimp only
      rcases f.withdraw_cases id with heq | heq
      · rw [heq]
        exact ⟨rfl, hle⟩
      · rw [heq]
        exact ⟨rfl, (List.length_filter_le ..).trans hle⟩

end Plain

/-! ## Books -/

/-- An order that makes sense. -/
structure Order.Proper (o : Order) : Prop where
  id : o.id ≠ 0
  price : 0 < o.price
  qty : 0 < o.qty

theorem Order.proper_or (o : Order) : o.Proper ∨ o.id = 0 ∨ o.price ≤ 0 ∨ o.qty ≤ 0 := by
  by_cases hbad : o.id = 0 ∨ o.price ≤ 0 ∨ o.qty ≤ 0
  · exact .inr hbad
  · rw [not_or, not_or] at hbad
    exact .inl ⟨hbad.1, Int64.not_le.1 hbad.2.1, Int64.not_le.1 hbad.2.2⟩

/-- Nothing is wrong with a command that submits such an order. -/
theorem Command.fault?_of_proper {c : Command} {o : Order} (haction : c.action = .submit o)
    (ho : o.Proper) : c.fault? = none := by
  have hprice := Int64.not_le.2 ho.price
  have hqty := Int64.not_le.2 ho.qty
  simp [fault?, haction, ho.id, hprice, hqty]

namespace Book

/-- Why a book refuses what it is asked to do, when at most `bound` orders may rest, and the id and
the user that it names then. -/
inductive Refuses (b : Book) (bound : Nat) :
    Action → OrderId → UserId → RejectReason → Prop where
  | badSubmit {o : Order} (h : o.id = 0 ∨ o.price ≤ 0 ∨ o.qty ≤ 0) :
    b.Refuses bound (.submit o) o.id o.user .badSubmit
  | badCancel : b.Refuses bound (.cancel 0) 0 0 .badCancel
  | orderNotFound {id : OrderId} (hid : id ≠ 0) (h : b.contains id = false) :
    b.Refuses bound (.cancel id) id 0 .orderNotFound
  /-- Also when the book is full. -/
  | duplicateOrderId {o : Order} (hproper : o.Proper) (h : b.contains o.id) :
    b.Refuses bound (.submit o) o.id o.user .duplicateOrderId
  | bookFull {o : Order} (hproper : o.Proper) (hnew : b.contains o.id = false)
      (h : b.size = bound) : b.Refuses bound (.submit o) o.id o.user .bookFull

/-- Just one order leaves a book. -/
structure Loses (b : Book) (id : OrderId) (b' : Book) : Prop where
  rested : b.contains id
  gone : b'.order? id = none
  others : ∀ id', id' ≠ id → b'.order? id' = b.order? id'
  queues : ∀ side price, b'.ordersAt side price = (b.ordersAt side price).filter (·.id ≠ id)
  size : b'.size + 1 = b.size

/-- An order comes to a book with less than `bound` orders and makes some trades. What is left of it
rests behind all orders of its side at its price. -/
structure Takes (b : Book) (bound : Nat) (o : Order) (trades : List Trade) (b' : Book) : Prop where
  proper : o.Proper
  new : b.contains o.id = false
  room : b.size < bound
  taker : ∀ t ∈ trades, t.taker = o.id
  lots : Trade.lots trades ≤ o.qty.toInt
  filled : Trade.lots trades = o.qty.toInt → b'.order? o.id = none
  rests : Trade.lots trades < o.qty.toInt → ∃ r : Order, r = { o with qty := r.qty } ∧
    r.qty.toInt = o.qty.toInt - Trade.lots trades ∧ b'.order? o.id = some r ∧
    b'.ordersAt o.side o.price = b.ordersAt o.side o.price ++ [r]

/-- What may become of a command: the book afterwards and the events. -/
inductive Outcome (b : Book) (bound : Nat) (c : Command) : Book → List EventKind → Prop where
  /-- It is refused, and nothing happens to the book. -/
  | refused {id : OrderId} {user : UserId} {reason : RejectReason}
      (h : b.Refuses bound c.action id user reason) :
    b.Outcome bound c b [.rejected id user reason]
  /-- It takes an order off the book. -/
  | cancelled {id : OrderId} {b' : Book} (haction : c.action = .cancel id) (hid : id ≠ 0)
      (h : b.Loses id b') : b.Outcome bound c b' [.cancelled id]
  /-- Its order is accepted. -/
  | accepted {o : Order} {trades : List Trade} {b' : Book} (haction : c.action = .submit o)
      (h : b.Takes bound o trades b') :
    b.Outcome bound c b' (.accepted o.id o.user :: trades.map .traded ++
      if Trade.lots trades < o.qty.toInt then [.added o.id o.user] else [])

variable {b : Book} {f : Plain} {o : Order} {c : Command}

theorem Shows.loses {b' : Book} {id : OrderId} (h : b.Shows f) (hid : f.contains id)
    (h' : b'.Shows { f with resting := f.resting.filter (·.id ≠ id) }) : b.Loses id b' where
  rested := by rw [h.contains, hid]
  gone := by rw [h'.order?, Plain.order?_filter, if_pos rfl]
  others id' hne := by rw [h'.order?, Plain.order?_filter, if_neg hne, h.order?]
  queues side price := by
    rw [h'.ordersAt, h.ordersAt, Plain.ordersAt, Plain.ordersAt, List.filter_filter,
      List.filter_filter]
    congr 1
    funext o
    exact Bool.and_comm ..
  size := by rw [h'.size, h.size, h.tidy.length_filter hid]

/-- What is left of an order that was admitted found its place. -/
theorem Shows.takes {b' : Book} (h : b.Shows f) (h' : b'.Shows (f.settled o)) (ho : o.Proper)
    (hid : f.contains o.id = false) (hroom : f.resting.length < f.bound) :
    b.Takes f.bound o (f.trade o).trades b' := by
  have hpasses := (h.tidy.passes_trade o).1
  have htaken := hpasses.taken
  have hsame : (f.trade o).taker.id = o.id := by rw [hpasses.taker]
  have hnonneg := hpasses.nonneg (Int64.le_of_lt ho.qty)
  rw [Int64.le_iff_toInt_le, Int64.toInt_zero] at hnonneg
  have horder := Plain.order?_settled f o o.id
  rw [Plain.order?_eq_none (hpasses.contains hid), Option.none_or, if_pos hsame] at horder
  refine ⟨ho, by rw [h.contains, hid], by rw [h.size]; exact hroom,
    fun t ht => hpasses.taker_of_mem ht, by omega, fun hall => ?_, fun hsome => ?_⟩
  · rw [h'.order?, horder, if_pos]
    rw [Int64.le_iff_toInt_le, Int64.toInt_zero]
    omega
  · have hrest : ¬ (f.trade o).taker.qty ≤ 0 := by
      rw [Int64.le_iff_toInt_le, Int64.toInt_zero]
      omega
    rw [if_neg hrest] at horder
    refine ⟨(f.trade o).taker, hpasses.taker, by omega, by rw [h'.order?, horder], ?_⟩
    have hside : (f.trade o).taker.side = o.side := by rw [hpasses.taker]
    have hprice : (f.trade o).taker.price = o.price := by rw [hpasses.taker]
    rw [h'.ordersAt, h.ordersAt, ← h.tidy.ordersAt_trade, Plain.settled, if_neg hrest,
      Plain.ordersAt, List.filter_append, List.filter_singleton]
    simp [Plain.ordersAt, hside, hprice]

/-- What is to be refused is refused, and nothing happens to the book. -/
theorem Shows.execute_of_refuses (h : b.Shows f) {id : OrderId} {user : UserId}
    {reason : RejectReason} (hr : b.Refuses f.bound c.action id user reason) :
    b.execute c = (b, [.rejected id user reason]) := by
  generalize haction : c.action = action at hr
  unfold execute
  cases hr with
  | badSubmit hbad => simp [Command.fault?, Command.rejection, haction, or_assoc, hbad]
  | badCancel => simp [Command.fault?, Command.rejection, haction]
  | orderNotFound hid hnone =>
    have hcancel : b.cancel? id = none := by
      rcases rel_cases (h.cancel? id) with ⟨hb, -⟩ | ⟨b', f', -, hf, -⟩
      · exact hb
      · rw [Plain.cancel?, ← h.contains, hnone] at hf
        cases hf
    simp [Command.fault?, haction, hid, withdraw, hcancel]
  | duplicateOrderId ho hid =>
    rw [Command.fault?_of_proper haction ho, haction]
    dsimp only
    rw [enter, if_pos hid]
  | bookFull ho hnew hsize =>
    have hfull : b.isFull = true := by
      rw [h.isFull, Plain.isFull, decide_eq_true_eq, ← hsize, h.size]
    rw [Command.fault?_of_proper haction ho, haction]
    dsimp only
    rw [enter, if_neg (by simp [hnew]), if_pos hfull]

/-- What becomes of a command, when there are no more orders than may rest. -/
theorem Shows.outcome (h : b.Shows f) (hle : f.resting.length ≤ f.bound) (c : Command) :
    b.Outcome f.bound c (b.execute c).1 (b.execute c).2 := by
  have hrefused {action : Action} {id : OrderId} {user : UserId} {reason : RejectReason}
      (haction : c.action = action) (hr : b.Refuses f.bound action id user reason) :
      b.Outcome f.bound c (b.execute c).1 (b.execute c).2 := by
    subst haction
    rw [h.execute_of_refuses hr]
    exact .refused hr
  obtain ⟨hshows, hevents⟩ := h.executes c
  cases haction : c.action with
  | submit o =>
    rcases o.proper_or with ho | hbad
    · by_cases hid : b.contains o.id
      · exact hrefused haction (.duplicateOrderId ho hid)
      rw [Bool.not_eq_true] at hid
      by_cases hsize : b.size = f.bound
      · exact hrefused haction (.bookFull ho hid hsize)
      · rw [h.size] at hsize
        rw [h.contains] at hid
        have hroom : f.resting.length < f.bound := Nat.lt_of_le_of_ne hle hsize
        have hadmitted : f.execute c = f.enter o := by
          rw [Plain.execute, Command.fault?_of_proper haction ho, haction]
        rw [h.tidy.enter_admitted hid (by simp [Plain.isFull, hroom])] at hadmitted
        rw [hadmitted] at hshows hevents
        have htakes := h.takes hshows ho hid hroom
        rw [hevents]
        have hrest : ((f.trade o).taker.qty ≤ 0) ↔
            ¬ Trade.lots (f.trade o).trades < o.qty.toInt := by
          have htaken := (h.tidy.passes_trade o).1.taken
          rw [Int64.le_iff_toInt_le, Int64.toInt_zero]
          omega
        have hlast : (if (f.trade o).taker.qty ≤ 0 then [] else [EventKind.added o.id o.user]) =
            if Trade.lots (f.trade o).trades < o.qty.toInt then [.added o.id o.user] else [] := by
          simp only [hrest, ite_not]
        rw [hlast]
        exact .accepted haction htakes
    · exact hrefused haction (.badSubmit hbad)
  | cancel id =>
    by_cases hzero : id = 0
    · subst hzero
      exact hrefused haction .badCancel
    by_cases hid : b.contains id
    · rw [h.contains] at hid
      have hcancel : f.execute c =
          ({ f with resting := f.resting.filter (·.id ≠ id) }, [.cancelled id]) := by
        simp [Plain.execute, Command.fault?, haction, hzero, Plain.withdraw, Plain.cancel?, hid]
      rw [hcancel] at hshows hevents
      rw [hevents]
      exact .cancelled haction hzero (h.loses hid hshows)
    · rw [Bool.not_eq_true] at hid
      exact hrefused haction (.orderNotFound hzero hid)

/-- Only what is to be refused is refused. -/
theorem Outcome.refuses {b' : Book} {bound : Nat} {events : List EventKind} {id : OrderId}
    {user : UserId} {reason : RejectReason} (h : b.Outcome bound c b' events)
    (hevents : events = [.rejected id user reason]) : b.Refuses bound c.action id user reason := by
  cases h with
  | refused hr =>
    cases hevents
    exact hr
  | cancelled => cases hevents
  | accepted => cases hevents

/-- Whatever commands were executed, there are no more orders than may rest. -/
theorem Shows.within_executesAll (h : b.Shows f) (hle : f.resting.length ≤ f.bound)
    (cs : List Command) :
    ∃ f', (b.executeAll cs).Shows f' ∧ f'.bound = f.bound ∧ f'.resting.length ≤ f'.bound := by
  induction cs generalizing b f with
  | nil => exact ⟨f, h, rfl, hle⟩
  | cons c cs ih =>
    obtain ⟨hbound, hsize⟩ := h.tidy.within_execute hle c
    obtain ⟨f', hshows, hbound', hsize'⟩ := ih (h.executes c).1 (hbound ▸ hsize)
    exact ⟨f', hshows, hbound'.trans hbound, hsize'⟩

/-- **What becomes of a command.** Whatever commands a book of any bound has executed before, the
next one has one of three outcomes: it is refused and the book stays as it is, it takes the order
that it names off the book and no other, or its order is accepted, trades as the taker and, just if
something is left of it, rests with that at the end of its queue. It is refused exactly for one of
the five reasons. -/
theorem command_outcome (opening : Opening) (before : List Command) (c : Command) :
    let b := opening.book.executeAll before
    b.Outcome opening.plain.bound c (b.execute c).1 (b.execute c).2 ∧
      ∀ id user reason, b.Refuses opening.plain.bound c.action id user reason ↔
        (b.execute c).2 = [.rejected id user reason] := by
  have hempty : opening.plain.resting.length ≤ opening.plain.bound := by
    cases opening <;> exact Nat.zero_le _
  obtain ⟨f, h, hbound, hle⟩ := (shows_opening opening).within_executesAll hempty before
  have houtcome := h.outcome hle c
  rw [hbound] at houtcome
  refine ⟨houtcome, fun id user reason => ⟨fun hr => ?_, houtcome.refuses⟩⟩
  rw [← hbound] at hr
  rw [h.execute_of_refuses hr]

/-- In a book with room for one order more, what is left of an order takes that room. -/
example :
    let b := (Book.bounded 2).executeAll
      [{ action := .submit { id := 1, user := 7, side := .sell, price := 10, qty := 5 } }]
    let c : Command :=
      { action := .submit { id := 2, user := 7, side := .buy, price := 9, qty := 3 } }
    (b.execute c).2 = [.accepted 2 7, .added 2 7] ∧
      (b.execute c).1.order? 2 = some { id := 2, user := 7, side := .buy, price := 9, qty := 3 } ∧
      (b.execute c).1.size = 2 := by
  decide +kernel

end Book

end Bourse
