import Bourse.Proofs.Book.Conserving
import Bourse.Proofs.Book.Sweeping

/-!
# Orders that leave no trace

An order that rests for a while, trades with nobody and is cancelled might as well never have been
sent. While it rests, the book without it (`Plain.without`) stays in step with the book that has it:
one trade does (`Plain.Sweep.step?_without`), hence a whole taker, hence a command, hence any number
of them. Only the bound can tell the two books apart, so no order may be refused for want of room
meanwhile. Once the order is cancelled both books have the same orders, and what is different inside
of them is never seen again.
-/

namespace Bourse

/-- The id that a command is about. -/
def Command.subject (c : Command) : OrderId :=
  match c.action with
  | .submit o => o.id
  | .cancel id => id

/-- Whether an order takes part in a trade. -/
def Trade.Names (t : Trade) (id : OrderId) : Prop :=
  t.maker = id ∨ t.taker = id

instance (t : Trade) (id : OrderId) : Decidable (t.Names id) :=
  inferInstanceAs (Decidable (_ ∨ _))

namespace Plain

/-- The book as it would be without the order with this id. -/
def without (f : Plain) (id : OrderId) : Plain :=
  { f with resting := f.resting.filter (·.id ≠ id) }

variable {f : Plain} {o m taker : Order} {id x : OrderId} {c : Command}

theorem Tidy.without (h : f.Tidy) (x : OrderId) : (f.without x).Tidy where
  positive o ho := h.positive o (List.mem_filter.1 ho).1
  distinct := h.distinct.sublist (List.filter_sublist.map _)

theorem contains_without (h : id ≠ x) : (f.without x).contains id = f.contains id := by
  rw [Bool.eq_iff_iff, contains, contains, List.any_eq_true, List.any_eq_true]
  constructor
  · rintro ⟨o, ho, hid⟩
    exact ⟨o, (List.mem_filter.1 ho).1, hid⟩
  · rintro ⟨o, ho, hid⟩
    have hne : o.id ≠ x := by
      rw [of_decide_eq_true hid]
      exact h
    exact ⟨o, List.mem_filter.2 ⟨ho, decide_eq_true hne⟩, hid⟩

/-- Where there is room, there is room without an order. -/
theorem isFull_without (h : f.isFull = false) : (f.without x).isFull = false := by
  have hle : (f.without x).resting.length ≤ f.resting.length := List.length_filter_le ..
  have hbound : (f.without x).bound = f.bound := rfl
  simp only [isFull, decide_eq_false_iff_not] at h ⊢
  omega

theorem without_eq_self (h : f.contains x = false) : f.without x = f := by
  have hall : f.resting.filter (·.id ≠ x) = f.resting := by
    rw [contains, List.any_eq_false] at h
    exact List.filter_eq_self.2 fun o ho => by simpa using h o ho
  rw [without, hall]

/-! ## One trade -/

theorem opposing_without (f : Plain) (x : OrderId) (taker : Order) :
    (f.without x).opposing taker = (f.opposing taker).filter (·.id ≠ x) := by
  show (f.resting.filter _).filter _ = (f.resting.filter _).filter _
  rw [List.filter_filter, List.filter_filter]
  refine List.filter_congr fun o _ => ?_
  exact Bool.and_comm _ _

/-- The first order is still the first when another one is gone. -/
theorem first?_filter {l : List Order} (h : first? l = some o) (hne : o.id ≠ x) :
    first? (l.filter (·.id ≠ x)) = some o := by
  obtain ⟨pre, post, rfl, hpre, hpost⟩ := split_of_first? h
  rw [List.filter_append, List.filter_cons_of_pos (by simpa using hne)]
  refine first?_eq_some ?_ ?_
  · exact fun m hm => hpre m (List.mem_filter.1 hm).1
  · exact fun m hm => hpost m (List.mem_filter.1 hm).1

theorem deduct_without (f : Plain) (x id : OrderId) (qty : Qty) :
    (f.without x).deduct id qty = (f.deduct id qty).without x := by
  simp only [deduct, without, List.filterMap_filter, List.filter_filterMap]
  congr 1
  refine List.filterMap_congr fun o _ => ?_
  by_cases hid : o.id = id
  · subst hid
    by_cases hle : o.qty ≤ qty
    · simp [hle]
    · by_cases hx : o.id = x
      · simp [hle, hx, Option.filter]
      · simp [hle, hx, Option.filter]
  · by_cases hx : o.id = x
    · simp [hx, hx ▸ hid, Option.filter]
    · simp [hid, hx, Option.filter]

namespace Sweep

variable {s t : Sweep}

/-- The taker on its way through the book without an order. -/
def without (s : Sweep) (x : OrderId) : Sweep :=
  { s with book := s.book.without x }

/-- A trade with another order is made without the order as well. -/
theorem step?_without (h : s.step? = some t) (hother : ∀ d ∈ t.trades, ¬ d.Names x) :
    (s.without x).step? = some (t.without x) := by
  obtain ⟨hpos, maker, hfirst, rfl⟩ := first?_of_step? h
  have hne : maker.id ≠ x := by
    intro heq
    refine hother _ (List.mem_append_right _ List.mem_cons_self) ?_
    exact Or.inl heq
  have hfirst' : first? ((s.without x).book.opposing (s.without x).taker) = some maker := by
    rw [without, opposing_without, first?_filter hfirst hne]
  rw [step?_of_first? (s := s.without x) hpos hfirst' rfl]
  simp only [without, deduct_without]

/-- Where nobody can be traded with, nobody can without the order. -/
theorem step?_without_eq_none (h : s.step? = none) (x : OrderId) :
    (s.without x).step? = none := by
  rw [step?_eq_none_iff] at h ⊢
  refine h.imp_right fun hnil => ?_
  show (s.book.without x).opposing s.taker = []
  rw [opposing_without, hnil]
  rfl

/-- A taker that never meets the order goes the same way without it. -/
theorem run_without (s : Sweep) (h : ∀ d ∈ s.run.trades, ¬ d.Names x) :
    (s.without x).run = s.run.without x := by
  fun_induction run s with
  | case1 s hnone => exact run_of_none (step?_without_eq_none hnone x)
  | case2 s t hsome ih =>
    have hother : ∀ d ∈ t.trades, ¬ d.Names x :=
      fun d hd => h d (t.trades_prefix_run.subset hd)
    rw [← Book.Sweep.run_of_step? (step?_without hsome hother)]
    exact ih h

end Sweep

/-! ## One command -/

theorem trade_without (h : ∀ d ∈ (f.trade o).trades, ¬ d.Names x) :
    (f.without x).trade o = (f.trade o).without x :=
  Sweep.run_without { book := f, taker := o } h

/-- What is left of another order rests without the order as it rests with it. -/
theorem Tidy.settled_without (h : f.Tidy) (hid : o.id ≠ x)
    (htrades : ∀ d ∈ (f.trade o).trades, ¬ d.Names x) :
    (f.without x).settled o = (f.settled o).without x := by
  have htaker : (f.trade o).taker.id = o.id := by rw [(h.passes_trade o).1.taker]
  rw [settled, settled, trade_without htrades]
  show (if (f.trade o).taker.qty ≤ 0 then (f.trade o).book.without x else _) = _
  by_cases hq : (f.trade o).taker.qty ≤ 0
  · rw [if_pos hq, if_pos hq]
  · rw [if_neg hq, if_neg hq]
    simp [Sweep.without, Plain.without, htaker, hid]

theorem Tidy.enter_without (h : f.Tidy) (hid : o.id ≠ x)
    (htrades : ∀ d ∈ EventKind.trades (f.enter o).2, ¬ d.Names x)
    (hroom : .rejected o.id o.user .bookFull ∉ (f.enter o).2) :
    (f.without x).enter o = ((f.enter o).1.without x, (f.enter o).2) := by
  by_cases hcontains : f.contains o.id
  · rw [enter, enter, contains_without hid, if_pos hcontains, if_pos hcontains]
  · have hfull : f.isFull = false := by
      by_contra hfull
      rw [enter, if_neg hcontains, if_pos (by simpa using hfull)] at hroom
      exact hroom List.mem_cons_self
    rw [Bool.not_eq_true] at hcontains
    have hcontains' := (contains_without (f := f) hid).trans hcontains
    rw [h.enter_admitted hcontains hfull] at htrades ⊢
    have hothers : ∀ d ∈ (f.trade o).trades, ¬ d.Names x := by
      intro d hd
      refine htrades d ?_
      rw [EventKind.trades_accepted (by split <;> simp)]
      exact hd
    rw [(h.without x).enter_admitted hcontains' (isFull_without hfull),
      h.settled_without hid hothers, trade_without hothers]
    rfl

theorem withdraw_without (hid : id ≠ x) :
    (f.without x).withdraw id = ((f.withdraw id).1.without x, (f.withdraw id).2) := by
  rw [withdraw, withdraw, cancel?, cancel?, contains_without hid]
  by_cases hcontains : f.contains id
  · rw [if_pos hcontains, if_pos hcontains]
    simp [without, List.filter_filter, Bool.and_comm]
  · rw [if_neg hcontains, if_neg hcontains]

/-- A command about another order has the same events without the order, unless it trades with it
or finds no room. -/
theorem Tidy.execute_without (h : f.Tidy) (hsubject : c.subject ≠ x)
    (htrades : ∀ d ∈ EventKind.trades (f.execute c).2, ¬ d.Names x)
    (hroom : ∀ id user, .rejected id user .bookFull ∉ (f.execute c).2) :
    (f.without x).execute c = ((f.execute c).1.without x, (f.execute c).2) := by
  rw [Plain.execute] at htrades hroom ⊢
  rw [Plain.execute]
  rw [Command.subject] at hsubject
  cases hfault : c.fault? with
  | some reason => rfl
  | none =>
    rw [hfault] at htrades hroom
    cases haction : c.action with
    | submit o =>
      rw [haction] at hsubject htrades hroom
      exact h.enter_without hsubject htrades (hroom o.id o.user)
    | cancel id =>
      rw [haction] at hsubject
      exact withdraw_without hsubject

/-! ## The order itself -/

/-- An order that does not trade as it comes in rests as it is. -/
theorem trade_of_trades_eq_nil (h : (f.trade o).trades = []) :
    f.trade o = { book := f, taker := o } := by
  refine run_of_none ?_
  cases hstep : ({ book := f, taker := o } : Sweep).step? with
  | none => rfl
  | some t =>
    have hprefix := t.trades_prefix_run
    rw [Book.Sweep.run_of_step? hstep] at hprefix
    obtain ⟨-, maker, -, -, -, rfl⟩ := Sweep.exists_maker_of_step? hstep
    have hnil := List.prefix_nil.1 (h ▸ hprefix)
    simp at hnil

/-- Without an order that just came in, and did not trade, the book is what it was before. -/
theorem Tidy.without_of_accepted (h : f.Tidy) (haction : c.action = .submit o)
    (haccepted : .accepted o.id o.user ∈ (f.execute c).2)
    (htrades : EventKind.trades (f.execute c).2 = []) :
    (f.execute c).1.without o.id = f := by
  rcases h.execute_cases c with ⟨id, user, reason, heq⟩ |
    ⟨o', last, haction', -, hq, hnew, hlast, heq⟩ | ⟨id, heq⟩
  · rw [heq] at haccepted
    simp at haccepted
  · rw [haction] at haction'
    cases haction'
    rw [heq, EventKind.trades_accepted hlast] at htrades
    rw [heq, settled, trade_of_trades_eq_nil htrades, if_neg (Int64.not_le.2 hq)]
    have hgone : (f.resting ++ [o]).filter (·.id ≠ o.id) = f.resting.filter (·.id ≠ o.id) := by
      simp
    show ({ f with resting := (f.resting ++ [o]).filter (·.id ≠ o.id) } : Plain) = f
    rw [hgone]
    exact without_eq_self hnew
  · rw [heq] at haccepted
    simp at haccepted

/-- An order that was cancelled is gone, and that is all. -/
theorem Tidy.execute_of_cancelled (h : f.Tidy) (haction : c.action = .cancel x)
    (hcancelled : .cancelled x ∈ (f.execute c).2) : (f.execute c).1 = f.without x := by
  rcases h.execute_cases c with ⟨id, user, reason, heq⟩ |
    ⟨o, last, haction', -⟩ | ⟨id, heq⟩
  · rw [heq] at hcancelled
    simp at hcancelled
  · rw [haction] at haction'
    cases haction'
  · rw [heq] at hcancelled
    obtain rfl : x = id := by simpa using hcancelled
    rw [heq]
    rfl

end Plain

namespace Book

/-- The events of each of some commands. -/
def reports (b : Book) : List Command → List (List EventKind)
  | [] => []
  | c :: cs => (b.execute c).2 :: (b.execute c).1.reports cs

/-- An order comes into a book with the command `arrival` and leaves it with the command `leave`.
Neither it nor any later order trades with the other meanwhile, no command in between names it, and
none is refused because the book is full. -/
structure Stay (b : Book) (o : Order) (arrival : Command) (between : List Command)
    (leave : Command) : Prop where
  arrives : arrival.action = .submit o
  leaves : leave.action = .cancel o.id
  accepted : .accepted o.id o.user ∈ (b.execute arrival).2
  untraded : EventKind.trades (b.execute arrival).2 = []
  unnamed : ∀ c ∈ between, c.subject ≠ o.id
  unmet : ∀ events ∈ (b.execute arrival).1.reports between,
    ∀ t ∈ EventKind.trades events, ¬ t.Names o.id
  room : ∀ events ∈ (b.execute arrival).1.reports between,
    ∀ id user, .rejected id user .bookFull ∉ events
  cancelled : .cancelled o.id ∈
    (((b.execute arrival).1.executeAll between).execute leave).2

variable {b b' : Book} {f : Plain} {x : OrderId} {cs : List Command}

theorem reports_append (b : Book) (cs ds : List Command) :
    b.reports (cs ++ ds) = b.reports cs ++ (b.executeAll cs).reports ds := by
  induction cs generalizing b with
  | nil => rfl
  | cons c cs ih => rw [List.cons_append, reports, reports, ih, executeAll_cons, List.cons_append]

@[simp] theorem length_reports (b : Book) (cs : List Command) :
    (b.reports cs).length = cs.length := by
  induction cs generalizing b with
  | nil => rfl
  | cons c cs ih => rw [reports, List.length_cons, ih, List.length_cons]

/-- Two books with the same orders report the same, and have the same orders afterwards. -/
theorem Shows.reports_eq (h : b.Shows f) (h' : b'.Shows f) (cs : List Command) :
    b'.reports cs = b.reports cs ∧
      ∃ f', (b.executeAll cs).Shows f' ∧ (b'.executeAll cs).Shows f' := by
  induction cs generalizing b b' f with
  | nil => exact ⟨rfl, f, h, h'⟩
  | cons c cs ih =>
    obtain ⟨hshows, hevents⟩ := h.executes c
    obtain ⟨hshows', hevents'⟩ := h'.executes c
    obtain ⟨hreports, hlater⟩ := ih hshows hshows'
    exact ⟨by rw [reports, reports, hreports, hevents, hevents'], hlater⟩

/-- So do a book and the one without an order, as long as nothing has to do with that order. -/
theorem Shows.reports_without (h : b.Shows f) (h' : b'.Shows (f.without x))
    (hsubject : ∀ c ∈ cs, c.subject ≠ x)
    (htrades : ∀ events ∈ b.reports cs, ∀ t ∈ EventKind.trades events, ¬ t.Names x)
    (hroom : ∀ events ∈ b.reports cs, ∀ id user, .rejected id user .bookFull ∉ events) :
    b'.reports cs = b.reports cs ∧
      ∃ f', (b.executeAll cs).Shows f' ∧ (b'.executeAll cs).Shows (f'.without x) := by
  induction cs generalizing b b' f with
  | nil => exact ⟨rfl, f, h, h'⟩
  | cons c cs ih =>
    obtain ⟨hshows, hevents⟩ := h.executes c
    obtain ⟨hshows', hevents'⟩ := h'.executes c
    rw [reports, List.forall_mem_cons] at htrades hroom
    rw [List.forall_mem_cons] at hsubject
    have hstep := h.tidy.execute_without hsubject.1 (hevents ▸ htrades.1) (hevents ▸ hroom.1)
    rw [hstep] at hshows' hevents'
    obtain ⟨hreports, hlater⟩ := ih hshows hshows' hsubject.2 htrades.2 hroom.2
    exact ⟨by rw [reports, reports, hreports, hevents, hevents'], hlater⟩

/-- What stands behind the first entries of a list, taken out of it. -/
theorem eraseIdx_middle {α : Type} (l r : List α) (a : α) {n : Nat} (hn : l.length = n) :
    (l ++ a :: r).eraseIdx n = l ++ r := by
  subst hn
  rw [List.eraseIdx_append_of_length_le (Nat.le_refl _), Nat.sub_self]
  rfl

/-- **An order that never trades leaves no trace.** Let any commands be executed by a book of any
bound, and let one of the orders among them be accepted without a trade and later be cancelled. If
no trade and no command in between names it, and no command in between is refused because the book
is full, then these two commands may be left out: every other command has the same events as
before, and the book answers any calls alike afterwards. -/
theorem traceless (opening : Opening) {before between after : List Command} {o : Order}
    {arrival leave : Command}
    (h : (opening.book.executeAll before).Stay o arrival between leave) :
    let all := before ++ arrival :: between ++ leave :: after
    let others := before ++ between ++ after
    opening.book.reports others =
        ((opening.book.reports all).eraseIdx (before.length + 1 + between.length)).eraseIdx
          before.length ∧
      ∀ calls, (opening.book.executeAll others).answers calls =
        (opening.book.executeAll all).answers calls := by
  intro all others
  obtain ⟨f, hshows⟩ := (shows_opening opening).executesAll before
  generalize hb : opening.book.executeAll before = b at h hshows
  -- As long as the order rests, the book without it is the one that it never came to.
  obtain ⟨harrived, hevents⟩ := hshows.executes arrival
  have hwithout := hshows.tidy.without_of_accepted h.arrives (hevents ▸ h.accepted)
    (hevents ▸ h.untraded)
  obtain ⟨hbetween, f', hrested, hnever⟩ :=
    harrived.reports_without (hwithout.symm ▸ hshows) h.unnamed h.unmet h.room
  -- When it leaves, both books have the same orders.
  obtain ⟨hleft, hevents'⟩ := hrested.executes leave
  rw [hrested.tidy.execute_of_cancelled h.leaves (hevents' ▸ h.cancelled)] at hleft
  obtain ⟨hafter, f'', hall, hothers⟩ := hleft.reports_eq hnever after
  refine ⟨?_, fun calls => ?_⟩
  · simp only [all, others, reports_append, executeAll_append, executeAll_cons, reports, hb]
    rw [eraseIdx_middle _ _ _ (by simp; omega), hbetween, hafter, List.append_assoc,
      List.append_assoc, List.cons_append, eraseIdx_middle _ _ _ (by simp)]
  · simp only [all, others, executeAll_append, executeAll_cons, hb]
    rw [hothers.answers calls, hall.answers calls]

/-- A bid waits below an offer while a better bid takes part of that offer. When it was cancelled,
its id is used again for an offer that would have traded with it. -/
theorem traceless_reused :
    let before : List Command :=
      [{ action := .submit { id := 1, user := 7, side := .sell, price := 10, qty := 5 } }]
    let o : Order := { id := 2, user := 8, side := .buy, price := 9, qty := 3 }
    let between : List Command :=
      [{ action := .submit { id := 3, user := 9, side := .buy, price := 12, qty := 2 } },
       { action := .cancel 5 }]
    let after : List Command :=
      [{ action := .submit { id := 2, user := 9, side := .sell, price := 9, qty := 4 } }]
    let all := before ++ { action := .submit o } :: between ++ { action := .cancel 2 } :: after
    let others := before ++ between ++ after
    (Opening.new.book.executeAll before).Stay o { action := .submit o } between
        { action := .cancel 2 } ∧
      Opening.new.book.reports others = ((Opening.new.book.reports all).eraseIdx 4).eraseIdx 1 ∧
      (∀ calls, (Opening.new.book.executeAll others).answers calls =
        (Opening.new.book.executeAll all).answers calls) ∧
      Opening.new.book.reports others =
        [[.accepted 1 7, .added 1 7],
         [.accepted 3 9, .traded { maker := 1, taker := 3, price := 10, qty := 2 }],
         [.rejected 5 0 .orderNotFound],
         [.accepted 2 9, .added 2 9]] := by
  intro before o between after all others
  have hreports : ((Opening.new.book.executeAll before).execute { action := .submit o }).1.reports
      between = [[.accepted 3 9, .traded { maker := 1, taker := 3, price := 10, qty := 2 }],
        [.rejected 5 0 .orderNotFound]] := by
    decide +kernel
  have hstay : (Opening.new.book.executeAll before).Stay o { action := .submit o } between
      { action := .cancel 2 } :=
    { arrives := rfl
      leaves := rfl
      accepted := by decide +kernel
      untraded := by decide +kernel
      unnamed := by decide
      unmet := by
        rw [hreports]
        decide
      room := by
        rw [hreports]
        intro events hevents id user hfull
        simp only [List.mem_cons, List.not_mem_nil, or_false] at hevents
        rcases hevents with rfl | rfl
        · simp at hfull
        · simp at hfull
      cancelled := by decide +kernel }
  have hgone : Opening.new.book.reports others =
        ((Opening.new.book.reports all).eraseIdx 4).eraseIdx 1 ∧
      ∀ calls, (Opening.new.book.executeAll others).answers calls =
        (Opening.new.book.executeAll all).answers calls := traceless .new hstay
  exact ⟨hstay, hgone.1, hgone.2, by decide +kernel⟩

end Book

end Bourse
