import Bourse.Book.Execution
import Bourse.Proofs.Book.Passing

/-!
# Commands to plain books

A book executes a command as the plain book with the same orders does: the events are the same,
and so is what rests afterwards. In the plain book it is plain what can become of a command:
either it is refused and nothing changes, or its order goes its way and what is left of it finds
its place, or its target leaves.
-/

namespace Bourse

namespace Plain

/-- Submits an order to a plain book, as `Book.enter` does. -/
def enter (b : Plain) (o : Order) : Plain × List EventKind :=
  if b.contains o.id then (b, [.rejected o.id o.user .duplicateOrderId])
  else if b.isFull then (b, [.rejected o.id o.user .bookFull])
  else
    let s := b.trade o
    let events := .accepted o.id o.user :: s.trades.map .traded
    match s.book.add? s.taker with
    | some book => (book, events ++ [.added o.id o.user])
    | none => (s.book, events)

/-- Cancels an order of a plain book, as `Book.withdraw` does. -/
def withdraw (b : Plain) (id : OrderId) : Plain × List EventKind :=
  match b.cancel? id with
  | some book => (book, [.cancelled id])
  | none => (b, [.rejected id 0 .orderNotFound])

/-- Applies a command to a plain book, as `Book.execute` does. -/
def execute (b : Plain) (c : Command) : Plain × List EventKind :=
  match c.fault? with
  | some reason => (b, [c.rejection reason])
  | none =>
    match c.action with
    | .submit o => b.enter o
    | .cancel target => b.withdraw target

variable {f : Plain} {o m : Order} {c : Command}

/-! ## What becomes of a command -/

/-- The book after an order that was admitted, with what is left of it. -/
def settled (f : Plain) (o : Order) : Plain :=
  if (f.trade o).taker.qty ≤ 0 then (f.trade o).book
  else { (f.trade o).book with resting := (f.trade o).book.resting ++ [(f.trade o).taker] }

/-- An order that is not refused is accepted and trades, and if anything is left of it, that is
added. -/
theorem Tidy.enter_admitted (h : f.Tidy) (hid : f.contains o.id = false)
    (hfull : f.isFull = false) :
    f.enter o = (f.settled o, .accepted o.id o.user :: (f.trade o).trades.map .traded ++
      if (f.trade o).taker.qty ≤ 0 then [] else [.added o.id o.user]) := by
  rw [enter, if_neg (by simp [hid]), if_neg (by simp [hfull]), settled]
  dsimp only
  by_cases hq : (f.trade o).taker.qty ≤ 0
  · have hadd : (f.trade o).book.add? (f.trade o).taker = none := by
      rw [add?, if_pos (by simp [hq])]
    rw [hadd, if_pos hq, if_pos hq, List.append_nil]
  · rw [(h.passes_trade o).1.add? hid hfull hq, if_neg hq, if_neg hq]

/-- An order is refused and nothing changes, or it is accepted and goes its way. -/
theorem Tidy.enter_cases (h : f.Tidy) (o : Order) :
    (∃ reason, f.enter o = (f, [.rejected o.id o.user reason])) ∨
      f.contains o.id = false ∧ ∃ last, (last = [] ∨ last = [.added o.id o.user]) ∧
        f.enter o = (f.settled o,
          .accepted o.id o.user :: (f.trade o).trades.map .traded ++ last) := by
  by_cases hid : f.contains o.id
  · left
    exact ⟨.duplicateOrderId, by rw [enter, if_pos hid]⟩
  by_cases hfull : f.isFull
  · left
    exact ⟨.bookFull, by rw [enter, if_neg hid, if_pos hfull]⟩
  right
  rw [Bool.not_eq_true] at hid hfull
  refine ⟨hid, _, ?_, h.enter_admitted hid hfull⟩
  split
  · exact .inl rfl
  · exact .inr rfl

/-- Cancelling an order takes it off the book, or nothing changes. -/
theorem withdraw_cases (f : Plain) (id : OrderId) :
    f.withdraw id = (f, [.rejected id 0 .orderNotFound]) ∨
      f.withdraw id = ({ f with resting := f.resting.filter (·.id ≠ id) }, [.cancelled id]) := by
  by_cases hid : f.contains id
  · right
    rw [withdraw, cancel?, if_pos hid]
  · left
    rw [withdraw, cancel?, if_neg hid]

/-- A command is refused and nothing changes, or its order is accepted and goes its way, or its
target leaves. -/
theorem Tidy.execute_cases (h : f.Tidy) (c : Command) :
    (∃ id user reason, f.execute c = (f, [.rejected id user reason])) ∨
      (∃ o last, c.action = .submit o ∧ 0 < o.price ∧ 0 < o.qty ∧ f.contains o.id = false ∧
        (last = [] ∨ last = [.added o.id o.user]) ∧
        f.execute c = (f.settled o,
          .accepted o.id o.user :: (f.trade o).trades.map .traded ++ last)) ∨
      ∃ id, f.execute c =
        ({ f with resting := f.resting.filter (·.id ≠ id) }, [.cancelled id]) := by
  cases hfault : c.fault? with
  | some reason =>
    left
    cases haction : c.action with
    | submit o =>
      refine ⟨o.id, o.user, reason, ?_⟩
      simp only [execute, hfault, Command.rejection, haction]
    | cancel id =>
      refine ⟨0, 0, reason, ?_⟩
      simp only [execute, hfault, Command.rejection, haction]
  | none =>
    cases haction : c.action with
    | submit o =>
      have hgood : ¬ (o.id = 0 || o.price ≤ 0 || o.qty ≤ 0) = true := by
        intro hbad
        rw [Command.fault?, haction] at hfault
        simp only [hbad, if_true] at hfault
        cases hfault
      simp only [Bool.or_eq_true, decide_eq_true_eq, not_or] at hgood
      have hexecute : f.execute c = f.enter o := by simp only [execute, hfault, haction]
      rw [hexecute]
      rcases h.enter_cases o with ⟨reason, heq⟩ | ⟨hnew, last, hlast, heq⟩
      · exact .inl ⟨o.id, o.user, reason, heq⟩
      · right
        left
        exact ⟨o, last, rfl, Int64.not_le.1 hgood.1.2, Int64.not_le.1 hgood.2, hnew, hlast, heq⟩
    | cancel id =>
      have hexecute : f.execute c = f.withdraw id := by simp only [execute, hfault, haction]
      rw [hexecute]
      rcases f.withdraw_cases id with heq | heq
      · exact .inl ⟨id, 0, .orderNotFound, heq⟩
      · exact .inr (.inr ⟨id, heq⟩)

end Plain

namespace Book

variable {b : Book} {f : Plain}

/-! ## Books -/

/-- What may be refused is refused by both books, or granted by both. -/
theorem rel_cases {b' : Option Book} {f' : Option Plain} (h : Option.Rel Shows b' f') :
    (b' = none ∧ f' = none) ∨ ∃ b f, b' = some b ∧ f' = some f ∧ b.Shows f := by
  cases h with
  | none => exact .inl ⟨rfl, rfl⟩
  | some h => exact .inr ⟨_, _, rfl, rfl, h⟩

theorem Shows.enters (h : b.Shows f) (o : Order) :
    (b.enter o).1.Shows (f.enter o).1 ∧ (b.enter o).2 = (f.enter o).2 := by
  obtain ⟨hshows, htaker, htrades, -⟩ := h.trade o
  have hadd := hshows.add? (b.trade o).taker
  rw [Book.enter, Plain.enter, h.contains, h.isFull]
  by_cases hid : f.contains o.id
  · rw [if_pos hid, if_pos hid]
    exact ⟨h, rfl⟩
  rw [if_neg hid, if_neg hid]
  by_cases hfull : f.isFull
  · rw [if_pos hfull, if_pos hfull]
    exact ⟨h, rfl⟩
  rw [if_neg hfull, if_neg hfull]
  dsimp only
  rw [← htaker, htrades]
  rcases rel_cases hadd with ⟨hb, hf⟩ | ⟨b', f', hb, hf, hshows'⟩
  · rw [hb, hf]
    exact ⟨hshows, rfl⟩
  · rw [hb, hf]
    exact ⟨hshows', rfl⟩

theorem Shows.withdraws (h : b.Shows f) (id : OrderId) :
    (b.withdraw id).1.Shows (f.withdraw id).1 ∧ (b.withdraw id).2 = (f.withdraw id).2 := by
  rw [Book.withdraw, Plain.withdraw]
  rcases rel_cases (h.cancel? id) with ⟨hb, hf⟩ | ⟨b', f', hb, hf, hshows⟩
  · rw [hb, hf]
    exact ⟨h, rfl⟩
  · rw [hb, hf]
    exact ⟨hshows, rfl⟩

/-- One command has the same events and leaves the same orders. -/
theorem Shows.executes (h : b.Shows f) (c : Command) :
    (b.execute c).1.Shows (f.execute c).1 ∧ (b.execute c).2 = (f.execute c).2 := by
  rw [Book.execute, Plain.execute]
  cases c.fault? with
  | some reason => exact ⟨h, rfl⟩
  | none =>
    cases c.action with
    | submit o => exact h.enters o
    | cancel id => exact h.withdraws id

end Book

end Bourse
