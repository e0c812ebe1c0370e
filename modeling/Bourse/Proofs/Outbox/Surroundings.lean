import Bourse.Proofs.Lifetime.Publishing

/-!
# A publisher and its surroundings

All that a publisher does to its surroundings is to hand on events and to store cursors. What these
two keep is kept by any number of turns (`Outlet.Keeps`), and what makes no difference to them makes
none to the publisher (`Outlet.Ignores`).
-/

namespace Bourse.Publisher

variable {σ : Type} {o : Outlet σ} {P : σ → Prop} {g : σ → σ}

/-! ## What a publisher leaves alone -/

/-- Neither handing an event on nor storing the cursor makes a difference to a property. -/
structure Outlet.Keeps (o : Outlet σ) (P : σ → Prop) : Prop where
  publish : ∀ s e, P s → P (o.publish s e).1
  store : ∀ s offset, P s → P (o.store s offset).1

namespace Outlet.Keeps

theorem start {s s' : σ} {p : Progress} (h : o.Keeps P) (hs : P s)
    (hstart : Publisher.start o s = some (p, s')) : P s' := by
  unfold Publisher.start at hstart
  split at hstart
  · cases hstart
  · cases hstart
    split
    · exact h.store _ _ hs
    · exact hs

theorem handle (h : o.Keeps P) (f : Format) (state : Progress × σ) (r : Log.Record)
    (hs : P state.2) : P (Publisher.handle o f state r).1.2 := by
  obtain ⟨p, s⟩ := state
  unfold Publisher.handle
  dsimp only
  split
  · exact hs
  · next e _ =>
    split
    · exact hs
    · have hpublished := h.publish s e hs
      split
      · exact hpublished
      · exact hpublished

theorem save (h : o.Keeps P) (p : Progress) {s : σ} (hs : P s) : P (Publisher.save o p s).2 := by
  unfold Publisher.save
  split
  · exact hs
  · exact h.store _ _ hs

theorem turn (h : o.Keeps P) (f : Format) (maxPayload : Nat) (p : Progress) {s : σ} (hs : P s) :
    P (Publisher.turn o f maxPayload p s).2.1 := by
  have hsaved (records : List Log.Record) :
      P (Publisher.save o (Attempt.forEach (Publisher.handle o f) (p, s) records).1.1
        (Attempt.forEach (Publisher.handle o f) (p, s) records).1.2).2 :=
    h.save _ (Attempt.forEach_keeps (P := fun state : Progress × σ => P state.2) (h.handle f) hs
      records)
  unfold Publisher.turn
  dsimp only
  split
  · exact hs
  · split
    all_goals exact hsaved _

theorem run (h : o.Keeps P) (f : Format) (maxPayload turns : Nat) (p : Option Progress) {s : σ}
    (hs : P s) : P (Publisher.run o f maxPayload turns p s).1 := by
  induction turns generalizing p s with
  | zero => exact hs
  | succ n ih =>
    cases p with
    | none =>
      rw [Publisher.run]
      split
      · next hstart => exact ih _ (h.start hs hstart)
      · split
        · exact hs
        · exact ih none hs
    | some p =>
      have hturn := h.turn f maxPayload p hs
      rw [Publisher.run]
      split
      · next heq =>
        rw [heq] at hturn
        exact ih _ hturn
      · next heq =>
        rw [heq] at hturn
        exact hturn

end Outlet.Keeps

/-! ## What a publisher cannot see -/

/-- A change of the surroundings that no publisher can see, and that stays when it does something. -/
structure Outlet.Ignores (o : Outlet σ) (g : σ → σ) : Prop where
  outbox : ∀ s, o.outbox (g s) = o.outbox s
  cursor : ∀ s, o.cursor (g s) = o.cursor s
  cancelled : ∀ s, o.cancelled (g s) = o.cancelled s
  publish : ∀ s e, o.publish (g s) e = (g (o.publish s e).1, (o.publish s e).2)
  store : ∀ s offset, o.store (g s) offset = (g (o.store s offset).1, (o.store s offset).2)

namespace Outlet.Ignores

theorem start (h : o.Ignores g) (s : σ) :
    Publisher.start o (g s) = (Publisher.start o s).map fun (p, s') => (p, g s') := by
  unfold Publisher.start
  rw [h.cursor, h.outbox]
  cases Cursor.load (o.cursor s) with
  | error e => rfl
  | ok cursor =>
    dsimp only
    split
    · rw [h.store]
      rfl
    · rfl

theorem handle (h : o.Ignores g) (f : Format) (p : Progress) (s : σ) (r : Log.Record) :
    Publisher.handle o f (p, g s) r =
      (Publisher.handle o f (p, s) r).within fun (p', s') => (p', g s') := by
  cases hdecode : f.decodeEvent r.payload with
  | error cause => simp only [Publisher.handle, hdecode, Attempt.within]
  | ok e =>
    cases he : e.isCommandEnd with
    | true =>
      rw [handle_of_end hdecode he, handle_of_end hdecode he]
      rfl
    | false =>
      have hpublish := h.publish s e
      rcases hseen : o.publish s e with ⟨s', taken⟩
      rw [hseen] at hpublish
      cases taken with
      | true =>
        rw [handle_of_taken hdecode he hpublish, handle_of_taken hdecode he hseen]
        rfl
      | false =>
        rw [handle_of_refused hdecode he hpublish, handle_of_refused hdecode he hseen]
        rfl

theorem forEach (h : o.Ignores g) (f : Format) (p : Progress) (s : σ) (rs : List Log.Record) :
    Attempt.forEach (Publisher.handle o f) (p, g s) rs =
      (Attempt.forEach (Publisher.handle o f) (p, s) rs).within fun (p', s') => (p', g s') := by
  induction rs generalizing p s with
  | nil => rfl
  | cons r rest ih =>
    rw [Attempt.forEach_cons, Attempt.forEach_cons, h.handle]
    rcases Publisher.handle o f (p, s) r with ⟨⟨p', s'⟩, e | _⟩
    · rfl
    · exact ih p' s'

theorem save (h : o.Ignores g) (p : Progress) (s : σ) :
    Publisher.save o p (g s) = ((Publisher.save o p s).1, g (Publisher.save o p s).2) := by
  unfold Publisher.save
  split
  · rfl
  · rw [h.store]

theorem turn (h : o.Ignores g) (f : Format) (maxPayload : Nat) (p : Progress) (s : σ) :
    Publisher.turn o f maxPayload p (g s) =
      ((Publisher.turn o f maxPayload p s).1, g (Publisher.turn o f maxPayload p s).2.1,
        (Publisher.turn o f maxPayload p s).2.2) := by
  unfold Publisher.turn
  rw [h.outbox, h.cancelled]
  dsimp only
  split
  · rfl
  · rw [h.forEach, Attempt.within]
    dsimp only
    rw [h.save]
    split <;> rfl

end Outlet.Ignores

end Bourse.Publisher
