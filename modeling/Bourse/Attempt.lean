/-!
# Operations that may fail half-way

An operation on a log changes it even when it fails in the end. An `Attempt` is what such an
operation leaves: the state in any case, and either a result or the reason of the failure.
-/

namespace Bourse

/-- The state after an operation, with its result or the reason why there is none. -/
abbrev Attempt (σ ε α : Type) := σ × Except ε α

namespace Attempt

variable {σ τ ε δ α β : Type}

/-- Goes on with the state and the result, unless the operation failed. -/
def andThen (x : Attempt σ ε α) (f : σ → α → Attempt σ ε β) : Attempt σ ε β :=
  match x with
  | (s, .ok a) => f s a
  | (s, .error e) => (s, .error e)

/-- Sees the state as part of another one. -/
def within (x : Attempt σ ε α) (f : σ → τ) : Attempt τ ε α :=
  (f x.1, x.2)

/-- Gives the reason of a failure in other words. -/
def orFail (x : Attempt σ ε α) (f : ε → δ) : Attempt σ δ α :=
  (x.1, x.2.mapError f)

/-- Goes through a list, changing the state at every entry, until a step fails. -/
def forEach (f : σ → α → Attempt σ ε Unit) (s : σ) : List α → Attempt σ ε Unit
  | [] => (s, .ok ())
  | a :: rest =>
    match f s a with
    | (s, .ok ()) => forEach f s rest
    | (s, .error e) => (s, .error e)

theorem forEach_cons (f : σ → α → Attempt σ ε Unit) (s : σ) (a : α) (rest : List α) :
    forEach f s (a :: rest) = (f s a).andThen fun s _ => forEach f s rest := by
  rw [forEach]
  rcases f s a with ⟨s', _ | _⟩ <;> rfl

theorem forEach_append (f : σ → α → Attempt σ ε Unit) (s : σ) (l m : List α) :
    forEach f s (l ++ m) = (forEach f s l).andThen fun s _ => forEach f s m := by
  induction l generalizing s with
  | nil => rfl
  | cons a l ih =>
    simp only [List.cons_append, forEach]
    split
    · exact ih _
    · rfl

/-- What every step keeps is kept, also when a step fails. -/
theorem forEach_keeps {P : σ → Prop} {f : σ → α → Attempt σ ε Unit}
    (hstep : ∀ s a, P s → P (f s a).1) {s : σ} (h : P s) (l : List α) : P (forEach f s l).1 := by
  induction l generalizing s with
  | nil => exact h
  | cons a rest ih =>
    have hfirst := hstep s a h
    rw [forEach]
    split
    · next heq =>
      rw [heq] at hfirst
      exact ih hfirst
    · next heq =>
      rw [heq] at hfirst
      exact hfirst

end Attempt

end Bourse
