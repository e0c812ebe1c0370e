import Bourse.Proofs.Symbol.Script
import Mathlib.Data.List.Induction

/-!
# Accounts of what an actor does

Any storage can keep an account of the operations that are asked of it and of what becomes of each
of them. An actor does the same with an account as without (`accounts_run`), so an account shows,
for every storage, what an actor asks for and in which order. A `Tally` is what an account comes to:
what was logged and made durable, and which events were offered to the outbox and recorded there.
-/

namespace Bourse

/-! ## Storages that keep an account -/

/-- The operations that were asked of a storage, and what became of each. -/
abbrev Account := List (LogOp × Except LogError Unit)

/-- A storage that keeps an account. -/
def Storage.accounted {σ : Type} (st : Storage σ) : Storage (σ × Account) where
  perform op s :=
    let (logs, result) := st.perform op s.1
    ((logs, s.2 ++ [(op, result)]), result)
  cancelled s := st.cancelled s.1

/-- An attempt whose state has an account with it comes to the same as one without. -/
def Accounts {τ τ' ε α : Type} (keep : τ → Account → τ') (x : Attempt τ ε α)
    (y : Attempt τ' ε α) : Prop :=
  ∃ t, y = (keep x.1 t, x.2)

section Accounts

variable {τ τ' ε α β : Type} {keep : τ → Account → τ'}

theorem Accounts.andThen {x : Attempt τ ε α} {y : Attempt τ' ε α} {f : τ → α → Attempt τ ε β}
    {g : τ' → α → Attempt τ' ε β} (h : Accounts keep x y)
    (hf : ∀ s t b, Accounts keep (f s b) (g (keep s t) b)) :
    Accounts keep (x.andThen f) (y.andThen g) := by
  obtain ⟨t, rfl⟩ := h
  rcases x with ⟨s, _ | b⟩
  · exact ⟨t, rfl⟩
  · exact hf s t b

theorem accounts_forEach {f : τ → α → Attempt τ ε Unit} {g : τ' → α → Attempt τ' ε Unit}
    (hf : ∀ s t x, Accounts keep (f s x) (g (keep s t) x)) (s : τ) (t : Account) (l : List α) :
    Accounts keep (Attempt.forEach f s l) (Attempt.forEach g (keep s t) l) := by
  induction l generalizing s t with
  | nil => exact ⟨t, rfl⟩
  | cons x rest ih =>
    rw [Attempt.forEach_cons, Attempt.forEach_cons]
    exact (hf s t x).andThen fun s t _ => ih s t

end Accounts

namespace Actor

variable {σ : Type}

/-- The actor on a storage that keeps an account, with the account so far. -/
def accounted (a : Actor σ) (t : Account) : Actor (σ × Account) :=
  { storage := a.storage.accounted, format := a.format, batchMax := a.batchMax,
    logs := (a.logs, t), book := a.book, lastSeq := a.lastSeq, commands := a.commands,
    batches := a.batches }

theorem accounts_perform (a : Actor σ) (t : Account) (op : LogOp)
    (ofLog : LogError → ActorError) :
    Accounts accounted (a.perform op ofLog) ((a.accounted t).perform op ofLog) :=
  ⟨_, rfl⟩

theorem accounts_apply (a : Actor σ) (t : Account) (entry : Seq × Command) :
    Accounts accounted (a.apply entry) ((a.accounted t).apply entry) := by
  have hput : Accounts Prod.mk
      (Emitter.record (fun s e => a.storage.perform (.appendEvent e) s) a.logs entry.1
        entry.2.request (a.book.execute entry.2).2)
      (Emitter.record (fun s e => (a.accounted t).storage.perform (.appendEvent e) s)
        (a.accounted t).logs entry.1 entry.2.request ((a.accounted t).book.execute entry.2).2) := by
    rw [Emitter.record_eq, Emitter.record_eq]
    exact (accounts_forEach (fun s t e => ⟨_, rfl⟩) a.logs t _).andThen fun s t _ => ⟨t, rfl⟩
  obtain ⟨t', hput⟩ := hput
  refine ⟨t', ?_⟩
  unfold apply
  dsimp only
  rw [hput]
  rfl

theorem accounts_commit (a : Actor σ) (t : Account) (batch : List Command) :
    Accounts accounted (a.commit batch) ((a.accounted t).commit batch) := by
  refine Accounts.andThen (Accounts.andThen (Accounts.andThen (Accounts.andThen ?_ ?_) ?_) ?_) ?_
  · exact accounts_forEach (fun a t _ => accounts_perform a t _ _) a t _
  · exact fun a t _ => accounts_perform a t _ _
  · exact fun a t _ => accounts_forEach accounts_apply _ t _
  · exact fun a t _ => accounts_perform a t _ _
  · exact fun a t _ => ⟨t, rfl⟩

theorem accounts_stop (a : Actor σ) (t : Account) (exit : ActorExit) :
    Accounts accounted (a.stop exit) ((a.accounted t).stop exit) := by
  refine Accounts.andThen (Accounts.andThen ?_ ?_) ?_
  · exact accounts_perform a t _ _
  · exact fun a t _ => accounts_perform a t _ _
  · exact fun a t _ => ⟨t, rfl⟩

/-- An actor does the same with an account as without. -/
theorem accounts_run (a : Actor σ) (t : Account) (queue : List Command)
    (arrivals : List (List Command)) :
    Accounts accounted (a.run queue arrivals) ((a.accounted t).run queue arrivals) := by
  fun_induction Actor.run a queue arrivals generalizing t with
  | case1 a queue arrivals hcancelled =>
    have hcancelled' : (a.accounted t).storage.cancelled (a.accounted t).logs = true := hcancelled
    rw [run.eq_def, if_pos hcancelled']
    exact accounts_stop a t _
  | case2 a hcancelled =>
    have hcancelled' : ¬ (a.accounted t).storage.cancelled (a.accounted t).logs = true := hcancelled
    rw [run, if_neg hcancelled']
    exact accounts_stop a t _
  | case3 a hcancelled more arrivals ih =>
    have hcancelled' : ¬ (a.accounted t).storage.cancelled (a.accounted t).logs = true := hcancelled
    rw [run, if_neg hcancelled']
    exact ih t
  | case4 a arrivals hcancelled c rest a' e hcommit =>
    have hcancelled' : ¬ (a.accounted t).storage.cancelled (a.accounted t).logs = true := hcancelled
    obtain ⟨t', h⟩ := accounts_commit a t ((c :: rest).take a.batchSize)
    change (a.accounted t).commit ((c :: rest).take (a.accounted t).batchSize) = _ at h
    rw [hcommit] at h
    rw [run, if_neg hcancelled', h]
    exact ⟨t', rfl⟩
  | case5 a arrivals hcancelled c rest a' hcommit ih =>
    have hcancelled' : ¬ (a.accounted t).storage.cancelled (a.accounted t).logs = true := hcancelled
    obtain ⟨t', h⟩ := accounts_commit a t ((c :: rest).take a.batchSize)
    change (a.accounted t).commit ((c :: rest).take (a.accounted t).batchSize) = _ at h
    rw [hcommit] at h
    rw [run, if_neg hcancelled', h]
    exact ih t'

end Actor

/-! ## What an account comes to -/

/-- What an account comes to. -/
structure Tally where
  /-- The records that were added to the log. -/
  logged : List Bytes := []
  /-- What was in the log when it was last flushed. -/
  secured : List Bytes := []
  /-- The events that the outbox was asked to add, including one that it failed to. -/
  offered : List Event := []
  /-- The events that were added to the outbox. -/
  recorded : List Event := []
  /-- What was in the outbox when it was last flushed. -/
  settled : List Event := []

namespace Tally

/-- Takes note of an operation. -/
def note (y : Tally) : LogOp × Except LogError Unit → Tally
  | (.appendCommand payload, .ok _) => { y with logged := y.logged ++ [payload] }
  | (.flushCommands, .ok _) => { y with secured := y.logged }
  | (.appendEvent e, .ok _) =>
    { y with offered := y.offered ++ [e], recorded := y.recorded ++ [e] }
  | (.appendEvent e, .error _) => { y with offered := y.offered ++ [e] }
  | (.flushEvents, .ok _) => { y with settled := y.recorded }
  | (_, .error _) => y

end Tally

namespace Account

/-- The account of operations none of which failed. -/
def done (ops : List LogOp) : Account :=
  ops.map fun op => (op, .ok ())

def tally (t : Account) : Tally :=
  t.foldl Tally.note {}

/-- This holds at any time. -/
def Throughout (P : Tally → Prop) (t : Account) : Prop :=
  ∀ before, before <+: t → P (tally before)

@[simp] theorem tally_concat (t : Account) (x : LogOp × Except LogError Unit) :
    tally (t ++ [x]) = (tally t).note x := by
  simp [tally]

theorem done_append (ops more : List LogOp) : done (ops ++ more) = done ops ++ done more :=
  List.map_append ..

theorem done_concat (ops : List LogOp) (op : LogOp) :
    done (ops ++ [op]) = done ops ++ [(op, .ok ())] :=
  done_append ops [op]

theorem tally_appendCommand (t : Account) (ps : List Bytes) :
    tally (t ++ done (ps.map .appendCommand)) =
      { tally t with logged := (tally t).logged ++ ps } := by
  induction ps using List.reverseRecOn with
  | nil => simp [done]
  | append_singleton ps p ih =>
    rw [List.map_append, List.map_singleton, done_concat, ← List.append_assoc, tally_concat, ih]
    simp [Tally.note]

theorem tally_appendEvent (t : Account) (es : List Event) :
    tally (t ++ done (es.map .appendEvent)) =
      { tally t with
        offered := (tally t).offered ++ es
        recorded := (tally t).recorded ++ es } := by
  induction es using List.reverseRecOn with
  | nil => simp [done]
  | append_singleton es e ih =>
    rw [List.map_append, List.map_singleton, done_concat, ← List.append_assoc, tally_concat, ih]
    simp [Tally.note]

theorem Throughout.concat {P : Tally → Prop} {t : Account} (h : Throughout P t)
    {x : LogOp × Except LogError Unit} (hx : P (tally (t ++ [x]))) : Throughout P (t ++ [x]) := by
  intro before hbefore
  rcases List.prefix_concat_iff.1 hbefore with rfl | hbefore
  · exact hx
  · exact h before hbefore

theorem Throughout.done {P : Tally → Prop} {t : Account} (h : Throughout P t) {ops : List LogOp}
    (hops : ∀ front, front <+: ops → P (tally (t ++ done front))) :
    Throughout P (t ++ Account.done ops) := by
  induction ops using List.reverseRecOn with
  | nil => simpa [Account.done] using h
  | append_singleton ops op ih =>
    have hlast := hops _ (List.prefix_refl _)
    rw [done_concat, ← List.append_assoc] at hlast ⊢
    exact (ih fun front hfront => hops front (hfront.trans (List.prefix_append ..))).concat hlast

end Account

theorem Storage.perform_accounted {σ : Type} {st : Storage σ} {op : LogOp} {s s' : σ × Account}
    {result : Except LogError Unit} (h : st.accounted.perform op s = (s', result)) :
    s'.2 = s.2 ++ [(op, result)] := by
  obtain ⟨rfl, rfl⟩ := Prod.mk.inj h
  rfl

theorem Storage.carry_accounted {σ : Type} {st : Storage σ} {ops : List LogOp} {s s' : σ × Account}
    (h : st.accounted.carry ops s = (s', .ok ())) : s'.2 = s.2 ++ Account.done ops := by
  induction ops generalizing s with
  | nil =>
    obtain ⟨rfl, -⟩ := Prod.mk.inj h
    simp [Account.done]
  | cons op rest ih =>
    rw [Storage.carry, Attempt.forEach_cons] at h
    rcases hop : st.accounted.perform op s with ⟨s₁, _ | _⟩
    · rw [hop] at h
      cases (Prod.mk.inj h).2
    · rw [hop] at h
      rw [ih h, perform_accounted hop]
      simp [Account.done]

/-- The account when an operation fails and those before it did not. -/
theorem Storage.account_of_failure {σ : Type} {st : Storage σ} {front : List LogOp} {op : LogOp}
    {s s₁ s' : σ × Account} {cause : LogError} (hfront : st.accounted.carry front s = (s₁, .ok ()))
    (hop : st.accounted.perform op s₁ = (s', .error cause)) :
    s'.2 = s.2 ++ Account.done front ++ [(op, .error cause)] := by
  rw [perform_accounted hop, carry_accounted hfront]

end Bourse
