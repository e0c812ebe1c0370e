import Bourse.Proofs.Symbol.Journal

/-!
# What an actor asks of its storage

Committing a batch comes down to a list of operations that is known before the first of them is
carried out: its `script`. The actor goes through the script until an operation fails, and it
succeeds exactly if none does and no command has too many events. Whatever a storage guarantees
along its scripts, it therefore guarantees for every actor.
-/

namespace Bourse

instance Book.decidableModest (b : Book) : (cs : List Command) → Decidable (b.Modest cs)
  | [] => .isTrue trivial
  | c :: rest =>
    have := Book.decidableModest (b.execute c).1 rest
    inferInstanceAs (Decidable (_ ∧ _))

/-- How an actor reports that an operation failed. -/
def LogOp.failure : LogOp → LogError → ActorError
  | .appendCommand _ => .commandAppend
  | .flushCommands => .commandFlush
  | .appendEvent _ => .outboxAppend
  | .flushEvents => .outboxFlush

/-- Carries out operations one after the other until one fails. -/
def Storage.carry {σ : Type} (st : Storage σ) (ops : List LogOp) (s : σ) :
    Attempt σ LogError Unit :=
  Attempt.forEach (fun s op => st.perform op s) s ops

/-- Operations are carried out up to one that fails. -/
theorem Storage.carry_error {σ : Type} {st : Storage σ} {ops : List LogOp} {s s' : σ}
    {cause : LogError} (h : st.carry ops s = (s', .error cause)) :
    ∃ front op s₁, front ++ [op] <+: ops ∧ st.carry front s = (s₁, .ok ()) ∧
      st.perform op s₁ = (s', .error cause) := by
  induction ops generalizing s with
  | nil => cases (Prod.mk.inj h).2
  | cons op rest ih =>
    rw [Storage.carry, Attempt.forEach_cons] at h
    rcases hop : st.perform op s with ⟨s₁, e | _⟩
    · rw [hop] at h
      obtain ⟨rfl, he⟩ := Prod.mk.inj h
      injection he with he
      subst he
      exact ⟨[], op, s, List.prefix_append [op] rest, rfl, hop⟩
    · rw [hop] at h
      obtain ⟨front, op', s₂, hfront, hcarry, hfail⟩ := ih h
      refine ⟨op :: front, op', s₂, (List.prefix_cons_inj op).2 hfront, ?_, hfail⟩
      rw [Storage.carry, Attempt.forEach_cons, hop]
      exact hcarry

namespace Actor

variable {σ : Type}

/-- The operations that log commands. -/
def logOps (f : Format) (entries : List (Seq × Command)) : List LogOp :=
  (Journal.payloads f entries).map .appendCommand

/-- The operations that record the events of commands. -/
def eventOps (b : Book) (entries : List (Seq × Command)) : List LogOp :=
  (Journal.events b entries).map .appendEvent

/-- The operations by which an actor commits a batch. -/
def script (a : Actor σ) (batch : List Command) : List LogOp :=
  let entries := number a.lastSeq batch
  logOps a.format entries ++ [.flushCommands] ++ eventOps a.book entries ++
    if a.book.Modest batch then [.flushEvents] else []

/-- The actor with other logs. -/
def withLogs (a : Actor σ) (logs : σ) : Actor σ :=
  { a with logs }

theorem carry_append (st : Storage σ) (ops more : List LogOp) (s : σ) :
    st.carry (ops ++ more) s = (st.carry ops s).andThen fun s _ => st.carry more s :=
  Attempt.forEach_append ..

theorem carry_singleton (st : Storage σ) (op : LogOp) (s : σ) :
    st.carry [op] s = st.perform op s := by
  rw [Storage.carry, Attempt.forEach]
  rcases st.perform op s with ⟨s', _ | _⟩ <;> rfl

/-- Putting events one after the other is carrying out the operations that append them. -/
theorem carry_appendEvent (st : Storage σ) (es : List Event) (s : σ) :
    st.carry (es.map .appendEvent) s =
      Attempt.forEach (fun s e => st.perform (.appendEvent e) s) s es := by
  induction es generalizing s with
  | nil => rfl
  | cons e rest ih =>
    rw [Storage.carry, List.map_cons, Attempt.forEach_cons, Attempt.forEach_cons]
    congr 1
    funext s _
    exact ih s

/-! ## Up to the operation that fails -/

/-- How an actor fares with these operations on a storage. It gets through all of them and is then
like `next`; or it stops at one that fails and reports that; or it gets through all of them and
refuses a command with too many events, unless it is `fine`. What is `kept` holds of an actor that
fails. -/
inductive Fares (st : Storage σ) (logs : σ) (ops : List LogOp) (kept : Actor σ → Prop) (fine : Prop)
    (next : Actor σ) : Attempt (Actor σ) ActorError Unit → Prop
  | passes {s : σ} (carried : st.carry ops logs = (s, .ok ())) (isFine : fine) :
      Fares st logs ops kept fine next (next.withLogs s, .ok ())
  | stops {front : List LogOp} {op : LogOp} {s s' : σ} {cause : LogError} {mid : Actor σ}
      (reached : front ++ [op] <+: ops) (carried : st.carry front logs = (s, .ok ()))
      (failed : st.perform op s = (s', .error cause)) (isKept : kept (mid.withLogs s')) :
      Fares st logs ops kept fine next (mid.withLogs s', .error (op.failure cause))
  | refuses {s : σ} {mid : Actor σ} (carried : st.carry ops logs = (s, .ok ()))
      (notFine : ¬ fine) (isKept : kept (mid.withLogs s)) :
      Fares st logs ops kept fine next (mid.withLogs s, .error (.outboxAppend .tooManyEvents))

section Fares

variable {st : Storage σ} {logs : σ} {a next next' : Actor σ} {ops more : List LogOp}
  {kept : Actor σ → Prop} {fine fine' : Prop} {x : Attempt (Actor σ) ActorError Unit}
  {f : Actor σ → Unit → Attempt (Actor σ) ActorError Unit}

theorem carry_append_ok {s s₁ s₂ : σ} (h : st.carry ops s = (s₁, .ok ()))
    (h' : st.carry more s₁ = (s₂, .ok ())) : st.carry (ops ++ more) s = (s₂, .ok ()) := by
  rw [carry_append, h]
  exact h'

/-- One thing after the other. The second is not reached when the first is not fine. -/
theorem Fares.andThen [Decidable fine] (hx : Fares st logs ops kept fine next x)
    (hf : fine → ∀ s, Fares st s more kept fine' next' (f (next.withLogs s) ())) :
    Fares st logs (ops ++ if fine then more else []) kept (fine ∧ fine') next' (x.andThen f) := by
  cases hx with
  | @passes s carried isFine =>
    rw [if_pos isFine]
    have hnext := hf isFine s
    simp only [Attempt.andThen]
    generalize f (next.withLogs s) () = y at hnext
    cases hnext with
    | passes carried' isFine' => exact .passes (carry_append_ok carried carried') ⟨isFine, isFine'⟩
    | stops reached carried' failed isKept =>
      refine .stops ?_ (carry_append_ok carried carried') failed isKept
      rw [List.append_assoc]
      exact (List.prefix_append_right_inj ops).2 reached
    | refuses carried' notFine isKept =>
      exact .refuses (carry_append_ok carried carried') (fun h => notFine h.2) isKept
  | stops reached carried failed isKept =>
    exact .stops (reached.trans (List.prefix_append ..)) carried failed isKept
  | refuses carried notFine isKept =>
    rw [if_neg notFine, List.append_nil]
    exact .refuses carried (fun h => notFine h.1) isKept

/-- The same when nothing but an operation can fail in the first part. -/
theorem Fares.andThen_of_true (hx : Fares st logs ops kept True next x)
    (hf : ∀ s, Fares st s more kept fine next' (f (next.withLogs s) ())) :
    Fares st logs (ops ++ more) kept fine next' (x.andThen f) := by
  have h := hx.andThen fun _ => hf
  rwa [if_pos trivial, true_and] at h

/-- What an actor becomes does not depend on the logs that it had. -/
theorem Fares.forget {s : σ} (h : Fares st logs ops kept fine (next.withLogs s) x) :
    Fares st logs ops kept fine next x := by
  cases h with
  | passes carried isFine => exact .passes carried isFine
  | stops reached carried failed isKept => exact .stops reached carried failed isKept
  | refuses carried notFine isKept => exact .refuses carried notFine isKept

theorem fares_nil (a : Actor σ) : Fares a.storage a.logs [] kept True a (a, .ok ()) :=
  .passes (s := a.logs) rfl trivial

theorem fares_perform (op : LogOp) (hkept : ∀ s, kept (a.withLogs s)) :
    Fares a.storage a.logs [op] kept True a (a.perform op op.failure) := by
  unfold perform
  rcases hop : a.storage.perform op a.logs with ⟨s, e | _⟩
  · have hnone : a.storage.carry [] a.logs = (a.logs, .ok ()) := rfl
    refine .stops ?_ hnone hop (hkept s)
    exact List.prefix_refl [op]
  · refine .passes (s := s) ?_ trivial
    rw [carry_singleton, hop]

/-- Logging commands. -/
theorem fares_log (entries : List (Seq × Command)) (hkept : ∀ s, kept (a.withLogs s)) :
    Fares a.storage a.logs (logOps a.format entries) kept True a
      (Attempt.forEach log a entries) := by
  induction entries generalizing a with
  | nil => exact fares_nil a
  | cons entry rest ih =>
    rw [Attempt.forEach_cons]
    have hfirst := fares_perform (.appendCommand (a.format.encodeCommand entry.1 entry.2)) hkept
    exact hfirst.andThen_of_true fun s => (ih (a := a.withLogs s) hkept).forget

/-- The actor after commands were executed. -/
def advanced (a : Actor σ) (cs : List Command) : Actor σ :=
  { a with book := a.book.executeAll cs }

/-- Executing a command. When its events cannot be recorded the book is ahead of the outbox. -/
theorem fares_apply (entry : Seq × Command)
    (hkept : ∀ s, kept ((a.advanced [entry.2]).withLogs s)) :
    Fares a.storage a.logs ((Journal.group a.book entry).map .appendEvent) kept
      ((a.book.execute entry.2).2.length ≤ maxEvents) (a.advanced [entry.2]) (a.apply entry) := by
  have hrecord : Emitter.record (fun s e => a.storage.perform (.appendEvent e) s) a.logs entry.1
      entry.2.request (a.book.execute entry.2).2 =
      (a.storage.carry ((Journal.group a.book entry).map .appendEvent) a.logs).andThen
        fun s _ => (s, Emitter.outcome 0 (a.book.execute entry.2).2) := by
    rw [Emitter.record_eq, carry_appendEvent]
    rfl
  unfold apply
  dsimp only
  rw [hrecord]
  rcases hcarried : a.storage.carry ((Journal.group a.book entry).map .appendEvent) a.logs with
    ⟨s, cause | _⟩
  · obtain ⟨front, op, s₁, hreached, hfront, hfailed⟩ := Storage.carry_error hcarried
    obtain ⟨e, -, rfl⟩ := List.mem_map.1
      (hreached.subset (List.mem_append_right _ (List.mem_singleton_self op)))
    exact .stops hreached hfront hfailed (hkept s)
  · simp only [Attempt.andThen, Emitter.outcome, Nat.zero_add]
    split
    · next hle => exact .passes hcarried hle
    · next hlt => exact .refuses hcarried hlt (hkept s)

/-- Executing commands. -/
theorem fares_applyAll (last : Seq) (cs : List Command)
    (hkept : ∀ ds s, kept ((a.advanced ds).withLogs s)) :
    Fares a.storage a.logs (eventOps a.book (number last cs)) kept (a.book.Modest cs)
      (a.advanced cs) (Attempt.forEach apply a (number last cs)) := by
  induction cs generalizing a last with
  | nil => exact fares_nil a
  | cons c rest ih =>
    have hrest (s : σ) : Fares a.storage s
        (eventOps (a.book.execute c).1 (number (last + 1) rest)) kept
        ((a.book.execute c).1.Modest rest) (a.advanced (c :: rest))
        (Attempt.forEach apply ((a.advanced [c]).withLogs s) (number (last + 1) rest)) :=
      (ih (a := (a.advanced [c]).withLogs s) (last + 1) fun ds s => hkept (c :: ds) s).forget
    have hops : eventOps a.book (number last (c :: rest)) =
        (Journal.group a.book (last + 1, c)).map .appendEvent ++
          if (a.book.execute c).2.length ≤ maxEvents then
            eventOps (a.book.execute c).1 (number (last + 1) rest) else [] := by
      rw [eventOps, Journal.events_cons, List.map_append]
      split <;> rfl
    rw [hops, number, Attempt.forEach_cons]
    exact (fares_apply (last + 1, c) (hkept [c])).andThen fun _ => hrest

/-- The actor once a batch is committed. -/
def committed (a : Actor σ) (batch : List Command) : Actor σ :=
  { a with
    book := a.book.executeAll batch
    lastSeq := a.lastSeq + UInt64.ofNat batch.length
    commands := a.commands + batch.length
    batches := a.batches + 1 }

/-! ## Committing a batch -/

/-- Logs a batch of commands and makes it durable. -/
def secure (a : Actor σ) (batch : List Command) : Attempt (Actor σ) ActorError Unit :=
  (Attempt.forEach log a (number a.lastSeq batch)).andThen fun a _ =>
    a.perform .flushCommands .commandFlush

/-- Executes a batch that was logged behind `last` and makes its events durable. -/
def settle (a : Actor σ) (last : Seq) (batch : List Command) : Attempt (Actor σ) ActorError Unit :=
  ((Attempt.forEach apply { a with lastSeq := a.lastSeq + UInt64.ofNat batch.length }
    (number last batch)).andThen fun a _ => a.perform .flushEvents .outboxFlush).andThen fun a _ =>
      ({ a with commands := a.commands + batch.length, batches := a.batches + 1 }, .ok ())

theorem fares_secure (kept : Actor σ → Prop) (batch : List Command)
    (hkept : ∀ s, kept (a.withLogs s)) :
    Fares a.storage a.logs (logOps a.format (number a.lastSeq batch) ++ [.flushCommands]) kept True
      a (a.secure batch) :=
  (fares_log _ hkept).andThen_of_true fun s =>
    (fares_perform (a := a.withLogs s) .flushCommands hkept).forget

theorem fares_settle (kept : Actor σ → Prop) (batch : List Command)
    (hkept : ∀ b : Actor σ, b.lastSeq = a.lastSeq + UInt64.ofNat batch.length → kept b) :
    Fares a.storage a.logs
      (eventOps a.book (number a.lastSeq batch) ++
        if a.book.Modest batch then [.flushEvents] else [])
      kept (a.book.Modest batch) (a.committed batch) (a.settle a.lastSeq batch) := by
  let numbered : Actor σ := { a with lastSeq := a.lastSeq + UInt64.ofNat batch.length }
  have happlied := fares_applyAll (a := numbered) a.lastSeq batch fun ds s => hkept _ rfl
  have hflushed := happlied.andThen (f := fun a _ => a.perform .flushEvents .outboxFlush)
    fun _ s => (fares_perform (a := (numbered.advanced batch).withLogs s) .flushEvents
      fun s => hkept _ rfl).forget
  have hcount (s : σ) : Fares a.storage s [] kept True (a.committed batch)
      ((a.committed batch).withLogs s, .ok ()) :=
    .passes rfl trivial
  have hall := hflushed.andThen (f := fun a _ =>
    ({ a with commands := a.commands + batch.length, batches := a.batches + 1 }, .ok ()))
    fun _ => hcount
  simp only [and_true, ite_self, List.append_nil] at hall
  exact hall

/-- A batch is secured first and settled then. -/
theorem commit_eq (a : Actor σ) (batch : List Command) :
    a.commit batch = (a.secure batch).andThen fun b _ => b.settle a.lastSeq batch := by
  show ((((a.secure batch).andThen _).andThen _).andThen _) = _
  rcases a.secure batch with ⟨b, _ | _⟩ <;> rfl

/-- Committing a batch goes through its script. -/
theorem fares_commit (a : Actor σ) (batch : List Command) :
    Fares a.storage a.logs (a.script batch) (fun _ => True) (a.book.Modest batch)
      (a.committed batch) (a.commit batch) := by
  rw [commit_eq, script, List.append_assoc]
  exact (fares_secure _ batch fun _ => trivial).andThen_of_true fun s =>
    (fares_settle (a := a.withLogs s) _ batch fun _ _ => trivial).forget

/-- An actor that stops flushes both logs. -/
theorem fares_stop (kept : Actor σ → Prop) (hkept : ∀ s, kept (a.withLogs s)) :
    Fares a.storage a.logs [.flushCommands, .flushEvents] kept True a
      ((a.perform .flushCommands .commandFlush).andThen fun a _ =>
        a.perform .flushEvents .outboxFlush) :=
  (fares_perform .flushCommands hkept).andThen_of_true fun s =>
    (fares_perform (a := a.withLogs s) .flushEvents hkept).forget

end Fares

/-! ## Success and failure -/

/-- What an actor does goes through these operations and fails if one of them does, or if it is
not `fine`; otherwise the actor is then like `next`, apart from its logs. If no operation fails, the
one thing that can is a command with too many events. -/
structure Through (a : Actor σ) (ops : List LogOp) (fine : Prop) (next : Actor σ)
    (x : Attempt (Actor σ) ActorError Unit) : Prop where
  logs : x.1.logs = (a.storage.carry ops a.logs).1
  ok : x.2 = .ok () ↔ (a.storage.carry ops a.logs).2 = .ok () ∧ fine
  after : x.2 = .ok () → x.1 = next.withLogs x.1.logs
  refused : (a.storage.carry ops a.logs).2 = .ok () → ¬ fine →
    x.2 = .error (.outboxAppend .tooManyEvents)

theorem Fares.through {a next : Actor σ} {ops : List LogOp} {kept : Actor σ → Prop} {fine : Prop}
    {x : Attempt (Actor σ) ActorError Unit} (h : Fares a.storage a.logs ops kept fine next x) :
    Through a ops fine next x := by
  cases h with
  | passes carried isFine =>
    refine ⟨by rw [carried]; rfl, ?_, fun _ => rfl, fun _ h => absurd isFine h⟩
    rw [carried]
    exact ⟨fun _ => ⟨rfl, isFine⟩, fun _ => rfl⟩
  | @stops front op s s' cause mid reached carried failed _ =>
    have hall : a.storage.carry ops a.logs = (s', .error cause) := by
      obtain ⟨rest, rfl⟩ := reached
      rw [carry_append, carry_append, carried]
      simp only [Attempt.andThen, carry_singleton, failed]
    refine ⟨by rw [hall]; rfl, ?_, fun h => (by cases h), fun h => ?_⟩
    · rw [hall]
      exact ⟨fun h => (by cases h), fun h => (by cases h.1)⟩
    · rw [hall] at h
      cases h
  | refuses carried notFine _ =>
    refine ⟨by rw [carried]; rfl, ?_, fun h => (by cases h), fun _ _ => rfl⟩
    exact ⟨fun h => (by cases h), fun h => absurd h.2 notFine⟩

theorem through_commit (a : Actor σ) (batch : List Command) :
    Through a (a.script batch) (a.book.Modest batch) (a.committed batch) (a.commit batch) :=
  (fares_commit a batch).through

theorem through_stop (a : Actor σ) :
    Through a [.flushCommands, .flushEvents] True a
      ((a.perform .flushCommands .commandFlush).andThen fun a _ =>
        a.perform .flushEvents .outboxFlush) :=
  (fares_stop (fun _ => True) fun _ => trivial).through

end Actor

end Bourse
