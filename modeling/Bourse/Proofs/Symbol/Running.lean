import Bourse.Proofs.Log.Appending
import Bourse.Proofs.Symbol.Script

/-!
# An actor on files

On files nothing but a command with too many events makes an actor fail. After any commands, taken
in batches of any size, its book, its log and its outbox are those of the journal: they depend on
the commands and not on how these were batched. A storage that does with the files what the ordinary
one does, and asks its actor to stop whenever it likes, makes no difference but to how many commands
the actor gets to.
-/

namespace Bourse

/-! ## Logs on files -/

/-- The logs of a symbol, pending bytes included, are these two byte strings. -/
structure SymbolLogs.Holds (s : SymbolLogs) (log outbox : Bytes) : Prop where
  log : s.log.Holds s.files.log log
  logThere : s.logGone = false
  outbox : s.outbox.Holds s.files.outbox outbox
  outboxThere : s.outboxGone = false

namespace SymbolLogs

variable {s : SymbolLogs} {log outbox : Bytes}

theorem Holds.appendCommand (h : s.Holds log outbox) {payload : Bytes}
    (hp : payload.length ≤ Log.maxLength) :
    ∃ s', s.appendCommand payload = (s', .ok ()) ∧ s'.Holds (log ++ Log.frame payload) outbox := by
  obtain ⟨w, file, happ, hholds⟩ := h.log.append hp
  refine ⟨{ s with log := w, files := { s.files with log := file } }, ?_, { h with log := hholds }⟩
  rw [SymbolLogs.appendCommand, happ]

theorem Holds.appendEvent (h : s.Holds log outbox) {payload : Bytes}
    (hp : payload.length ≤ Log.maxLength) :
    ∃ s', s.appendEvent payload = (s', .ok ()) ∧ s'.Holds log (outbox ++ Log.frame payload) := by
  obtain ⟨w, file, happ, hholds⟩ := h.outbox.append hp
  refine ⟨{ s with outbox := w, files := { s.files with outbox := file } }, ?_,
    { h with outbox := hholds }⟩
  rw [SymbolLogs.appendEvent, happ]

theorem Holds.flushCommands (h : s.Holds log outbox) :
    s.flushCommands.Holds log outbox ∧ s.flushCommands.files.log.bytes = log :=
  ⟨{ h with log := h.log.flush.1 }, h.log.flush.2⟩

theorem Holds.flushEvents (h : s.Holds log outbox) :
    s.flushEvents.Holds log outbox ∧ s.flushEvents.files.outbox.bytes = outbox :=
  ⟨{ h with outbox := h.outbox.flush.1 }, h.outbox.flush.2⟩

/-- Logging commands adds their frames to the log. -/
theorem Holds.carry_logOps (h : s.Holds log outbox) (f : Format)
    (entries : List (Seq × Command)) :
    ∃ s', (storage f).carry (Actor.logOps f entries) s = (s', .ok ()) ∧
      s'.Holds (log ++ Log.frames (Journal.payloads f entries)) outbox := by
  induction entries generalizing s log with
  | nil => exact ⟨s, rfl, by simpa [Journal.payloads] using h⟩
  | cons entry rest ih =>
    obtain ⟨s₁, happ, h₁⟩ := h.appendCommand (f.length_encodeCommand_le entry.1 entry.2)
    obtain ⟨s₂, hrest, h₂⟩ := ih h₁
    refine ⟨s₂, ?_, by simpa [Journal.payloads] using h₂⟩
    show Attempt.forEach _ _ (_ :: _) = _
    rw [Attempt.forEach_cons]
    show Attempt.andThen (s.appendCommand (f.encodeCommand entry.1 entry.2)) _ = _
    rw [happ]
    exact hrest

/-- Recording events adds their frames to the outbox. -/
theorem Holds.carry_appendEvent (h : s.Holds log outbox) (f : Format) (es : List Event) :
    ∃ s', (storage f).carry (es.map .appendEvent) s = (s', .ok ()) ∧
      s'.Holds log (outbox ++ Journal.eventBytes f es) := by
  induction es generalizing s outbox with
  | nil => exact ⟨s, rfl, by simpa using h⟩
  | cons e rest ih =>
    obtain ⟨s₁, happ, h₁⟩ := h.appendEvent (f.length_encodeEvent_le e)
    obtain ⟨s₂, hrest, h₂⟩ := ih h₁
    refine ⟨s₂, ?_, by simpa [Journal.eventBytes] using h₂⟩
    show Attempt.forEach _ _ (_ :: _) = _
    rw [Attempt.forEach_cons]
    show Attempt.andThen (s.appendEvent (f.encodeEvent e)) _ = _
    rw [happ]
    exact hrest

/-- Closing brings everything into the files. -/
theorem Holds.close (h : s.Holds log outbox) (files : SymbolFiles) :
    (s.close files).log.bytes = log ∧ (s.close files).outbox.bytes = outbox := by
  obtain ⟨h₁, hlog⟩ := h.flushCommands
  obtain ⟨h₂, hout⟩ := h₁.flushEvents
  unfold SymbolLogs.close SymbolLogs.save
  rw [h₂.logThere, h₂.outboxThere]
  exact ⟨hlog, hout⟩

/-- Closing logs changes nothing when everything is in their files. -/
theorem Holds.close_eq (h : s.Holds s.files.log.bytes s.files.outbox.bytes) :
    s.close s.files = s.files := by
  have hlog : s.flushCommands.flushEvents.files.log = s.files.log := h.log.flush_eq
  have houtbox : s.flushCommands.flushEvents.files.outbox = s.files.outbox := h.outbox.flush_eq
  rw [SymbolLogs.close, SymbolLogs.save, hlog, houtbox, ite_self, ite_self]

end SymbolLogs

/-! ## Storages on files -/

/-- A storage carries out the operations of an actor on the files of a symbol, which are part of
what it keeps. It may ask the actor to stop. -/
def Storage.Backs {σ : Type} (st : Storage σ) (f : Format) (logs : σ → SymbolLogs) : Prop :=
  ∀ op s, ((st.perform op s).within logs) = (SymbolLogs.storage f).perform op (logs s)

theorem SymbolLogs.storage_backs (f : Format) : (storage f).Backs f id :=
  fun _ _ => rfl

theorem Storage.Backs.carry {σ : Type} {st : Storage σ} {f : Format} {logs : σ → SymbolLogs}
    (h : st.Backs f logs) (ops : List LogOp) (s : σ) :
    (st.carry ops s).within logs = (SymbolLogs.storage f).carry ops (logs s) := by
  induction ops generalizing s with
  | nil => rfl
  | cons op rest ih =>
    have hop := h op s
    rw [Storage.carry, Storage.carry, Attempt.forEach_cons, Attempt.forEach_cons, ← hop]
    rcases st.perform op s with ⟨s', _ | _⟩
    · rfl
    · exact ih s'

/-! ## The actor -/

namespace Actor

/-- The actor of a symbol that has executed these commands on the book `start` and numbered them
behind `last`, with its files kept by a storage. Behind what both logs held before that, they have
what the journal has for the commands. -/
structure Continues {σ : Type} (a : Actor σ) (st : Storage σ) (logs : σ → SymbolLogs) (f : Format)
    (log outbox : Bytes) (start : Book) (last : Seq) (cs : List Command) : Prop where
  storage : a.storage = st
  format : a.format = f
  book : a.book = start.executeAll cs
  lastSeq : a.lastSeq = last + UInt64.ofNat cs.length
  logs : (logs a.logs).Holds (log ++ Log.frames (Journal.payloads f (number last cs)))
    (outbox ++ Journal.eventBytes f (Journal.events start (number last cs)))

section Continues

variable {σ : Type} {a : Actor σ} {st : Storage σ} {logs : σ → SymbolLogs} {f : Format}
  {log outbox : Bytes} {start : Book} {last : Seq} {cs batch : List Command}

/-- An actor that has executed nothing yet. -/
theorem continues_nil (hstorage : a.storage = st) (hformat : a.format = f)
    (h : (logs a.logs).Holds log outbox) :
    a.Continues st logs f log outbox a.book a.lastSeq [] where
  storage := hstorage
  format := hformat
  book := rfl
  lastSeq := by simp
  logs := by
    show (logs a.logs).Holds (log ++ []) (outbox ++ [])
    rwa [List.append_nil, List.append_nil]

/-- What the journal has for a batch stands behind what it has for the commands before. -/
theorem Continues.journal (h : a.Continues st logs f log outbox start last cs)
    (hcs : start.Modest cs) (batch : List Command) :
    Journal.payloads f (number last (cs ++ batch)) =
        Journal.payloads f (number last cs) ++ Journal.payloads f (number a.lastSeq batch) ∧
      Journal.events start (number last (cs ++ batch)) =
        Journal.events start (number last cs) ++ Journal.events a.book (number a.lastSeq batch) := by
  rw [number_append, h.lastSeq, h.book]
  exact ⟨Journal.payloads_append .., Journal.events_append hcs _⟩

/-- A script is carried out on files without failure, and adds to both logs what the journal has for
the batch. -/
theorem Continues.carry_script (hst : st.Backs f logs)
    (h : a.Continues st logs f log outbox start last cs) (hcs : start.Modest cs)
    (batch : List Command) :
    ∃ s, st.carry (a.script batch) a.logs = (s, .ok ()) ∧
      (logs s).Holds (log ++ Log.frames (Journal.payloads f (number last (cs ++ batch))))
        (outbox ++ Journal.eventBytes f (Journal.events start (number last (cs ++ batch)))) ∧
      (a.book.Modest batch → (logs s).files.outbox.bytes =
        outbox ++ Journal.eventBytes f (Journal.events start (number last (cs ++ batch)))) := by
  obtain ⟨hpayloads, hevents⟩ := h.journal hcs batch
  rw [hpayloads, hevents, Log.frames_append, Journal.eventBytes_append, ← List.append_assoc,
    ← List.append_assoc]
  obtain ⟨s₁, hlogged, h₁⟩ := h.logs.carry_logOps f (number a.lastSeq batch)
  obtain ⟨s₃, happlied, h₃⟩ :=
    h₁.flushCommands.1.carry_appendEvent f (Journal.events a.book (number a.lastSeq batch))
  have hflushed : (SymbolLogs.storage f).carry [.flushCommands] s₁ = (s₁.flushCommands, .ok ()) :=
    carry_singleton ..
  -- The files are found through the storage, whatever else it keeps.
  have hcarry : ∃ s₄, (SymbolLogs.storage f).carry (a.script batch) (logs a.logs) = (s₄, .ok ()) ∧
      s₄ = if a.book.Modest batch then s₃.flushEvents else s₃ := by
    have hrecorded : (SymbolLogs.storage f).carry
        (logOps f (number a.lastSeq batch) ++ [.flushCommands] ++
          eventOps a.book (number a.lastSeq batch)) (logs a.logs) = (s₃, .ok ()) :=
      carry_append_ok (carry_append_ok hlogged hflushed) happlied
    rw [script, h.format]
    split
    · exact ⟨s₃.flushEvents, carry_append_ok hrecorded (carry_singleton ..), rfl⟩
    · exact ⟨s₃, carry_append_ok hrecorded rfl, rfl⟩
  obtain ⟨s₄, hcarry, hs₄⟩ := hcarry
  rw [← hst.carry] at hcarry
  obtain ⟨hlogs, hresult⟩ := Prod.mk.inj hcarry
  refine ⟨_, Prod.ext rfl hresult, ?_⟩
  change logs _ = s₄ at hlogs
  rw [hlogs, hs₄]
  split
  · exact ⟨h₃.flushEvents.1, fun _ => h₃.flushEvents.2⟩
  · next hlarge => exact ⟨h₃, fun hbatch => absurd hbatch hlarge⟩

/-- Whatever a batch is, its commands get into the log and their events into the outbox. It is
committed, and no event is pending then, unless one of them has too many events. -/
theorem Continues.commit (hst : st.Backs f logs)
    (h : a.Continues st logs f log outbox start last cs) (hcs : start.Modest cs)
    (batch : List Command) :
    ∃ a' result, a.commit batch = (a', result) ∧
      (logs a'.logs).Holds (log ++ Log.frames (Journal.payloads f (number last (cs ++ batch))))
        (outbox ++ Journal.eventBytes f (Journal.events start (number last (cs ++ batch)))) ∧
      (start.Modest (cs ++ batch) →
        result = .ok () ∧ a'.Continues st logs f log outbox start last (cs ++ batch) ∧
          (logs a'.logs).files.outbox.bytes =
            outbox ++ Journal.eventBytes f (Journal.events start (number last (cs ++ batch)))) ∧
      (¬ start.Modest (cs ++ batch) → result = .error (.outboxAppend .tooManyEvents)) := by
  obtain ⟨s, hcarry, hholds, hflushed⟩ := h.carry_script hst hcs batch
  obtain ⟨hlogs, hok, hafter, hrefused⟩ := through_commit a batch
  rw [h.storage, hcarry] at hlogs hok hrefused
  dsimp only at hlogs
  rw [← hlogs] at hholds hflushed
  refine ⟨(a.commit batch).1, (a.commit batch).2, rfl, hholds, ?_, ?_⟩
  · intro hm
    obtain ⟨-, hbatch⟩ := Book.modest_append.1 hm
    rw [← h.book] at hbatch
    have hdone : (a.commit batch).2 = .ok () := hok.2 ⟨rfl, hbatch⟩
    refine ⟨hdone, ?_, hflushed hbatch⟩
    rw [hafter hdone]
    exact
      { storage := h.storage
        format := h.format
        book := by
          show a.book.executeAll batch = _
          rw [h.book, Book.executeAll_append]
        lastSeq := by
          show a.lastSeq + UInt64.ofNat batch.length = _
          rw [h.lastSeq, List.length_append, UInt64.ofNat_add, UInt64.add_assoc]
        logs := hholds }
  · intro hm
    refine hrefused rfl fun hbatch => hm ?_
    rw [h.book] at hbatch
    exact Book.modest_append.2 ⟨hcs, hbatch⟩

/-- An actor that stops leaves everything in the files. -/
theorem Continues.stop (hst : st.Backs f logs)
    (h : a.Continues st logs f log outbox start last cs) (exit : ActorExit) :
    ∃ a', a.stop exit = (a', .ok exit) ∧ a'.Continues st logs f log outbox start last cs := by
  obtain ⟨hfst, hsnd⟩ := Prod.mk.inj (hst.carry [.flushCommands, .flushEvents] a.logs)
  obtain ⟨hlogs, hok, hafter, -⟩ := through_stop a
  rw [h.storage] at hlogs hok
  have hdone := hok.2 ⟨hsnd, trivial⟩
  rw [Actor.stop]
  rcases hflushed : (a.perform .flushCommands .commandFlush).andThen
    (fun a _ => a.perform .flushEvents .outboxFlush) with ⟨a', result⟩
  rw [hflushed] at hlogs hdone hafter
  obtain rfl : result = .ok () := hdone
  refine ⟨a', rfl, ?_⟩
  have ha' : a' = a.withLogs a'.logs := hafter rfl
  have hholds : (logs a'.logs).Holds (log ++ Log.frames (Journal.payloads f (number last cs)))
      (outbox ++ Journal.eventBytes f (Journal.events start (number last cs))) := by
    have hfiles : logs a'.logs = (logs a.logs).flushCommands.flushEvents :=
      (congrArg logs hlogs).trans hfst
    rw [hfiles]
    exact (h.logs.flushCommands.1).flushEvents.1
  rw [ha']
  exact { h with logs := hholds }

/-- What is taken from a queue and what is left of it. -/
theorem take_batch (a : Actor σ) (c : Command) (rest : List Command) :
    (c :: rest).take a.batchSize ++ rest.drop (a.batchSize - 1) = c :: rest := by
  have hsize : a.batchSize = (a.batchSize - 1) + 1 := by
    have : 1 ≤ a.batchSize := Nat.le_max_right ..
    omega
  conv => lhs; arg 1; rw [hsize, List.take_succ_cons]
  rw [List.cons_append, List.take_append_drop]

/-- An actor that nobody asks to stop executes all commands that are queued or arrive, whatever the
batches are. -/
theorem Continues.run (hst : st.Backs f logs) (hgo : ∀ s, st.cancelled s = false)
    (h : a.Continues st logs f log outbox start last cs) {queue : List Command}
    {arrivals : List (List Command)} (hm : start.Modest (cs ++ (queue ++ arrivals.flatten))) :
    ∃ a', a.run queue arrivals = (a', .ok .mailboxClosed) ∧
      a'.Continues st logs f log outbox start last (cs ++ (queue ++ arrivals.flatten)) := by
  fun_induction Actor.run a queue arrivals generalizing cs with
  | case1 a queue arrivals hcancelled =>
    rw [h.storage, hgo] at hcancelled
    cases hcancelled
  | case2 a hcancelled =>
    rw [List.flatten_nil, List.append_nil, List.append_nil]
    exact h.stop hst .mailboxClosed
  | case3 a hcancelled more arrivals ih =>
    rw [List.flatten_cons, List.nil_append] at hm ⊢
    exact ih h hm
  | case4 a arrivals hcancelled c rest a' e hcommit =>
    have hsplit := a.take_batch c rest
    have hfirst : start.Modest (cs ++ (c :: rest).take a.batchSize) := by
      rw [← hsplit, List.append_assoc, ← List.append_assoc] at hm
      exact (Book.modest_append.1 hm).1
    obtain ⟨a'', result, hdone, -, hok, -⟩ :=
      h.commit hst (Book.modest_append.1 hfirst).1 ((c :: rest).take a.batchSize)
    rw [hcommit] at hdone
    obtain ⟨-, rfl⟩ := Prod.mk.inj hdone
    cases (hok hfirst).1
  | case5 a arrivals hcancelled c rest a' hcommit ih =>
    have hsplit : cs ++ (c :: rest ++ arrivals.flatten) = cs ++ (c :: rest).take a.batchSize ++
        (rest.drop (a.batchSize - 1) ++ arrivals.headD [] ++ arrivals.tail.flatten) := by
      conv => lhs; rw [← a.take_batch c rest]
      cases arrivals <;> simp
    rw [hsplit] at hm ⊢
    have hfirst := (Book.modest_append.1 hm).1
    obtain ⟨a'', result, hdone, -, hok, -⟩ :=
      h.commit hst (Book.modest_append.1 hfirst).1 ((c :: rest).take a.batchSize)
    rw [hcommit] at hdone
    obtain ⟨rfl, rfl⟩ := Prod.mk.inj hdone
    exact ih (hok hfirst).2.1 hm

end Continues

/-- The actor of a symbol that has executed these commands on a fresh book, with its files kept by
a storage. -/
structure Backed {σ : Type} (a : Actor σ) (st : Storage σ) (logs : σ → SymbolLogs) (f : Format)
    (fresh : Book) (cs : List Command) : Prop where
  storage : a.storage = st
  format : a.format = f
  book : a.book = fresh.executeAll cs
  lastSeq : a.lastSeq = UInt64.ofNat cs.length
  logs : (logs a.logs).Holds (Journal.logBytes f cs) (Journal.outboxBytes f fresh cs)

section Backed

variable {σ : Type} {a : Actor σ} {st : Storage σ} {logs : σ → SymbolLogs} {f : Format}
  {fresh : Book} {cs batch : List Command}

theorem backed_iff_continues :
    a.Backed st logs f fresh cs ↔ a.Continues st logs f [] [] fresh 0 cs := by
  constructor
  · intro h
    exact ⟨h.storage, h.format, h.book, by rw [h.lastSeq, UInt64.zero_add], h.logs⟩
  · intro h
    exact ⟨h.storage, h.format, h.book, by rw [h.lastSeq, UInt64.zero_add], h.logs⟩

theorem outboxBytes_append (h : fresh.Modest cs) (f : Format) (batch : List Command) :
    Journal.outboxBytes f fresh (cs ++ batch) = Journal.outboxBytes f fresh cs ++
      Journal.eventBytes f
        (Journal.events (fresh.executeAll cs) (number (UInt64.ofNat cs.length) batch)) := by
  rw [Journal.outboxBytes, number_append, Journal.events_append h, Journal.eventBytes_append,
    UInt64.zero_add]
  rfl

/-- Whatever a batch is, its commands get into the log and their events into the outbox. It is
committed, and no event is pending then, unless one of them has too many events. -/
theorem Backed.commit (hst : st.Backs f logs) (h : a.Backed st logs f fresh cs)
    (hcs : fresh.Modest cs) (batch : List Command) :
    ∃ a' result, a.commit batch = (a', result) ∧
      (logs a'.logs).Holds (Journal.logBytes f (cs ++ batch))
        (Journal.outboxBytes f fresh (cs ++ batch)) ∧
      (fresh.Modest (cs ++ batch) →
        result = .ok () ∧ a'.Backed st logs f fresh (cs ++ batch) ∧
          (logs a'.logs).files.outbox.bytes = Journal.outboxBytes f fresh (cs ++ batch)) ∧
      (¬ fresh.Modest (cs ++ batch) → result = .error (.outboxAppend .tooManyEvents)) := by
  obtain ⟨a', result, hcommit, hholds, hmodest, himmodest⟩ :=
    (backed_iff_continues.1 h).commit hst hcs batch
  refine ⟨a', result, hcommit, hholds, fun hm => ?_, himmodest⟩
  obtain ⟨hok, hcontinues, hflushed⟩ := hmodest hm
  exact ⟨hok, backed_iff_continues.2 hcontinues, hflushed⟩

/-- An actor that stops leaves everything in the files. -/
theorem Backed.stop (hst : st.Backs f logs) (h : a.Backed st logs f fresh cs) (exit : ActorExit) :
    ∃ a', a.stop exit = (a', .ok exit) ∧ a'.Backed st logs f fresh cs := by
  obtain ⟨a', hstop, hcontinues⟩ := (backed_iff_continues.1 h).stop hst exit
  exact ⟨a', hstop, backed_iff_continues.2 hcontinues⟩

/-- What an actor does until it stops: it gets through some commands, in the order in which they
are given, and its files are those of the journal. It stops of its own accord only at a command with
too many events, and otherwise when it was asked to or when no command is left. -/
structure Ends (st : Storage σ) (logs : σ → SymbolLogs) (f : Format) (fresh : Book)
    (cs given ds : List Command) (a : Actor σ) (result : Except ActorError ActorExit) : Prop where
  taken : ds <+: given
  holds : (logs a.logs).Holds (Journal.logBytes f (cs ++ ds))
    (Journal.outboxBytes f fresh (cs ++ ds))
  modest : fresh.Modest (cs ++ ds) → result.isOk ∧ a.Backed st logs f fresh (cs ++ ds)
  immodest : ¬ fresh.Modest (cs ++ ds) → result = .error (.outboxAppend .tooManyEvents)
  closed : result = .ok .mailboxClosed → ds = given
  asked : result = .ok .cancelled → ∃ s, st.cancelled s

/-- Commands that were committed come before those that follow. -/
theorem Ends.after {more : List Command} {ds : List Command} {given : List Command}
    {result : Except ActorError ActorExit}
    (h : Ends st logs f fresh (cs ++ batch) more ds a result) (hgiven : batch ++ more = given) :
    Ends st logs f fresh cs given (batch ++ ds) a result := by
  obtain ⟨htaken, hholds, hmodest, himmodest, hclosed, hasked⟩ := h
  rw [List.append_assoc] at hholds hmodest himmodest
  subst hgiven
  refine ⟨(List.prefix_append_right_inj batch).2 htaken, hholds, hmodest, himmodest, ?_, hasked⟩
  intro hexit
  rw [hclosed hexit]

/-- An actor that stops where it stands. -/
theorem Backed.ends (h : a.Backed st logs f fresh cs) (hcs : fresh.Modest cs) {exit : ActorExit}
    {given : List Command} (hclosed : exit = .mailboxClosed → given = [])
    (hasked : exit = .cancelled → ∃ s, st.cancelled s) :
    Ends st logs f fresh cs given [] a (.ok exit) where
  taken := List.nil_prefix
  holds := by
    rw [List.append_nil]
    exact h.logs
  modest _ := by
    rw [List.append_nil]
    exact ⟨rfl, h⟩
  immodest hm := absurd (by rwa [List.append_nil]) hm
  closed hexit := (hclosed (Except.ok.inj hexit)).symm
  asked hexit := hasked (Except.ok.inj hexit)

/-- However an actor stops, its files are those of the journal for the commands that it got
through. -/
theorem Backed.run (hst : st.Backs f logs) (h : a.Backed st logs f fresh cs)
    (hcs : fresh.Modest cs) (queue : List Command) (arrivals : List (List Command)) :
    ∃ a' result ds, a.run queue arrivals = (a', result) ∧
      Ends st logs f fresh cs (queue ++ arrivals.flatten) ds a' result := by
  fun_induction Actor.run a queue arrivals generalizing cs with
  | case1 a queue arrivals hcancelled =>
    obtain ⟨a', hstop, hbacked⟩ := h.stop hst .cancelled
    refine ⟨a', _, [], hstop, hbacked.ends hcs ?_ ?_⟩
    · intro hexit
      cases hexit
    · intro _
      exact ⟨a.logs, h.storage ▸ hcancelled⟩
  | case2 a hcancelled =>
    obtain ⟨a', hstop, hbacked⟩ := h.stop hst .mailboxClosed
    refine ⟨a', _, [], hstop, hbacked.ends hcs ?_ ?_⟩
    · intro _
      rfl
    · intro hexit
      cases hexit
  | case3 a hcancelled more arrivals ih =>
    obtain ⟨a', result, ds, hrun, hends⟩ := ih h hcs
    exact ⟨a', result, ds, hrun, by simpa using hends⟩
  | case4 a arrivals hcancelled c rest a' e hcommit =>
    obtain ⟨a'', result, hdone, hholds, hmodest, himmodest⟩ :=
      h.commit hst hcs ((c :: rest).take a.batchSize)
    rw [hcommit] at hdone
    obtain ⟨rfl, rfl⟩ := Prod.mk.inj hdone
    have hnot : ¬ fresh.Modest (cs ++ (c :: rest).take a.batchSize) := by
      intro hm
      cases (hmodest hm).1
    obtain ⟨⟩ := himmodest hnot
    refine ⟨a', _, _, rfl, ?_, hholds, fun hm => absurd hm hnot, fun _ => rfl, ?_, ?_⟩
    · exact (List.take_prefix ..).trans (List.prefix_append ..)
    · intro hexit
      cases hexit
    · intro hexit
      cases hexit
  | case5 a arrivals hcancelled c rest a' hcommit ih =>
    obtain ⟨a'', result, hdone, -, hmodest, himmodest⟩ :=
      h.commit hst hcs ((c :: rest).take a.batchSize)
    rw [hcommit] at hdone
    obtain ⟨rfl, rfl⟩ := Prod.mk.inj hdone
    by_cases hm : fresh.Modest (cs ++ (c :: rest).take a.batchSize)
    · obtain ⟨a'', result, ds, hrun, hends⟩ := ih (hmodest hm).2.1 hm
      refine ⟨a'', result, _, hrun, hends.after ?_⟩
      conv => rhs; rw [← a.take_batch c rest]
      cases arrivals <;> simp
    · cases himmodest hm

end Backed

/-- The actor of a symbol on files that has executed these commands on a fresh book. -/
structure Served (a : Actor SymbolLogs) (f : Format) (fresh : Book) (cs : List Command) : Prop where
  storage : a.storage = SymbolLogs.storage f
  format : a.format = f
  book : a.book = fresh.executeAll cs
  lastSeq : a.lastSeq = UInt64.ofNat cs.length
  logs : a.logs.Holds (Journal.logBytes f cs) (Journal.outboxBytes f fresh cs)

variable {a : Actor SymbolLogs} {f : Format} {fresh : Book} {cs batch : List Command}

theorem served_iff_backed :
    a.Served f fresh cs ↔ a.Backed (SymbolLogs.storage f) id f fresh cs :=
  ⟨fun h => ⟨h.storage, h.format, h.book, h.lastSeq, h.logs⟩,
    fun h => ⟨h.storage, h.format, h.book, h.lastSeq, h.logs⟩⟩

/-- A batch of commands that are not too large is committed, and adds to both logs what the journal
has for it. -/
theorem Served.commit (h : a.Served f fresh cs) (hm : fresh.Modest (cs ++ batch)) :
    ∃ a', a.commit batch = (a', .ok ()) ∧ a'.Served f fresh (cs ++ batch) ∧
      a'.logs.files.outbox.bytes = Journal.outboxBytes f fresh (cs ++ batch) := by
  obtain ⟨a', result, hcommit, -, hmodest, -⟩ := (served_iff_backed.1 h).commit
    (SymbolLogs.storage_backs f) (Book.modest_append.1 hm).1 batch
  obtain ⟨rfl, hbacked, hflushed⟩ := hmodest hm
  exact ⟨a', hcommit, served_iff_backed.2 hbacked, hflushed⟩

/-- Whatever the batches are, an actor executes all commands that are queued or arrive. -/
theorem Served.run (h : a.Served f fresh cs) {queue : List Command}
    {arrivals : List (List Command)} (hm : fresh.Modest (cs ++ queue ++ arrivals.flatten)) :
    ∃ a', a.run queue arrivals = (a', .ok .mailboxClosed) ∧
      a'.Served f fresh (cs ++ queue ++ arrivals.flatten) := by
  rw [List.append_assoc] at hm ⊢
  obtain ⟨a', hrun, hcontinues⟩ := (backed_iff_continues.1 (served_iff_backed.1 h)).run
    (SymbolLogs.storage_backs f) (fun _ => rfl) hm
  exact ⟨a', hrun, served_iff_backed.2 (backed_iff_continues.2 hcontinues)⟩

end Actor

end Bourse
