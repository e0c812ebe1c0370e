import Bourse.Proofs.Lifetime.Surviving
import Bourse.Proofs.Recovery.Exact

/-!
# Commands that come back

When the flush of a batch fails its commands are not secured, but they may be in the log all the
same. The next recovery then executes them and writes their events: `reaches_returned`.
-/

namespace Bourse

/-! ## Operations without interludes -/

/-- Logs that hold no more than there are positions for are within the range. -/
theorem SymbolLogs.Holds.inRange {s : SymbolLogs} {log outbox : Bytes} (h : s.Holds log outbox)
    (hlog : log.length ≤ File.maxPosition) (hout : outbox.length ≤ File.maxPosition) :
    s.inRange = true := by
  rw [← h.log.contents] at hlog
  rw [← h.outbox.contents] at hout
  simp only [Log.Writer.contents, List.length_append, File.length_bytes] at hlog hout
  unfold SymbolLogs.inRange
  rw [Bool.and_eq_true, decide_eq_true_eq, decide_eq_true_eq]
  exact ⟨hlog, hout⟩

namespace Site

variable {s : Site} {f : Format} {log out : Bytes} {rest : List Fate}

/-- The publisher does nothing before an operation of which nothing is known. -/
theorem interlude_calm {fate : Fate} (h : s.fates = fate :: rest) (hturns : fate.turns = []) :
    s.interlude f = { s with fates := rest } := by
  rw [interlude, Site.fate, h, List.headD_cons, hturns]
  rfl

/-- Logging commands to which nothing happens. -/
theorem carry_logOps_calm (h : s.logs.Holds log out) (entries : List (Seq × Command))
    (hfates : s.fates = List.replicate entries.length ({} : Fate) ++ rest)
    (hlog : (log ++ Log.frames (Journal.payloads f entries)).length ≤ File.maxPosition)
    (hout : out.length ≤ File.maxPosition) :
    ∃ logs, (storage f).carry (Actor.logOps f entries) s =
        ({ s with logs, fates := rest }, .ok ()) ∧
      logs.Holds (log ++ Log.frames (Journal.payloads f entries)) out ∧
      logs.files.cursor = s.logs.files.cursor := by
  induction entries generalizing s log with
  | nil =>
    refine ⟨s.logs, ?_, by simpa [Journal.payloads] using h, rfl⟩
    have hsame : rest = s.fates := hfates.symm
    rw [hsame]
    rfl
  | cons entry more ih =>
    rw [List.length_cons, List.replicate_succ, List.cons_append] at hfates
    have hcalm : s.interlude f = { s with fates := List.replicate more.length ({} : Fate) ++ rest } :=
      interlude_calm hfates rfl
    have hsplit : log ++ Log.frames (Journal.payloads f (entry :: more)) =
        log ++ Log.frame (f.encodeCommand entry.1 entry.2) ++
          Log.frames (Journal.payloads f more) := by
      simp [Journal.payloads]
    rw [hsplit] at hlog ⊢
    obtain ⟨logs₁, hop, h₁⟩ :=
      h.appendCommand (f.length_encodeCommand_le entry.1 entry.2)
    have hstore : (SymbolLogs.storage f).perform
        (.appendCommand (f.encodeCommand entry.1 entry.2)) s.logs = (logs₁, .ok ()) := hop
    have hcursor := (h.onward hstore).2
    have hrange : logs₁.inRange = true := by
      exact h₁.inRange (Nat.le_trans (List.prefix_append ..).length_le hlog) hout
    have hrun : s.perform f (.appendCommand (f.encodeCommand entry.1 entry.2)) =
        ({ s with logs := logs₁, fates := List.replicate more.length ({} : Fate) ++ rest }, .ok ()) := by
      have hfate : s.fate = {} := by rw [Site.fate, hfates, List.headD_cons]
      rw [← show (s.interlude f).logs = s.logs by rw [hcalm]] at hstore
      rw [perform_eq hstore, hcalm, hrange, hfate]
      rfl
    obtain ⟨logs, hcarry, hholds, hcursor'⟩ := ih (s := { s with
      logs := logs₁, fates := List.replicate more.length ({} : Fate) ++ rest }) h₁ rfl hlog
    refine ⟨logs, ?_, hholds, hcursor'.trans hcursor⟩
    have hcons : (storage f).carry (Actor.logOps f (entry :: more)) s =
        Attempt.andThen (s.perform f (.appendCommand (f.encodeCommand entry.1 entry.2)))
          fun s _ => (storage f).carry (Actor.logOps f more) s :=
      Attempt.forEach_cons ..
    rw [hcons, hrun]
    exact hcarry

end Site

/-! ## A flush that fails -/

/-- What happens to a batch of which only the flush fails. -/
def Fate.unflushed (batch : List Command) : List Fate :=
  List.replicate batch.length ({} : Fate) ++ [{ fails := true }]

/-- The commands of a batch whose flush fails are in the log, and no event of them is recorded. -/
theorem Actor.commit_unflushed (a : Actor Site) {f : Format} {log out : Bytes}
    (hstorage : a.storage = Site.storage f) (hformat : a.format = f)
    (h : a.logs.logs.Holds log out) (batch : List Command)
    (hfates : a.logs.fates = Fate.unflushed batch)
    (hlog : (log ++ Log.frames (Journal.payloads f (number a.lastSeq batch))).length ≤
      File.maxPosition)
    (hout : out.length ≤ File.maxPosition) :
    ∃ a' result logs, a.commit batch = (a', result) ∧ result.isOk = false ∧
      a'.logs = { a.logs with logs, fates := [] } ∧
      logs.Holds (log ++ Log.frames (Journal.payloads f (number a.lastSeq batch))) out ∧
      logs.files.cursor = a.logs.logs.files.cursor := by
  have hcalm : a.logs.fates =
      List.replicate (number a.lastSeq batch).length ({} : Fate) ++ [{ fails := true }] := by
    rw [length_number]
    exact hfates
  obtain ⟨logs₁, hcarry, hholds, hcursor⟩ :=
    Site.carry_logOps_calm h (number a.lastSeq batch) hcalm hlog hout
  have hflushed := hholds.flushCommands.1
  have hflush : (Site.storage f).carry [.flushCommands]
      { a.logs with logs := logs₁, fates := [{ fails := true }] } =
      ({ a.logs with logs := logs₁.flushCommands, fates := [] },
        .error (.file (.other "failed"))) := by
    have hnext : Site.interlude f { a.logs with logs := logs₁, fates := [{ fails := true }] } =
        { a.logs with logs := logs₁, fates := [] } :=
      Site.interlude_calm rfl rfl
    have hstore : (SymbolLogs.storage f).perform .flushCommands
        (Site.interlude f { a.logs with logs := logs₁, fates := [{ fails := true }] }).logs =
        (logs₁.flushCommands, .ok ()) := by
      rw [hnext]
      rfl
    rw [carry_singleton]
    show Site.perform f .flushCommands _ = _
    rw [Site.perform_eq hstore, hnext, hflushed.inRange hlog hout]
    rfl
  -- The script stops at the flush.
  have hscript : a.storage.carry (a.script batch) a.logs =
      ({ a.logs with logs := logs₁.flushCommands, fates := [] },
        .error (.file (.other "failed"))) := by
    rw [script, hstorage, hformat, carry_append, carry_append, carry_append, hcarry]
    simp only [Attempt.andThen]
    rw [hflush]
  obtain ⟨hlogs, hok, -⟩ := through_commit a batch
  rcases hcommit : a.commit batch with ⟨a', result⟩
  rw [hcommit, hscript] at hlogs hok
  refine ⟨a', result, logs₁.flushCommands, rfl, ?_, hlogs, hflushed, hcursor⟩
  cases result with
  | error e => rfl
  | ok _ => cases (hok.1 rfl).1

/-! ## Beginning a session -/

/-- An actor as it is after a recovery that found the commands `cs` in these files. -/
structure Actor.Begins (a : Actor Site) (sv : Service) (cs : List Command) (files : SymbolFiles)
    (kept : Nat) (published : List Event) : Prop where
  storage : a.storage = Site.storage sv.format
  format : a.format = sv.format
  book : a.book = sv.fresh.executeAll cs
  lastSeq : a.lastSeq = UInt64.ofNat cs.length
  logs : a.logs.logs.Holds (Journal.logBytes sv.format cs)
    (Journal.outboxBytes sv.format sv.fresh cs)
  outbox : a.logs.logs.files.outbox.bytes = Journal.outboxBytes sv.format sv.fresh cs
  cursor : a.logs.logs.files.cursor = files.cursor
  scratch : a.logs.logs.files.scratch = files.scratch
  kept : a.logs.kept = kept
  published : a.logs.published = published
  progress : a.logs.progress = none
  maxPayload : a.logs.maxPayload = sv.options.maxPayload

variable {sv : Service} {files : SymbolFiles} {cs : List Command}

/-- A session can begin on readable files. -/
theorem Step.begins (secure tame : Bool) {complete : Nat}
    (h : Recovery.Readable sv.options sv.format sv.fresh files cs complete) (hm : sv.fresh.Modest cs)
    (hout : (Journal.outboxBytes sv.format sv.fresh cs).length ≤ File.maxPosition) (kept : Nat)
    (published : List Event) :
    ∃ a, Step sv secure tame (.down files kept published) (.up a true) ∧
      a.Begins sv cs files (if secure then (Journal.logBytes sv.format cs).length else kept)
        published := by
  obtain ⟨files', book, r, hrecover, hrestored, -, -, hcursor, hscratch⟩ :=
    Recovery.recover_readable h hm
  refine ⟨_, .recover hrecover ?_, ?_⟩
  · rw [← File.length_bytes, hrestored.outbox]
    exact hout
  · exact
      { storage := rfl
        format := rfl
        book := hrestored.book
        lastSeq := hrestored.lastSeq
        logs := hrestored.logs
        outbox := by
          show r.logs.files.outbox.bytes = _
          rw [hrestored.files, hrestored.outbox]
        cursor := by
          show r.logs.files.cursor = _
          rw [hrestored.files, hcursor]
        scratch := by
          show r.logs.files.scratch = _
          rw [hrestored.files, hscratch]
        kept := by
          show (if secure then files'.log.size else kept) = _
          rw [← File.length_bytes, hrestored.log]
        published := rfl
        progress := rfl
        maxPayload := rfl }

/-- What is left when a log of these bytes is found and the outbox is lost. -/
def SymbolLogs.leftover (s : SymbolLogs) (log : Bytes) : SymbolFiles :=
  { log := .ofBytes log, cursor := s.files.cursor }

theorem World.leaves_leftover {a : Actor Site} {running : Bool} {log out : Bytes}
    (h : a.logs.logs.Holds log out) (hkept : a.logs.kept ≤ log.length) :
    (up a running).Leaves (a.logs.logs.leftover log) where
  logUsable := File.usable_ofBytes _
  log := by
    show (File.ofBytes log).bytes <+: a.logs.logs.log.contents a.logs.logs.files.log
    exact ⟨[], by rw [List.append_nil, File.bytes_ofBytes, h.log.contents]⟩
  kept := by
    show a.logs.kept ≤ (File.ofBytes log).size
    rw [← File.length_bytes, File.bytes_ofBytes]
    exact hkept
  outboxUsable := Or.inl rfl
  outbox := List.nil_prefix
  cursor := rfl

/-- A crash may take all of both logs when nothing of the log is kept. -/
theorem Step.loses (sv : Service) (secure tame running : Bool) {a : Actor Site}
    (hkept : a.logs.kept = 0) :
    Step sv secure tame (.up a running)
      (.down { cursor := a.logs.logs.files.cursor } 0 a.logs.published) := by
  rw [← hkept]
  exact .ends (w := .up a running) ⟨Or.inl rfl, List.nil_prefix, Nat.le_of_eq hkept, Or.inl rfl,
    List.nil_prefix, rfl⟩

theorem readable_leftover {s : SymbolLogs} (hall : sv.Admits sv.fresh 0 cs)
    (hlog : (Journal.logBytes sv.format cs).length ≤ File.maxPosition) :
    Recovery.Readable sv.options sv.format sv.fresh
      (s.leftover (Journal.logBytes sv.format cs)) cs 0 :=
  Recovery.readable_of_log (File.usable_ofBytes _) (File.bytes_ofBytes _) (Or.inl rfl) rfl
    (File.length_lt_of_inRange hlog (Nat.le_refl _)) hall.commands

/-- In a session that began with empty logs the flush of the first batch fails. -/
theorem Step.unflushed (secure tame : Bool) {a : Actor Site} {kept : Nat} {published : List Event}
    (h : a.Begins sv [] files kept published) (hall : sv.Admits sv.fresh 0 cs)
    (hlog : (Journal.logBytes sv.format cs).length ≤ File.maxPosition) :
    ∃ a', Step sv secure tame (.up a true) (.up a' false) ∧
      a'.logs.logs.Holds (Journal.logBytes sv.format cs) [] ∧
      a'.logs.logs.files.cursor = files.cursor ∧ a'.logs.kept = kept ∧
      a'.logs.published = published := by
  have hbytes : Journal.logBytes sv.format [] ++
      Log.frames (Journal.payloads sv.format (Actor.number a.lastSeq cs)) =
      Journal.logBytes sv.format cs := by
    rw [h.lastSeq]
    rfl
  obtain ⟨a', result, logs, hcommit, hfailed, hlogs, hholds, hcursor⟩ :=
    Actor.commit_unflushed (a.withLogs { a.logs with fates := Fate.unflushed cs })
      h.storage h.format h.logs cs rfl (hbytes ▸ hlog) (Nat.zero_le _)
  have hstep : Step sv secure tame (.up a true) (.up a' false) := by
    rw [← hfailed]
    refine Step.batch (fun _ => ?_) hcommit
    rw [h.book, h.lastSeq]
    exact hall
  refine ⟨a', hstep, ?_⟩
  rw [hlogs]
  exact ⟨hbytes ▸ hholds, hcursor.trans h.cursor, h.kept, h.published⟩

/-- Commands whose flush failed come back when no crash takes them from the log. -/
theorem World.reaches_returned (secure tame : Bool) (hfiles : files.Empty)
    (published : List Event) (hall : sv.Admits sv.fresh 0 cs)
    (hlog : (Journal.logBytes sv.format cs).length ≤ File.maxPosition)
    (hout : (Journal.outboxBytes sv.format sv.fresh cs).length ≤ File.maxPosition) :
    ∃ a, Reaches sv secure tame (down files 0 published) (up a true) ∧
      a.Begins sv cs { cursor := files.cursor }
        (if secure then (Journal.logBytes sv.format cs).length else 0) published := by
  -- The first session begins with empty logs, and its only batch is not flushed.
  obtain ⟨a₁, hstep₁, hbegins₁⟩ := Step.begins secure tame
    (Recovery.readable_of_empty hfiles) trivial (Nat.zero_le _) 0 published
  have hnone : (if secure then (Journal.logBytes sv.format []).length else 0) = 0 := ite_self 0
  rw [hnone] at hbegins₁
  obtain ⟨a₂, hstep₂, hholds, hcursor, hkept, hpublished⟩ :=
    Step.unflushed secure tame hbegins₁ hall hlog
  -- All that it wrote reaches the log before the session ends.
  have hstep₃ : Step sv secure tame (up a₂ false)
      (down (a₂.logs.logs.leftover (Journal.logBytes sv.format cs)) 0 published) := by
    have hleaves : (up a₂ false).Leaves
        (a₂.logs.logs.leftover (Journal.logBytes sv.format cs)) :=
      leaves_leftover hholds (Nat.le_trans (Nat.le_of_eq hkept) (Nat.zero_le _))
    rw [← hpublished, ← hkept]
    exact .ends hleaves
  -- The next recovery finds the commands.
  obtain ⟨a₃, hstep₄, hbegins₃⟩ := Step.begins secure tame
    (readable_leftover hall hlog) hall.modest hout 0 published
  refine ⟨a₃, .tail (.tail (.tail (.single hstep₁) hstep₂) hstep₃) hstep₄,
    { hbegins₃ with cursor := ?_ }⟩
  rw [hbegins₃.cursor]
  exact hcursor

/-- A service with binary records, default options and a book without a bound. -/
def Service.standard : Service :=
  { options := {}, format := .binary, batchMax := 1, fresh := {} }

/-- A request that names no order. -/
def Command.blank (request : UInt64) : Command :=
  { request, action := .cancel 0 }

/-- A blank request is rejected, whatever is in the book. -/
theorem Journal.events_blank (b : Book) (request : UInt64) :
    events b (Actor.number 0 [.blank request]) =
      [{ seq := 1, idx := 0, request, kind := .rejected 0 0 .badCancel },
        { seq := 1, idx := 1, request, kind := .commandEnd }] :=
  rfl

theorem Service.admits_blank (b : Book) (last : Seq) (request : UInt64) :
    standard.Admits b last [.blank request] := by
  refine admits_binary rfl (by decide) ⟨?_, trivial⟩
  show 1 ≤ maxEvents
  decide

theorem Journal.length_logBytes_blank (request : UInt64) :
    (logBytes .binary [.blank request]).length = 75 :=
  length_logBytes_binary _

theorem Journal.length_outboxBytes_blank (b : Book) (request : UInt64) :
    (outboxBytes .binary b [.blank request]).length = 152 :=
  length_eventBytes_binary _

theorem SymbolFiles.empty_of_cursor (cursor : File) : ({ cursor } : SymbolFiles).Empty :=
  ⟨Or.inl rfl, rfl, Or.inl rfl, rfl⟩

/-- A blank request comes back whose flush failed. -/
theorem World.reaches_blank (secure tame : Bool) (cursor : File) (published : List Event)
    (request : UInt64) :
    ∃ a, Reaches .standard secure tame (down { cursor } 0 published) (up a true) ∧
      a.Begins .standard [.blank request] { cursor } (if secure then 75 else 0) published := by
  have hlog : (Journal.logBytes Service.standard.format [.blank request]).length = 75 :=
    Journal.length_logBytes_blank request
  have hout : (Journal.outboxBytes Service.standard.format Service.standard.fresh
      [.blank request]).length = 152 :=
    Journal.length_outboxBytes_blank _ request
  have hreaches := reaches_returned secure tame (SymbolFiles.empty_of_cursor cursor)
    published (Service.admits_blank _ _ request) (by rw [hlog]; decide) (by rw [hout]; decide)
  rwa [hlog] at hreaches

end Bourse
