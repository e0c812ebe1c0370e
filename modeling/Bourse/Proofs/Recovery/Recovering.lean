import Bourse.Proofs.Recovery.Repairing
import Bourse.Proofs.Recovery.Replaying
import Bourse.Proofs.Symbol.Running

/-!
# Recovering the files of a journal

The log of a symbol holds commands and then less than a record; its outbox holds the events of some
of the first of these commands and then nothing that closes another. Such files are `Readable`, and
`recover_readable` says what a recovery makes of them: an outbox with the events of all commands,
a log without its torn end, and the book to which the commands lead.

What a recovery does with any files, how far it gets and what it leaves, is its `Course`. The results
about recoveries, those that fail among them, go through `recover_eq_iff`.
-/

namespace Bourse.Recovery

/-- Longest payload that a recovery accepts. -/
def Options.limit (o : Options) : Nat :=
  (readOptions o.maxPayload).limit

/-! ## The course of a recovery -/

/-- The course of a recovery: how far it gets, and what it leaves then. -/
inductive Course (o : Options) (f : Format) (files : SymbolFiles) (fresh : Book) :
    (SymbolFiles × Book) × Except RecoveryError Recovered → Prop where
  /-- The outbox cannot be repaired. -/
  | unrepaired {outbox : File} {e : RecoveryError}
      (repaired : repair f o.maxPayload files.outbox = (outbox, .error e)) :
      Course o f files fresh (({ files with outbox }, fresh), .error e)
  /-- The outbox cannot be opened. -/
  | unopened {outbox opened : File} {r : Repair} {e : LogError}
      (repaired : repair f o.maxPayload files.outbox = (outbox, .ok r))
      (opens : Log.Writer.open? outbox o.outboxBuffer = (opened, .error e)) :
      Course o f files fresh (({ files with outbox := opened }, fresh), .error (.log e))
  /-- The log cannot be read to its end, or one of its commands cannot be executed. -/
  | unreplayed {outbox opened : File} {r : Repair} {writer : Log.Writer} {s : Rebuild}
      {e : RecoveryError}
      (repaired : repair f o.maxPayload files.outbox = (outbox, .ok r))
      (opens : Log.Writer.open? outbox o.outboxBuffer = (opened, .ok writer))
      (replays : Log.replay (readOptions o.maxPayload) files.log .log (Rebuild.step f r.lastSeq)
        { book := fresh, outbox := (writer, opened), lastSeq := r.lastSeq } = (s, .error e)) :
      Course o f files fresh
        (({ files with outbox := (s.outbox.1.flush s.outbox.2).2 }, s.book), .error e)
  /-- The log cannot be opened, after its torn end was cut off. -/
  | logUnopened {outbox opened log : File} {r : Repair} {writer : Log.Writer} {s : Rebuild}
      {stats : Log.ReplayStats} {e : LogError}
      (repaired : repair f o.maxPayload files.outbox = (outbox, .ok r))
      (opens : Log.Writer.open? outbox o.outboxBuffer = (opened, .ok writer))
      (replays : Log.replay (readOptions o.maxPayload) files.log .log (Rebuild.step f r.lastSeq)
        { book := fresh, outbox := (writer, opened), lastSeq := r.lastSeq } = (s, .ok stats))
      (opensLog : Log.Writer.open?
        (if stats.torn then files.log.truncate stats.lastGood else files.log) o.logBuffer =
          (log, .error e)) :
      Course o f files fresh
        (({ files with log, outbox := (s.outbox.1.flush s.outbox.2).2 }, s.book), .error (.log e))
  /-- The symbol is recovered. -/
  | recovered {outbox opened log : File} {r : Repair} {writer logWriter : Log.Writer} {s : Rebuild}
      {stats : Log.ReplayStats}
      (repaired : repair f o.maxPayload files.outbox = (outbox, .ok r))
      (opens : Log.Writer.open? outbox o.outboxBuffer = (opened, .ok writer))
      (replays : Log.replay (readOptions o.maxPayload) files.log .log (Rebuild.step f r.lastSeq)
        { book := fresh, outbox := (writer, opened), lastSeq := r.lastSeq } = (s, .ok stats))
      (opensLog : Log.Writer.open?
        (if stats.torn then files.log.truncate stats.lastGood else files.log) o.logBuffer =
          (log, .ok logWriter)) :
      Course o f files fresh
        (({ files with log, outbox := (s.outbox.1.flush s.outbox.2).2 }, s.book),
          .ok
            { logs :=
                { files := { files with log, outbox := (s.outbox.1.flush s.outbox.2).2 }
                  log := logWriter, outbox := (s.outbox.1.flush s.outbox.2).1 }
              lastSeq := s.lastSeq, repair := r, replayed := s.replayed
              backfilled := s.backfilled
              cut := if stats.torn then files.log.size - stats.lastGood else 0 })

/-- A recovery takes one of these courses, and only one. -/
theorem recover_eq_iff {o : Options} {f : Format} {files : SymbolFiles} {fresh : Book}
    {left : (SymbolFiles × Book) × Except RecoveryError Recovered} :
    recover o f files fresh = left ↔ Course o f files fresh left := by
  constructor
  · rintro rfl
    unfold recover
    split
    · next repaired => exact .unrepaired repaired
    next repaired =>
    split
    · next opens => exact .unopened repaired opens
    next opens =>
    dsimp only
    split
    · next replays => exact .unreplayed repaired opens (Prod.ext rfl replays)
    next replays =>
    split
    · next opensLog => exact .logUnopened repaired opens (Prod.ext rfl replays) opensLog
    · next opensLog => exact .recovered repaired opens (Prod.ext rfl replays) opensLog
  · intro h
    unfold recover
    rw [← readOptions]
    cases h with
    | unrepaired repaired => rw [repaired]
    | unopened repaired opens => simp only [repaired, opens]
    | unreplayed repaired opens replays => simp only [repaired, opens, replays]
    | logUnopened repaired opens replays opensLog => simp only [repaired, opens, replays, opensLog]
    | recovered repaired opens replays opensLog => simp only [repaired, opens, replays, opensLog]

/-- What a recovery that succeeds went through: the outbox was repaired and opened, the log was
replayed, and then the log was cut and opened. -/
theorem exists_rebuilt_of_recover {o : Options} {f : Format} {files left : SymbolFiles}
    {fresh book : Book} {r : Recovered}
    (h : recover o f files fresh = ((left, book), .ok r)) :
    ∃ repaired outbox writer rebuilt stats,
      repair f o.maxPayload files.outbox = (repaired, .ok r.repair) ∧
      Log.Writer.open? repaired o.outboxBuffer = (outbox, .ok writer) ∧
      Log.replay (readOptions o.maxPayload) files.log .log (Rebuild.step f r.repair.lastSeq)
        { book := fresh, outbox := (writer, outbox), lastSeq := r.repair.lastSeq } =
          (rebuilt, .ok stats) ∧
      Log.Writer.open?
          (if stats.torn then files.log.truncate stats.lastGood else files.log) o.logBuffer =
        (left.log, .ok r.logs.log) ∧
      rebuilt.outbox.1.flush rebuilt.outbox.2 = (r.logs.outbox, left.outbox) ∧
      r.logs = { files := left, log := r.logs.log, outbox := r.logs.outbox } ∧
      book = rebuilt.book ∧ r.lastSeq = rebuilt.lastSeq ∧ r.replayed = rebuilt.replayed := by
  cases recover_eq_iff.1 h with
  | recovered repaired opens replays opensLog =>
    exact ⟨_, _, _, _, _, repaired, opens, replays, opensLog, rfl, rfl, rfl, rfl, rfl⟩

/-! ## Readable files -/

/-- Files from which the commands `cs` are recovered. The outbox holds the events of the first
`complete` of them, and some events of another command. -/
structure Readable (o : Options) (f : Format) (fresh : Book) (files : SymbolFiles)
    (cs : List Command) (complete : Nat) : Prop where
  logUsable : files.log.Usable
  outboxUsable : files.outbox.Usable
  complete_le : complete ≤ cs.length
  numbered : cs.length < UInt64.size
  modest : fresh.Modest (cs.take complete)
  log : ∃ tail, files.log.bytes = Journal.logBytes f cs ++ tail ∧ Log.Torn (readOptions o.maxPayload) tail
  logFits : ∀ p ∈ Journal.payloads f (Actor.number 0 cs), p.length ≤ o.limit
  outbox : ∃ dangling tail, files.outbox.bytes = Journal.outboxBytes f fresh (cs.take complete) ++
      Journal.eventBytes f dangling ++ tail ∧ Event.Open dangling ∧ Log.Torn (readOptions o.maxPayload) tail ∧
      ∀ e ∈ Journal.events fresh (Actor.number 0 (cs.take complete)) ++ dangling,
        (f.encodeEvent e).length ≤ o.limit

/-- What became of a symbol that was recovered: its book and logs are those of the journal. -/
structure Restored (f : Format) (fresh : Book) (cs : List Command) (files : SymbolFiles)
    (book : Book) (r : Recovered) : Prop where
  book : book = fresh.executeAll cs
  lastSeq : r.lastSeq = UInt64.ofNat cs.length
  log : files.log.bytes = Journal.logBytes f cs
  outbox : files.outbox.bytes = Journal.outboxBytes f fresh cs
  logs : r.logs.Holds (Journal.logBytes f cs) (Journal.outboxBytes f fresh cs)
  files : r.logs.files = files

/-- The records of the binary format have a fixed length, and so have the logs. -/
theorem Restored.sizes_binary {fresh book : Book} {cs : List Command} {files : SymbolFiles}
    {r : Recovered} (h : Restored .binary fresh cs files book r) :
    files.log.size = 75 * cs.length ∧
      files.outbox.size = 76 * (Journal.events fresh (Actor.number 0 cs)).length := by
  rw [← File.length_bytes, h.log, ← File.length_bytes, h.outbox]
  exact ⟨Journal.length_logBytes_binary cs, Journal.length_eventBytes_binary _⟩

/-- The log without its torn end. -/
theorem truncate_torn {file : File} {bytes tail : Bytes} (h : file.bytes = bytes ++ tail)
    (hu : file.Usable) :
    let log := if (!tail.isEmpty) then file.truncate bytes.length else file
    log.bytes = bytes ∧ log.Usable := by
  cases tail with
  | nil => exact ⟨by simpa using h, hu⟩
  | cons b rest =>
    refine ⟨?_, hu.truncate _⟩
    show (file.truncate bytes.length).bytes = bytes
    rw [File.bytes_truncate, h, List.take_left]

/-- What a recovery reads from readable files. The outbox is cut back to its closed commands and
opened; the commands of the log are executed and the missing events written. -/
theorem Readable.replays {o : Options} {f : Format} {fresh : Book}
    {files : SymbolFiles} {cs : List Command} {complete : Nat}
    (h : Readable o f fresh files cs complete) :
    ∃ cut r opened writer s result, repair f o.maxPayload files.outbox = (cut, .ok r) ∧
      Log.Writer.open? cut o.outboxBuffer = (opened, .ok writer) ∧
      Log.replay (readOptions o.maxPayload) files.log .log (Rebuild.step f r.lastSeq)
        { book := fresh, outbox := (writer, opened), lastSeq := r.lastSeq } = (s, result) ∧
      s.outbox.1.Holds s.outbox.2 (Journal.outboxBytes f fresh cs) ∧
      (fresh.Modest cs → ∃ stats, result = .ok stats ∧ s.book = fresh.executeAll cs ∧
        s.lastSeq = UInt64.ofNat cs.length ∧ s.replayed = cs.length ∧
        s.backfilled = cs.length - complete ∧
        let log := if stats.torn then files.log.truncate stats.lastGood else files.log
        log.bytes = Journal.logBytes f cs ∧ log.Usable) ∧
      (¬ fresh.Modest cs → result = .error (.log .tooManyEvents)) := by
  obtain ⟨tailLog, hlog, htornLog⟩ := h.log
  obtain ⟨dangling, tailOut, hout, hopen, htornOut, hfits⟩ := h.outbox
  have houtFits : ∀ e ∈ Journal.events fresh (Actor.number 0 (cs.take complete)) ++ dangling,
      Log.Fits (readOptions o.maxPayload).limit (f.encodeEvent e) :=
    fun e he => ⟨hfits e he, f.length_encodeEvent_le e⟩
  obtain ⟨r, hrepair, hlast⟩ := repair_ok h.outboxUsable h.modest hopen hout houtFits htornOut
  have htrunc : (files.outbox.truncate
      (Journal.outboxBytes f fresh (cs.take complete)).length).bytes =
      Journal.outboxBytes f fresh (cs.take complete) := by
    rw [File.bytes_truncate, hout, List.append_assoc, List.take_left]
  have hcount : r.lastSeq = UInt64.ofNat complete := by
    rw [hlast, List.length_take, Nat.min_eq_left h.complete_le]
  obtain ⟨writer, opened, hopened, hholds, -⟩ :=
    Log.Writer.open?_ok (h.outboxUsable.truncate _) o.outboxBuffer
  rw [htrunc] at hholds
  obtain ⟨s, visited, hrun, hdone, hok, hrefused⟩ :=
    Rebuild.replay_all h.complete_le h.numbered h.modest (writer, opened) hholds
  have hlogFits : ∀ p ∈ Journal.payloads f (Actor.number 0 cs),
      Log.Fits (readOptions o.maxPayload).limit p :=
    fun p hp => ⟨h.logFits p hp, Journal.length_le_of_mem_payloads hp⟩
  have hreplay := Log.replay_torn h.logUsable hlog hlogFits htornLog RecoveryError.log
    (Rebuild.step f r.lastSeq) { book := fresh, outbox := (writer, opened), lastSeq := r.lastSeq }
  rw [Rebuild.start, ← hcount, Rebuild.commandRecords] at hrun
  rw [hrun] at hreplay
  by_cases hm : fresh.Modest cs
  · obtain ⟨rfl, hbook, hseq, hreplayed, hback⟩ := hok hm
    refine ⟨_, r, opened, writer, s, _, hrepair, hopened, hreplay, hdone, fun _ => ?_,
      fun hnot => absurd hm hnot⟩
    exact ⟨_, rfl, hbook, hseq, hreplayed, hback, truncate_torn hlog h.logUsable⟩
  · rw [hrefused hm] at hreplay
    exact ⟨_, r, opened, writer, s, _, hrepair, hopened, hreplay, hdone, fun h => absurd h hm,
      fun _ => rfl⟩

/-- What a recovery does with readable files. Their outbox gets the events of all commands in any
case; the symbol is restored unless one of the commands has too many events, and then the log stays
as it is. -/
theorem recover_cases {o : Options} {f : Format} {fresh : Book}
    {files : SymbolFiles} {cs : List Command} {complete : Nat}
    (h : Readable o f fresh files cs complete) :
    ∃ files' book' result, recover o f files fresh = ((files', book'), result) ∧
      files'.outbox.isRegular ∧ files'.outbox.bytes = Journal.outboxBytes f fresh cs ∧
      files'.cursor = files.cursor ∧ files'.scratch = files.scratch ∧
      (fresh.Modest cs → ∃ r, result = .ok r ∧ Restored f fresh cs files' book' r ∧
        r.replayed = cs.length ∧ r.backfilled = cs.length - complete) ∧
      (¬ fresh.Modest cs → result = .error (.log .tooManyEvents) ∧ files'.log = files.log) := by
  obtain ⟨cut, r, opened, writer, s, result, hrepair, hopened, hreplay, hdone, hok, hrefused⟩ :=
    h.replays
  obtain ⟨hflushed, hwritten⟩ := hdone.flush
  by_cases hm : fresh.Modest cs
  · obtain ⟨stats, rfl, hbook, hseq, hreplayed, hback, hlogBytes, hlogUsable⟩ := hok hm
    -- What follows the last whole record of the log is removed.
    obtain ⟨logWriter, log, hlogOpened, hlogHolds, hlogSame⟩ :=
      Log.Writer.open?_ok hlogUsable o.logBuffer
    rw [hlogBytes] at hlogHolds hlogSame
    refine ⟨_, _, _, recover_eq_iff.2 (.recovered hrepair hopened hreplay hlogOpened),
      hflushed.regular, hwritten, rfl, rfl, fun _ => ?_, fun hnot => absurd hm hnot⟩
    refine ⟨_, rfl, ?_, hreplayed, hback⟩
    exact
      { book := hbook
        lastSeq := hseq
        log := hlogSame
        outbox := hwritten
        logs :=
          { log := hlogHolds
            logThere := rfl
            outbox := hflushed
            outboxThere := rfl }
        files := rfl }
  · rw [hrefused hm] at hreplay
    exact ⟨_, _, _, recover_eq_iff.2 (.unreplayed hrepair hopened hreplay), hflushed.regular,
      hwritten, rfl, rfl, fun h => absurd h hm, fun _ => ⟨rfl, rfl⟩⟩

theorem recover_readable {o : Options} {f : Format} {fresh : Book}
    {files : SymbolFiles} {cs : List Command} {complete : Nat}
    (h : Readable o f fresh files cs complete) (hm : fresh.Modest cs) :
    ∃ files' book' r, recover o f files fresh = ((files', book'), .ok r) ∧
      Restored f fresh cs files' book' r ∧ r.replayed = cs.length ∧
      r.backfilled = cs.length - complete ∧ files'.cursor = files.cursor ∧
      files'.scratch = files.scratch := by
  obtain ⟨files', book', result, hrecover, -, -, hcursor, hscratch, hok, -⟩ :=
    recover_cases h
  obtain ⟨r, rfl, hrestored, hreplayed, hback⟩ := hok hm
  exact ⟨files', book', r, hrecover, hrestored, hreplayed, hback, hcursor, hscratch⟩

end Bourse.Recovery
