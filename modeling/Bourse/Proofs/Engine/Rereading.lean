import Bourse.Proofs.Engine.Acknowledging
import Bourse.Proofs.Record.Sizing

/-!
# Reading back what was written

An engine writes records of any length, and reads only those that its configuration allows. So what it
writes under a configuration can be read back under the same configuration exactly if every record
that was written is within the limit, and the logs can be opened at all (`Engine.rereads_iff`). A limit
that is at least the length of the longest record lets everything be read back.
-/

namespace Bourse

/-! ## Configurations -/

namespace Config

variable {lookup : String → Option String} {config : Config}

theorem bind_eq_ok_iff {ε α β : Type} {x : Except ε α} {g : α → Except ε β} {b : β} :
    (x >>= g) = .ok b ↔ ∃ a, x = .ok a ∧ g a = .ok b := by
  cases x with
  | error e => simp [bind, Except.bind]
  | ok a => simp [bind, Except.bind]

/-- A size of zero stands for the default. -/
theorem size_ne_zero {key : String} {default n : Nat} (h : size lookup key default = .ok n)
    (hdefault : default ≠ 0) : n ≠ 0 := by
  obtain ⟨m, -, hm⟩ := bind_eq_ok_iff.1 h
  obtain rfl := Except.ok.inj hm
  split
  · exact hdefault
  · assumption

theorem maxPayload_ne_zero (h : ofVariables lookup = .ok config) : config.maxPayload ≠ 0 := by
  -- The limit is the last of eight variables that are read.
  simp only [ofVariables, bind_eq_ok_iff] at h
  obtain ⟨_, -, _, -, _, -, _, -, _, -, _, -, _, -, maxPayload, hsize, h⟩ := h
  obtain rfl := Except.ok.inj h
  exact size_ne_zero hsize (by decide)

/-- The limit of a recovery is the configured one. -/
theorem limit_options (h : ofVariables lookup = .ok config) :
    config.options.limit = config.maxPayload :=
  if_neg (maxPayload_ne_zero h)

end Config

/-- Both logs can be named in a directory. The name of the outbox is the longer one. -/
def SymbolPaths.LogsNameable (stem : String) : Prop :=
  (ofStem stem).outbox.utf8ByteSize ≤ File.maxName

theorem File.usable_vacant_iff {name : String} :
    (File.vacant name).Usable ↔ name.utf8ByteSize ≤ File.maxName := by
  unfold File.vacant
  split
  · next h =>
    refine iff_of_false ?_ (Nat.not_le_of_lt h)
    rintro (h | h) <;> cases h
  · next h => exact iff_of_true (Or.inl rfl) (Nat.le_of_not_lt h)

/-! ## Records within the limit -/

/-- The longest record is within the limit, so every record is. -/
theorem Journal.fits_of_longest {f : Format} {limit : Nat} (h : f.longest ≤ limit) (fresh : Book)
    (cs : List Command) : Journal.Fits limit f fresh cs where
  commands p hp := by
    obtain ⟨entry, -, rfl⟩ := List.mem_map.1 hp
    exact Nat.le_trans (f.length_encodeCommand_le_longest entry.1 entry.2) h
  events e _ := Nat.le_trans (f.length_encodeEvent_le_longest e) h

namespace Log

/-- A replay that succeeds has come to the end of the log. -/
theorem ending_of_replay {σ ε : Type} {o : ReadOptions} {file : File} {ofLog : LogError → ε}
    {visit : σ → Record → Attempt σ ε Unit} {s s' : σ} {stats : ReplayStats}
    (h : replay o file ofLog visit s = (s', .ok stats)) : (scan o file).ending = .ok stats.torn := by
  rcases hrun : Attempt.forEach visit s (scan o file).records with ⟨s₁, result⟩
  obtain ⟨result', hreplay, hok⟩ := replay_of_forEach ofLog hrun
  obtain ⟨-, rfl⟩ := Prod.mk.inj (hreplay.symm.trans h)
  exact (hok stats rfl).2.1

end Log

namespace Recovery

variable {o : Options} {f : Format} {files left : SymbolFiles} {fresh book : Book}
  {cs : List Command} {r : Recovered}

/-- A log that was read to its end has no record beyond the limit. -/
theorem fits_of_scan {file : File} (hu : file.Usable) {maxPayload : Nat} {ps : List Bytes}
    (hm : ∀ p ∈ ps, p.length ≤ Log.maxLength) (hb : file.bytes = Log.frames ps) {torn : Bool}
    (hok : (Log.scan (readOptions maxPayload) file).ending = .ok torn) :
    ∀ p ∈ ps, Log.Fits (readOptions maxPayload).limit p := by
  obtain ⟨qs, tail, ⟨more, rfl⟩, hbytes, hfits, -, hend⟩ :=
    scan_prefix hu maxPayload hm (hb ▸ List.prefix_refl _)
  obtain ⟨-, -, hless⟩ := hend torn hok
  cases more with
  | nil => rwa [List.append_nil]
  | cons p more =>
    -- The frame of the first record that was not read is in the file.
    have hshort := hless p ⟨more, by rw [List.append_assoc, List.singleton_append]⟩
    rw [hbytes, Log.frames_append, Log.frames_cons] at hb
    rw [List.append_cancel_left hb, List.length_append] at hshort
    omega

/-- A repair that succeeds has replayed the outbox. -/
theorem exists_replay_of_repair {maxPayload : Nat} {outbox outbox' : File} {repaired : Repair}
    (h : repair f maxPayload outbox = (outbox', .ok repaired)) :
    ∃ s stats, Log.replay (readOptions maxPayload) outbox .log (Repair.note f) {} =
      (s, .ok stats) := by
  obtain ⟨found, stats, hreplay, -⟩ := repair_eq_ok_iff.1 h
  exact ⟨found, stats, hreplay⟩

/-- A recovery that succeeds has read all records of both logs. -/
theorem fits_of_recover (hlog : files.log.bytes = Journal.logBytes f cs)
    (hout : files.outbox.bytes = Journal.outboxBytes f fresh cs)
    {left : SymbolFiles × Book} (h : recover o f files fresh = (left, .ok r)) :
    Journal.Fits o.limit f fresh cs := by
  obtain ⟨_, _, _, _, stats, hrepair, -, hreplay, -⟩ := exists_rebuilt_of_recover h
  constructor
  · have hfits := fits_of_scan (usable_of_replay hreplay)
      (fun p hp => Journal.length_le_of_mem_payloads hp) hlog (Log.ending_of_replay hreplay)
    exact fun p hp => (hfits p hp).1
  · obtain ⟨_, stats, hfound⟩ := exists_replay_of_repair hrepair
    have hm : ∀ p ∈ (Journal.events fresh (Actor.number 0 cs)).map f.encodeEvent,
        p.length ≤ Log.maxLength := by
      intro p hp
      obtain ⟨e, -, rfl⟩ := List.mem_map.1 hp
      exact f.length_encodeEvent_le e
    have hfits := fits_of_scan (usable_of_replay hfound) hm hout (Log.ending_of_replay hfound)
    exact fun e he => (hfits _ (List.mem_map_of_mem he)).1

/-- A recovery begins with the repair of the outbox, and fails if that does. -/
theorem recover_unrepaired {e : RecoveryError}
    (h : (repair f o.maxPayload files.outbox).2 = .error e) :
    (recover o f files fresh).2 = .error e := by
  rcases hrepair : repair f o.maxPayload files.outbox with ⟨outbox, result⟩
  rw [hrepair] at h
  obtain rfl : result = .error e := h
  rw [recover_eq_iff.2 (.unrepaired hrepair)]

/-! ## Files that hold nothing -/

/-- A file that holds nothing, and that can be opened exactly if the one before could. -/
structure Hollow (before file : File) : Prop where
  bytes : file.bytes = []
  usable : file.Usable ↔ before.Usable

namespace Hollow

variable {before file file' : File}

theorem truncate (h : Hollow before file) (n : Nat) : Hollow before (file.truncate n) := by
  refine ⟨by rw [File.bytes_truncate, h.bytes, List.take_nil], Iff.trans ?_ h.usable⟩
  cases file with
  | regular content => exact iff_of_true (Or.inr rfl) (Or.inr rfl)
  | _ => exact Iff.rfl

/-- Opening a file for writing does not make it one that can be opened. -/
theorem opened (h : Hollow before file) {buffer : Nat} {result : Except LogError Log.Writer}
    (hopen : Log.Writer.open? file buffer = (file', result)) : Hollow before file' := by
  refine ⟨(Log.Writer.bytes_of_open? hopen).trans h.bytes, Iff.trans ?_ h.usable⟩
  have hopened (husable : file.Usable) : file'.Usable := by
    obtain ⟨created, hcreate, hregular, -⟩ := husable.create
    rw [Log.Writer.open?, hcreate] at hopen
    obtain ⟨rfl, -⟩ := Prod.mk.inj hopen
    exact Or.inr hregular
  cases file with
  | absent => exact iff_of_true (hopened (Or.inl rfl)) (Or.inl rfl)
  | regular content => exact iff_of_true (hopened (Or.inr rfl)) (Or.inr rfl)
  | directory =>
    obtain ⟨rfl, -⟩ := Prod.mk.inj hopen
    exact Iff.rfl
  | unnameable =>
    obtain ⟨rfl, -⟩ := Prod.mk.inj hopen
    exact Iff.rfl

/-- A writer that was just opened has nothing to write. -/
theorem flushed (h : Hollow before file) {buffer : Nat} {writer : Log.Writer}
    (hopen : Log.Writer.open? file buffer = (file', .ok writer)) :
    Hollow before (writer.flush file').2 := by
  obtain ⟨hholds, -⟩ := Log.Writer.holds_of_open? hopen
  obtain ⟨hflushed, hwritten⟩ := hholds.flush
  have husable := (h.opened hopen).usable.1 (Or.inr hholds.regular)
  exact ⟨hwritten.trans h.bytes, iff_of_true (Or.inr hflushed.regular) husable⟩

/-- There is nothing to replay. -/
theorem replay {σ ε : Type} {o : Log.ReadOptions} (h : Hollow before file)
    (ofLog : LogError → ε) (visit : σ → Log.Record → Attempt σ ε Unit) (s : σ) :
    (Log.replay o file ofLog visit s).1 = s := by
  have hnone : (Log.scan o file).records = [] := by
    cases file with
    | regular content =>
      have hframes : (File.regular content).bytes = Log.frames [] ++ [] := h.bytes
      rw [Log.scan_frames (Or.inr rfl) hframes (fun p hp => (by cases hp)) rfl]
      rfl
    | _ => rfl
  have hrun : Attempt.forEach visit s (Log.scan o file).records = (s, .ok ()) := by
    rw [hnone]
    rfl
  obtain ⟨result, hreplay, -⟩ := Log.replay_of_forEach ofLog hrun
  rw [hreplay]

/-- Nor is there anything to repair, whatever comes of it. -/
theorem repaired (h : Hollow before file) {maxPayload : Nat}
    {result : Except RecoveryError Repair} (hrepair : repair f maxPayload file = (file', result)) :
    Hollow before file' ∧ ∀ r, result = .ok r → r.lastSeq = 0 := by
  cases result with
  | error e =>
    obtain ⟨rfl, -⟩ := repair_eq_error_iff.1 hrepair
    exact ⟨h, fun r hr => (by cases hr)⟩
  | ok r =>
    obtain ⟨found, stats, hfound, rfl, rfl⟩ := repair_eq_ok_iff.1 hrepair
    have hnothing : found = {} := by
      rw [← h.replay RecoveryError.log (Repair.note f) {}, hfound]
    refine ⟨h.truncate _, fun r hr => ?_⟩
    obtain rfl := Except.ok.inj hr
    rw [hnothing]

end Hollow

/-- Logs that hold nothing, and that can be opened if those before could. -/
structure Blank (before files : SymbolFiles) : Prop where
  log : Hollow before.log files.log
  outbox : Hollow before.outbox files.outbox

/-- Whatever comes of a recovery from logs that hold nothing, they hold nothing afterwards. -/
theorem Blank.recover {before : SymbolFiles} (h : Blank before files)
    {result : Except RecoveryError Recovered}
    (hrecover : recover o f files fresh = ((left, book), result)) :
    Blank before left ∧ book = fresh ∧ ∀ r, result = .ok r → r.lastSeq = 0 := by
  -- There is no command to execute, and no event to write.
  have hidle {complete : Seq} {s s' : Rebuild} {result : Except RecoveryError Log.ReplayStats}
      (hreplay : Log.replay (readOptions o.maxPayload) files.log .log (Rebuild.step f complete) s =
        (s', result)) : s' = s := by
    have hsame := h.log.replay (o := readOptions o.maxPayload) RecoveryError.log
      (Rebuild.step f complete) s
    rwa [hreplay] at hsame
  have hcut (torn : Bool) (lastGood : Nat) :
      Hollow before.log (if torn then files.log.truncate lastGood else files.log) := by
    split
    · exact h.log.truncate _
    · exact h.log
  cases recover_eq_iff.1 hrecover with
  | unrepaired repaired =>
    exact ⟨⟨h.log, (h.outbox.repaired repaired).1⟩, rfl, fun r hr => (by cases hr)⟩
  | unopened repaired opens =>
    obtain ⟨hrepaired, -⟩ := h.outbox.repaired repaired
    exact ⟨⟨h.log, hrepaired.opened opens⟩, rfl, fun r hr => (by cases hr)⟩
  | unreplayed repaired opens replays =>
    obtain ⟨hrepaired, -⟩ := h.outbox.repaired repaired
    obtain rfl := hidle replays
    exact ⟨⟨h.log, hrepaired.flushed opens⟩, rfl, fun r hr => (by cases hr)⟩
  | logUnopened repaired opens replays opensLog =>
    obtain ⟨hrepaired, -⟩ := h.outbox.repaired repaired
    obtain rfl := hidle replays
    exact ⟨⟨(hcut _ _).opened opensLog, hrepaired.flushed opens⟩, rfl, fun r hr => (by cases hr)⟩
  | @recovered _ _ _ repair _ _ _ _ repaired opens replays opensLog =>
    obtain ⟨hrepaired, hlast⟩ := h.outbox.repaired repaired
    obtain rfl := hidle replays
    refine ⟨⟨(hcut _ _).opened opensLog, hrepaired.flushed opens⟩, rfl, fun r hr => ?_⟩
    obtain rfl := Except.ok.inj hr
    exact hlast repair rfl

/-- A log that holds nothing has no records. -/
theorem parsed_of_nil {b : Bytes} (h : b = []) (limit : Nat) : Log.Parsed limit b [] [] := by
  rw [h]
  exact Log.parsed_frames (List.forall_mem_nil _)

theorem Blank.tried {before : SymbolFiles} {start : Option Book} (h : Blank before before)
    (htried : Tried o f start before files) : Blank before files := by
  induction htried with
  | untouched => exact h
  | attempt _ _ recovered ih => exact (ih.recover recovered).1

/-- A symbol that is recovered from logs that hold nothing begins with its fresh book. -/
theorem Blank.recovers {before : SymbolFiles} {start : Option Book} (h : Blank before before)
    (hrecovers : Recovers o f start before left book r) :
    Blank before left ∧ start = some book ∧ r.lastSeq = 0 ∧ before.log.Usable ∧
      before.outbox.Usable := by
  obtain ⟨files, fresh, htried, rfl, hrecover⟩ := hrecovers
  have hbefore := h.tried htried
  obtain ⟨hblank, rfl, hlast⟩ := hbefore.recover hrecover
  have hreopened := recover_reopens (parsed_of_nil hbefore.log.bytes o.limit) hrecover
  have hlog := hreopened.logs.log.regular
  have hout := hreopened.logs.outbox.regular
  rw [hreopened.files] at hlog hout
  exact ⟨hblank, rfl, hlast r rfl, hblank.log.usable.1 (Or.inr hlog),
    hblank.outbox.usable.1 (Or.inr hout)⟩

/-! ## Files of a journal -/

/-- A recovery succeeds and executes these commands, each once. There is nothing to write again, and
both logs stay as they are. -/
def Rereads (o : Options) (f : Format) (files : SymbolFiles) (fresh : Book) (cs : List Command) :
    Prop :=
  ∃ left r, recover o f files fresh = ((left, fresh.executeAll cs), .ok r) ∧
    r.replayed = cs.length ∧ r.backfilled = 0 ∧ r.lastSeq = UInt64.ofNat cs.length ∧
    left.log.bytes = files.log.bytes ∧ left.outbox.bytes = files.outbox.bytes

theorem rereads_of_keeps (h : files.Keeps f fresh cs) (hnum : cs.length < UInt64.size)
    (hm : fresh.Modest cs) (hfits : Journal.Fits o.limit f fresh cs) :
    Rereads o f files fresh cs := by
  have htorn : Log.Torn (readOptions o.maxPayload) [] := Log.torn_cut rfl (Or.inl rfl)
  have hreadable : Readable o f fresh files cs cs.length := by
    refine ⟨h.logUsable, h.outboxUsable, Nat.le_refl _, hnum, hm.take _, ⟨[], ?_, htorn⟩,
      hfits.commands, ⟨[], [], ?_, fun e he => (by cases he), htorn, ?_⟩⟩
    · rw [h.log, List.append_nil]
    · rw [h.outbox, List.take_length, List.append_nil]
      exact (List.append_nil _).symm
    · rw [List.take_length, List.append_nil]
      exact hfits.events
  obtain ⟨left, book, r, hrecover, hrestored, hreplayed, hbackfilled, -, -⟩ :=
    recover_readable hreadable hm
  obtain rfl := hrestored.book
  refine ⟨left, r, hrecover, hreplayed, ?_, hrestored.lastSeq, ?_, ?_⟩
  · rw [hbackfilled, Nat.sub_self]
  · rw [hrestored.log, h.log]
  · rw [hrestored.outbox, h.outbox]

end Recovery

/-- Commands that are executed have events. -/
theorem Journal.events_ne_nil {b : Book} {cs : List Command} (hm : b.Modest cs) (hne : cs ≠ [])
    (last : Seq) : events b (Actor.number last cs) ≠ [] := by
  cases cs with
  | nil => exact absurd rfl hne
  | cons c rest =>
    rw [events_cons, group, Event.recorded_of_le hm.1]
    simp

theorem Recovery.hollow_vacant (name : String) : Hollow (.vacant name) (.vacant name) where
  bytes := by
    unfold File.vacant
    split <;> rfl
  usable := Iff.rfl

theorem SymbolFiles.blank_vacant (stem : String) :
    Recovery.Blank (.vacant stem) (.vacant stem) :=
  ⟨Recovery.hollow_vacant _, Recovery.hollow_vacant _⟩

namespace Engine

open Recovery

/-- What a session leaves of a symbol of which there was nothing: the journal of the commands that
were taken. If there are any, its logs could be opened. -/
structure Wrote (f : Format) (fresh : Book) (before after : SymbolFiles)
    (taken : List Command) : Prop where
  log : after.log.bytes = Journal.logBytes f taken
  outbox : after.outbox.bytes = Journal.outboxBytes f fresh taken
  logUsable : after.log.Usable ↔ before.log.Usable
  outboxUsable : after.outbox.Usable ↔ before.outbox.Usable
  opened : taken ≠ [] → before.log.Usable ∧ before.outbox.Usable

theorem Logged.wrote {o : Recovery.Options} {f : Format} {fresh : Book} {before after : SymbolFiles}
    {taken : List Command} (hblank : Blank before before) (hm : fresh.Modest taken)
    (h : Logged o f (some fresh) before after [] taken) : Wrote f fresh before after taken := by
  cases h with
  | @nothing left tried same log =>
    have hleft := hblank.tried tried
    exact
      { log := by rw [same.log]; exact hleft.log.bytes
        outbox := by rw [same.outbox]; exact hleft.outbox.bytes
        logUsable := by rw [same.log]; exact hleft.log.usable
        outboxUsable := by rw [same.outbox]; exact hleft.outbox.usable
        opened := fun hne => absurd rfl hne }
  | @behind left book r _ taken_ne recovers numbered log outbox =>
    obtain ⟨hleft, hbook, hlast, hlogUsable, houtUsable⟩ := hblank.recovers recovers
    obtain rfl := Option.some.inj hbook
    rw [hlast] at log outbox
    rw [hleft.outbox.bytes, List.nil_append] at outbox
    have hlog : after.log.bytes = Journal.logBytes f taken := log
    -- Neither log is empty then, so both can be opened, as they could before.
    have hlogNe : after.log.bytes ≠ [] := by
      intro hnil
      have hle := Journal.length_le_logBytes f taken
      rw [← hlog, hnil] at hle
      exact taken_ne (List.length_eq_zero_iff.1 (Nat.le_zero.1 hle))
    have houtNe : after.outbox.bytes ≠ [] := by
      intro hnil
      have hle := Journal.length_le_eventBytes f (Journal.events fresh (Actor.number 0 taken))
      rw [← outbox, hnil] at hle
      exact Journal.events_ne_nil hm taken_ne 0 (List.length_eq_zero_iff.1 (Nat.le_zero.1 hle))
    exact
      { log := hlog
        outbox := outbox
        logUsable := iff_of_true (Or.inr (File.isRegular_of_bytes hlogNe)) hlogUsable
        outboxUsable := iff_of_true (Or.inr (File.isRegular_of_bytes houtNe)) houtUsable
        opened := fun _ => ⟨hlogUsable, houtUsable⟩ }

/-- The files that are not there yet can be opened if the outbox can be named. -/
theorem usable_vacant_iff (stem : String) :
    (SymbolFiles.vacant stem).log.Usable ∧ (SymbolFiles.vacant stem).outbox.Usable ↔
      SymbolPaths.LogsNameable stem := by
  have hlog : ".wal".utf8ByteSize = 4 := by decide
  have houtbox : ".ev.wal".utf8ByteSize = 7 := by decide
  simp only [SymbolPaths.LogsNameable, SymbolFiles.vacant, SymbolPaths.ofStem, File.usable_vacant_iff,
    String.utf8ByteSize_append, hlog, houtbox]
  omega

/-- What a session over an initially empty directory leaves of one symbol. -/
theorem wrote_of_session (f : Format) (books : String → Option Book) (s : Session) {symbol : String}
    {fresh : Book} (hbook : books symbol = some fresh)
    (hfiles : ∀ a ∈ s.acts, fileStem a.symbol = fileStem symbol → a.symbol = symbol)
    (hm : fresh.Modest (acknowledged symbol s.acts ((s.opening f books ∅).acts s.acts).2)) :
    Wrote f fresh (.vacant (fileStem symbol))
      (((s.opening f books ∅).acts s.acts).1.shutdown.1.directory.filesOf symbol)
      (acknowledged symbol s.acts ((s.opening f books ∅).acts s.acts).2) := by
  have hblank := SymbolFiles.blank_vacant (fileStem symbol)
  have hopened : (s.opening f books ∅).Takes symbol (.vacant (fileStem symbol)) [] :=
    .unused rfl .untouched
  have hapart : (s.opening f books ∅).Apart symbol := fun other hother => by cases hother
  have hallows : (s.opening f books ∅).Allows symbol (.vacant (fileStem symbol))
      (acknowledged symbol s.acts ((s.opening f books ∅).acts s.acts).2) := by
    intro left book r hrecovers
    obtain ⟨-, hsame, -⟩ := hblank.recovers hrecovers
    obtain rfl := Option.some.inj (hbook.symm.trans hsame)
    exact hm
  obtain ⟨htakes, hapart', hakin⟩ := hopened.acts hapart hfiles hallows
  have hlogged := htakes.shutdown hapart' (hallows.akin hakin) (parsed_of_nil hblank.log.bytes _)
  rw [hakin.config, hakin.format, hakin.fresh] at hlogged
  have hfresh : (s.opening f books ∅).fresh symbol = some fresh := hbook
  rw [hfresh] at hlogged
  exact Logged.wrote hblank hm hlogged

/-- **What an engine writes it can read back exactly if every record is within the limit for reading.**
An engine with any configuration that variables can give is opened on an empty directory, anything
happens to any symbols in any order, and then the engine is shut down. No other symbol uses the files
of `symbol`, none of the commands that were taken for it has too many events, and its log is no longer
than a file can be. Then the log has exactly these commands, and a recovery under the same configuration
executes each of them once, with nothing to write again, if and only if the logs of the symbol can be
named and none of the records is longer than the limit; otherwise it fails. The logs can be named if
any command was taken, and every record is within a limit of 68 bytes, or 158 for lines of text. -/
theorem rereads_iff {lookup : String → Option String} {config : Config}
    (hconfig : Config.ofVariables lookup = .ok config) (f : Format) (books : String → Option Book)
    {symbol : String} {fresh : Book} (hbook : books symbol = some fresh) (acts : List Act)
    (hfiles : ∀ a ∈ acts, fileStem a.symbol = fileStem symbol → a.symbol = symbol) :
    let s : Session := { config, acts }
    let acted := (s.opening f books ∅).acts acts
    let taken := acknowledged symbol acts acted.2
    let files := acted.1.shutdown.1.directory.filesOf symbol
    fresh.Modest taken → files.log.size ≤ File.maxPosition →
      files.log.bytes = Journal.logBytes f taken ∧
      (Rereads config.options f files fresh taken ↔
        SymbolPaths.LogsNameable (fileStem symbol) ∧ Journal.Fits config.maxPayload f fresh taken) ∧
      (∀ left r, recover config.options f files fresh = (left, .ok r) →
        Rereads config.options f files fresh taken) ∧
      (taken ≠ [] → SymbolPaths.LogsNameable (fileStem symbol)) ∧
      (f.longest ≤ config.maxPayload → Journal.Fits config.maxPayload f fresh taken) := by
  intro s acted taken files hm hsize
  have hwrote : Wrote f fresh (.vacant (fileStem symbol)) files taken :=
    wrote_of_session f books s hbook hfiles hm
  have hlimit := Config.limit_options hconfig
  have hnum : taken.length < UInt64.size := by
    rw [← File.length_bytes, hwrote.log] at hsize
    exact File.length_lt_of_inRange hsize (Nat.le_refl _)
  have hrereads (hnameable : SymbolPaths.LogsNameable (fileStem symbol))
      (hfits : Journal.Fits config.maxPayload f fresh taken) :
      Rereads config.options f files fresh taken := by
    obtain ⟨hlog, hout⟩ := (usable_vacant_iff _).2 hnameable
    refine rereads_of_keeps ?_ hnum hm (hlimit.symm ▸ hfits)
    exact ⟨hwrote.logUsable.2 hlog, hwrote.log, hwrote.outboxUsable.2 hout, hwrote.outbox⟩
  -- A recovery that succeeds has read both logs to their ends.
  have hneeds {left r} (hrecover : recover config.options f files fresh = (left, .ok r)) :
      SymbolPaths.LogsNameable (fileStem symbol) ∧
        Journal.Fits config.maxPayload f fresh taken := by
    have hfits := fits_of_recover hwrote.log hwrote.outbox hrecover
    rw [hlimit] at hfits
    obtain ⟨_, _, _, _, _, hrepair, -, hreplay, -⟩ := exists_rebuilt_of_recover hrecover
    obtain ⟨_, _, hrepaired⟩ := exists_replay_of_repair hrepair
    refine ⟨(usable_vacant_iff _).1 ⟨?_, ?_⟩, hfits⟩
    · exact hwrote.logUsable.1 (usable_of_replay hreplay)
    · exact hwrote.outboxUsable.1 (usable_of_replay hrepaired)
  refine ⟨hwrote.log, ⟨?_, fun h => hrereads h.1 h.2⟩, ?_, ?_, ?_⟩
  · rintro ⟨left, r, hrecover, -⟩
    exact hneeds hrecover
  · intro left r hrecover
    exact hrereads (hneeds hrecover).1 (hneeds hrecover).2
  · exact fun hne => (usable_vacant_iff _).1 (hwrote.opened hne)
  · exact fun h => Journal.fits_of_longest h fresh taken

/-- A session with one command, under a limit for reading. -/
def Session.limited (maxPayload : Nat) : Session where
  config := { maxPayload }
  acts := [⟨"ACME", .cancel { action := .cancel 5 }⟩]

/-- The only variable that is set. -/
def Session.limitVariable (value key : String) : Option String :=
  if key = "ENGINE_MAX_PAYLOAD" then some value else none

/-- The command of the session. -/
def Session.limitedTaken : List Command :=
  [{ action := .cancel 5 }]

/-- What is left of the session if its command is taken. -/
theorem wrote_limited {maxPayload : Nat}
    (htaken : acknowledged "ACME" (Session.limited maxPayload).acts
      (((Session.limited maxPayload).opening .binary (fun _ => some {}) ∅).acts
        (Session.limited maxPayload).acts).2 = Session.limitedTaken) :
    Wrote .binary {} (.vacant (fileStem "ACME"))
      (((Session.limited maxPayload).run .binary (fun _ => some {}) ∅).1.filesOf "ACME")
      Session.limitedTaken := by
  have hm : ({} : Book).Modest Session.limitedTaken := modest_of_isCancel (by decide) _
  have hfiles : ∀ a ∈ (Session.limited maxPayload).acts, fileStem a.symbol = fileStem "ACME" →
      a.symbol = "ACME" := fun a ha _ => by rw [List.mem_singleton.1 ha]
  have hwrote := wrote_of_session .binary (fun _ => some {}) (.limited maxPayload) rfl hfiles
    (htaken.symm ▸ hm)
  rwa [htaken] at hwrote

/-- The least limit under which binary logs can always be read. -/
theorem rereads_under_least_limit :
    let files := ((Session.limited 68).run .binary (fun _ => some {}) ∅).1.filesOf "ACME"
    Config.ofVariables (Session.limitVariable "68") = .ok (Session.limited 68).config ∧
      (∀ a ∈ (Session.limited 68).acts, fileStem a.symbol = fileStem "ACME" → a.symbol = "ACME") ∧
      ({} : Book).Modest Session.limitedTaken ∧ files.log.size ≤ File.maxPosition ∧
      Rereads (Session.limited 68).config.options .binary files {} Session.limitedTaken := by
  intro files
  have hconfig : Config.ofVariables (Session.limitVariable "68") =
      .ok (Session.limited 68).config := by decide +kernel
  have hfiles : ∀ a ∈ (Session.limited 68).acts, fileStem a.symbol = fileStem "ACME" →
      a.symbol = "ACME" := by decide
  have hm : ({} : Book).Modest Session.limitedTaken := modest_of_isCancel (by decide) _
  have htaken : acknowledged "ACME" (Session.limited 68).acts
      (((Session.limited 68).opening .binary (fun _ => some {}) ∅).acts
        (Session.limited 68).acts).2 = Session.limitedTaken := by decide +kernel
  have hsize : files.log.size ≤ File.maxPosition := by
    rw [← File.length_bytes, (wrote_limited htaken).log]
    decide +kernel
  obtain ⟨-, hiff, -, hnameable, hfits⟩ := rereads_iff hconfig .binary (fun _ => some {}) rfl
    (Session.limited 68).acts hfiles (htaken ▸ hm) hsize
  refine ⟨hconfig, hfiles, hm, hsize, htaken ▸ hiff.2 ⟨hnameable ?_, hfits (Nat.le_refl _)⟩⟩
  rw [htaken]
  exact List.cons_ne_nil _ _

/-- Under a limit of one byte the engine takes and logs the command as well, and its files cannot be
read back. -/
theorem unreadable_under_limit :
    let files := ((Session.limited 1).run .binary (fun _ => some {}) ∅).1.filesOf "ACME"
    Config.ofVariables (Session.limitVariable "1") = .ok (Session.limited 1).config ∧
      ((Session.limited 1).run .binary (fun _ => some {}) ∅).2.replies.map (·.2.answer) =
        [.ok ()] ∧
      ({} : Book).Modest Session.limitedTaken ∧
      files.log.bytes = Journal.logBytes .binary Session.limitedTaken ∧
      (recover (Session.limited 1).config.options .binary files {}).2.map (·.replayed) =
        .error (.log (.payloadTooLarge 0 68 1)) := by
  intro files
  have htaken : acknowledged "ACME" (Session.limited 1).acts
      (((Session.limited 1).opening .binary (fun _ => some {}) ∅).acts
        (Session.limited 1).acts).2 = Session.limitedTaken := by decide +kernel
  have hwrote := wrote_limited htaken
  have houtbox : files.outbox = .ofBytes (Journal.outboxBytes .binary {} Session.limitedTaken) := by
    have hregular : files.outbox.isRegular := by
      refine File.isRegular_of_bytes ?_
      rw [hwrote.outbox]
      decide +kernel
    refine File.eq_of_bytes_eq hregular rfl ?_
    rw [File.bytes_ofBytes, hwrote.outbox]
  refine ⟨by decide +kernel, by decide +kernel, modest_of_isCancel (by decide) _, hwrote.log, ?_⟩
  rw [recover_unrepaired (e := .log (.payloadTooLarge 0 68 1))]
  · rfl
  · rw [houtbox]
    decide +kernel

end Engine

end Bourse
