import Bourse.Proofs.Recovery.Mislabelled

/-!
# Recovering whatever there is

A symbol may be recovered from files with any bytes in them. When that succeeds, both logs are open
at the ends of their files, and the log of commands has all the records that it had (`Reopened`).
When it fails it may be tried again: whatever was tried before, the records of the log are the same
(`Tried`).
-/

namespace Bourse

/-- Records with nothing behind them. -/
theorem Log.parsed_frames {limit : Nat} {ps : List Bytes} (h : ∀ p ∈ ps, Fits limit p) :
    Parsed limit (frames ps) ps [] where
  bytes := (List.append_nil _).symm
  fits := h
  maximal p _ hframe := by
    have hlen := hframe.length_le
    rw [length_frame, List.length_nil, headerSize] at hlen
    omega

namespace Recovery

variable {o : Options} {f : Format} {files left : SymbolFiles} {fresh book : Book}
  {r : Recovered} {ps : List Bytes} {rest : Bytes}

/-! ## Executing logged commands -/

namespace Rebuild

variable {complete : Seq} {s s' : Rebuild}

/-- Whatever a record holds, the outbox is written to at its end. -/
theorem step_holds (s : Rebuild) (r : Log.Record)
    (h : ∃ bytes, s.outbox.1.Holds s.outbox.2 bytes) :
    ∃ bytes, (step f complete s r).1.outbox.1.Holds (step f complete s r).1.outbox.2 bytes := by
  unfold step
  split
  · exact h
  · next seq c _ =>
    dsimp only
    split
    · exact h
    · obtain ⟨bytes, hbytes⟩ := h
      obtain ⟨out, hput, hout⟩ := forEach_put s.outbox hbytes
        (Event.recorded seq c.request (s.book.execute c).2)
      have hrecord : Emitter.record (put f) s.outbox seq c.request (s.book.execute c).2 =
          (out, Emitter.outcome 0 (s.book.execute c).2) := by
        rw [Emitter.record_eq, hput]
        rfl
      rw [hrecord]
      cases Emitter.outcome 0 (s.book.execute c).2 with
      | error e => exact ⟨_, hout⟩
      | ok n => exact ⟨_, hout⟩

end Rebuild

/-! ## The records of the log -/

/-- If nothing is torn and nothing is wrong, nothing is left. -/
theorem eq_nil_of_verdict {limit start : Nat} {tolerant : Bool} {rest : Bytes}
    (h : Log.verdict limit tolerant start rest = .ok false) : rest = [] := by
  unfold Log.verdict at h
  dsimp only at h
  split at h
  · assumption
  · exfalso
    repeat' split at h
    all_goals cases h

/-- Only what is a log can be replayed. -/
theorem usable_of_replay {ε σ : Type} {ro : Log.ReadOptions} {log : File} {ofLog : LogError → ε}
    {visit : σ → Log.Record → Attempt σ ε Unit} {s s' : σ} {stats : Log.ReplayStats}
    (h : Log.replay ro log ofLog visit s = (s', .ok stats)) : log.Usable := by
  cases log with
  | absent => exact Or.inl rfl
  | regular content => exact Or.inr rfl
  | directory => cases h
  | unnameable => cases h

/-- A replay that succeeds has found a file, and visited all records in it. What it calls torn is
all that follows them. -/
theorem replay_ok {ε σ : Type} {log : File} {ofLog : LogError → ε}
    {visit : σ → Log.Record → Attempt σ ε Unit} {s s' : σ} {stats : Log.ReplayStats}
    (hparsed : Log.Parsed o.limit log.bytes ps rest)
    (h : Log.replay (readOptions o.maxPayload) log ofLog visit s = (s', .ok stats)) :
    Attempt.forEach visit s (Log.recordsFrom 0 ps) = (s', .ok ()) ∧
      (if stats.torn then log.truncate stats.lastGood else log).bytes = Log.frames ps := by
  have husable := usable_of_replay h
  have hnone : (Log.Frame.parse o.limit rest).isRecord = false :=
    Log.Frame.isRecord_eq_false_iff.2 hparsed.maximal
  rw [Log.replay_frames (o := readOptions o.maxPayload) husable hparsed.bytes hparsed.fits hnone,
    Log.ending_eq_verdict (o := readOptions o.maxPayload) hnone] at h
  rcases hrun : Attempt.forEach visit s (Log.recordsFrom 0 ps) with ⟨s₁, e | _⟩
  · rw [hrun] at h
    cases h
  · rw [hrun] at h
    simp only [Attempt.andThen] at h
    cases hverdict : Log.verdict (readOptions o.maxPayload).limit
        (readOptions o.maxPayload).tolerant (Log.frames ps).length rest with
    | error e =>
      rw [hverdict] at h
      cases h
    | ok torn =>
      rw [hverdict] at h
      cases h
      refine ⟨rfl, ?_⟩
      have hbytes := hparsed.bytes
      cases torn with
      | true =>
        show (log.truncate (Log.frames ps).length).bytes = _
        rw [File.bytes_truncate, hbytes, List.take_left]
      | false =>
        show log.bytes = _
        rw [hbytes, eq_nil_of_verdict hverdict, List.append_nil]

/-- What a recovery leaves that succeeds. The log has its records, which are commands, and new ones
are numbered behind all of them. Both logs are open at their ends. -/
structure Reopened (f : Format) (ps : List Bytes) (left : SymbolFiles) (r : Recovered) : Prop where
  log : left.log.bytes = Log.frames ps
  logs : r.logs.Holds left.log.bytes left.outbox.bytes
  files : r.logs.files = left
  numbered : ∀ p ∈ ps, ∃ seq c, f.decodeCommand p = .ok (seq, c) ∧ seq ≤ r.lastSeq

theorem recover_reopens (hparsed : Log.Parsed o.limit files.log.bytes ps rest)
    (h : recover o f files fresh = ((left, book), .ok r)) : Reopened f ps left r := by
  obtain ⟨repaired, outbox, writer, rebuilt, stats, -, hopened, hreplay, hlogOpened, hflush,
    hlogs, -, hseq, -⟩ := exists_rebuilt_of_recover h
  obtain ⟨hvisited, hlog⟩ := replay_ok hparsed hreplay
  obtain ⟨hlogHolds, hlogSame⟩ := Log.Writer.holds_of_open? hlogOpened
  have hnumbered := (Rebuild.replays_of_forEach hvisited).numbered
  have hrebuilt := Attempt.forEach_keeps (f := Rebuild.step f r.repair.lastSeq) Rebuild.step_holds
    (s := { book := fresh, outbox := (writer, outbox), lastSeq := r.repair.lastSeq })
    ⟨_, (Log.Writer.holds_of_open? hopened).1⟩ (Log.recordsFrom 0 ps)
  rw [hvisited] at hrebuilt
  obtain ⟨bytes, hrebuilt⟩ := hrebuilt
  obtain ⟨hflushed, hwritten⟩ := hrebuilt.flush
  rw [hflush] at hflushed hwritten
  refine ⟨hlogSame.trans hlog, ?_, by rw [hlogs], fun p hp => ?_⟩
  · rw [hlogs]
    refine ⟨?_, rfl, ?_, rfl⟩
    · rw [hlogSame]
      exact hlogHolds
    · rw [← hwritten] at hflushed
      exact hflushed
  · rw [← Log.map_payload_recordsFrom 0 ps] at hp
    obtain ⟨record, hrecord, rfl⟩ := List.mem_map.1 hp
    rw [hseq]
    exact hnumbered record hrecord

/-- Whatever comes of a recovery, the records of the log are the same. -/
theorem log_of_recover (hparsed : Log.Parsed o.limit files.log.bytes ps rest)
    {result : Except RecoveryError Recovered}
    (h : recover o f files fresh = ((left, book), result)) :
    left.log.bytes = files.log.bytes ∨ left.log.bytes = Log.frames ps := by
  cases recover_eq_iff.1 h with
  | unrepaired => exact Or.inl rfl
  | unopened => exact Or.inl rfl
  | unreplayed => exact Or.inl rfl
  | logUnopened _ _ replays opensLog =>
    obtain ⟨-, hlog⟩ := replay_ok hparsed replays
    exact Or.inr ((Log.Writer.bytes_of_open? opensLog).trans hlog)
  | recovered _ _ replays opensLog =>
    obtain ⟨-, hlog⟩ := replay_ok hparsed replays
    exact Or.inr ((Log.Writer.bytes_of_open? opensLog).trans hlog)

/-! ## Trying again -/

/-- Files that attempts to recover a symbol leave, if there is a book for it to begin with. -/
inductive Tried (o : Options) (f : Format) (fresh : Option Book) (before : SymbolFiles) :
    SymbolFiles → Prop where
  | untouched : Tried o f fresh before before
  | attempt {files left : SymbolFiles} {start book : Book} {result : Except RecoveryError Recovered}
      (tried : Tried o f fresh before files) (known : fresh = some start)
      (recovered : recover o f files start = ((left, book), result)) : Tried o f fresh before left

variable {start : Option Book} {before : SymbolFiles}

/-- The records of the log are the same, and nothing but a torn end may be missing. -/
theorem Tried.log (h : Tried o f start before files)
    (hparsed : Log.Parsed o.limit before.log.bytes ps rest) :
    (files.log.bytes = before.log.bytes ∨ files.log.bytes = Log.frames ps) ∧
      ∃ rest', Log.Parsed o.limit files.log.bytes ps rest' := by
  induction h with
  | untouched => exact ⟨Or.inl rfl, rest, hparsed⟩
  | attempt tried known recovered ih =>
    obtain ⟨hbefore, rest', hparsed'⟩ := ih
    have hwhole := Log.parsed_frames hparsed.fits
    rcases log_of_recover hparsed' recovered with hsame | hframes
    · rw [hsame]
      exact ⟨hbefore, rest', hparsed'⟩
    · rw [hframes]
      exact ⟨Or.inr rfl, [], hwhole⟩

/-- How a symbol is recovered in the end, when attempts may have failed before. -/
def Recovers (o : Options) (f : Format) (fresh : Option Book) (before left : SymbolFiles)
    (book : Book) (r : Recovered) : Prop :=
  ∃ files start, Tried o f fresh before files ∧ fresh = some start ∧
    recover o f files start = ((left, book), .ok r)

theorem Recovers.reopened {r : Recovered} (h : Recovers o f start before left book r)
    (hparsed : Log.Parsed o.limit before.log.bytes ps rest) : Reopened f ps left r := by
  obtain ⟨files, fresh, htried, -, hrecover⟩ := h
  obtain ⟨-, rest', hparsed'⟩ := htried.log hparsed
  exact recover_reopens hparsed' hrecover

end Recovery

end Bourse
