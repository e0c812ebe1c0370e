import Bourse.Proofs.Recovery.Boundaries

/-!
# Recovering twice

A recovery that succeeds leaves files at which the next one has nothing to do. The outbox was cut
back to its last closed command, and every command that the log has beyond that one was closed behind
it, so the outbox ends exactly where a command is closed (`Ended`), and no command of the log is
beyond that one (`AtRest`). This holds whatever was in the files before: the events of another
command at the end of the outbox, an outbox that is ahead of the log or behind it, or numbers with
gaps. From files at rest a recovery comes to the same book and changes nothing: `recover_idempotent`.
-/

namespace Bourse

/-- The events that a recovery writes for logged commands: those of the commands beyond `complete`. -/
def Journal.written (complete : Seq) (b : Book) : List (Seq × Command) → List Event
  | [] => []
  | entry :: rest =>
    (if entry.1 ≤ complete then [] else group b entry) ++
      written complete (b.execute entry.2).1 rest

namespace Recovery

variable {o : Options} {f : Format} {files left : SymbolFiles} {fresh book : Book}
  {r : Recovered} {last : Seq} {qs : List Bytes}

/-- The commands that a recovery finds in a log, each with its number. -/
def logged (o : Options) (f : Format) (log : File) : List (Seq × Command) :=
  Rebuild.decoded f (Log.scan (readOptions o.maxPayload) log).records

/-! ## Where the outbox ends -/

/-- An outbox with these payloads ends with the closing event of the command `last`, and all of it
can be read. When it is empty `last` is zero. -/
structure Ended (o : Options) (f : Format) (last : Seq) (qs : List Bytes) : Prop where
  fits : ∀ q ∈ qs, Log.Fits o.limit q
  noted : ∃ found, Attempt.forEach (Repair.note f) {} (Log.recordsFrom 0 qs) = (found, .ok ()) ∧
    found.lastSeq = last ∧ found.boundary = (Log.frames qs).length

/-- A repair that succeeds leaves an outbox that ends with a closed command. -/
theorem repair_ends {outbox repaired : File} {s : Repair}
    (h : repair f o.maxPayload outbox = (repaired, .ok s)) :
    ∃ qs, Ended o f s.lastSeq qs ∧ repaired.bytes = Log.frames qs := by
  obtain ⟨ps, rest, hparsed⟩ := Log.exists_parsed o.limit outbox.bytes
  obtain ⟨found, stats, hreplay, rfl, rfl⟩ := repair_eq_ok_iff.1 h
  obtain ⟨hvisited, -⟩ := replay_ok hparsed hreplay
  obtain ⟨front, back, rfl, hfinds⟩ := finds_of_forEach hvisited
  -- What stands in front of the boundary is read once more.
  obtain ⟨found', front', back', hfront, hsplit, hfinds'⟩ :=
    exists_finds fun p hp => events_of_forEach hvisited p (List.mem_append_left back hp)
  obtain ⟨rfl, hseq⟩ := hfinds.of_front hfinds' hsplit
  refine ⟨front', ⟨fun q hq => hparsed.fits q (List.mem_append_left _ hq), found', hfront, hseq,
    hfinds'.boundary⟩, ?_⟩
  rw [File.bytes_truncate, hfinds.boundary, hparsed.bytes, Log.frames_append, List.append_assoc,
    List.take_left]

/-- An outbox that ends with a closed command needs no repair. -/
theorem Ended.repair (h : Ended o f last qs) {outbox : File} (hregular : outbox.isRegular)
    (hbytes : outbox.bytes = Log.frames qs) :
    ∃ s, repair f o.maxPayload outbox = (outbox, .ok s) ∧ s.lastSeq = last ∧ s.cut = 0 := by
  obtain ⟨found, hnoted, hseq, hbound⟩ := h.noted
  have hsize : found.boundary = outbox.size := by rw [hbound, ← hbytes, File.length_bytes]
  have hreplay := Log.replay_torn (Or.inr hregular) (hbytes.trans (List.append_nil _).symm) h.fits
    (Log.torn_cut (o := readOptions o.maxPayload) rfl (Or.inl rfl)) RecoveryError.log
    (Repair.note f) {}
  rw [hnoted] at hreplay
  refine ⟨_, repair_eq_ok_iff.2 ⟨found, _, hreplay, ?_, rfl⟩, hseq, ?_⟩
  · rw [hsize, File.truncate_size hregular]
  · show outbox.size - found.boundary = 0
    rw [hsize, Nat.sub_self]

/-- Closing one more command moves the end. -/
theorem Ended.close (h : Ended o f last qs) {b : Book} {entry : Seq × Command}
    (hle : (b.execute entry.2).2.length ≤ maxEvents)
    (hfits : ∀ e ∈ Journal.group b entry, (f.encodeEvent e).length ≤ o.limit) :
    Ended o f entry.1 (qs ++ (Journal.group b entry).map f.encodeEvent) := by
  obtain ⟨found, hnoted, -, hbound⟩ := h.noted
  refine ⟨fun q hq => ?_, ?_⟩
  · rcases List.mem_append.1 hq with hq | hq
    · exact h.fits q hq
    · obtain ⟨e, he, rfl⟩ := List.mem_map.1 hq
      exact ⟨hfits e he, f.length_encodeEvent_le e⟩
  · rcases Journal.group_cases b entry with ⟨-, front, e, hgroup, hopen, hend, hseq⟩ | ⟨hlt, -⟩
    · rw [Log.recordsFrom_append, Attempt.forEach_append, hnoted, hgroup, Nat.zero_add]
      refine ⟨_, note_closed hopen hend found _, hseq, ?_⟩
      rw [Log.frames_append]
      exact List.length_append.symm
    · exact absurd hle (Nat.not_le.2 hlt)

/-! ## Executing the commands of the log -/

namespace Rebuild

variable {complete : Seq} {s s' : Rebuild}

/-- The outbox of a symbol half-way through its commands ends with a closed command, the last one
that counts. -/
def Sealed (o : Options) (f : Format) (s : Rebuild) : Prop :=
  ∃ qs, Ended o f s.lastSeq qs ∧ s.outbox.1.Holds s.outbox.2 (Log.frames qs)

/-- Executing a command leaves the outbox at the end of a closed command, also when its events are
written. -/
theorem Sealed.step (h : s.Sealed o f) {record : Log.Record} {entry : Seq × Command}
    (hdecode : f.decodeCommand record.payload = .ok entry) (hcomplete : complete ≤ s.lastSeq)
    (hnext : ¬ entry.1 ≤ complete → s.lastSeq ≤ entry.1)
    (hfits : ¬ entry.1 ≤ complete →
      ∀ e ∈ Journal.group s.book entry, (f.encodeEvent e).length ≤ o.limit)
    (hstep : step f complete s record = (s', .ok ())) : s'.Sealed o f := by
  obtain ⟨qs, hended, hholds⟩ := h
  by_cases hle : entry.1 ≤ complete
  · rw [step_silent hdecode hle, max_eq_left (UInt64.le_trans hle hcomplete)] at hstep
    cases hstep
    exact ⟨qs, hended, hholds⟩
  · obtain ⟨out, hout, heq⟩ := step_loud hdecode hle hholds
    rw [heq, max_eq_right (hnext hle)] at hstep
    split at hstep
    next hmodest =>
      cases hstep
      refine ⟨_, hended.close hmodest (hfits hle), ?_⟩
      rw [Log.frames_append]
      exact hout
    · cases hstep

/-- Executing commands with ascending numbers leaves the outbox at the end of a closed command. -/
theorem Sealed.forEach (h : s.Sealed o f) {records : List Log.Record}
    (hcomplete : complete ≤ s.lastSeq)
    (horder : (decoded f records).Pairwise fun a b => a.1 < b.1)
    (hnext : ∀ entry ∈ decoded f records, ¬ entry.1 ≤ complete → s.lastSeq ≤ entry.1)
    (hfits : ∀ e ∈ Journal.written complete s.book (decoded f records),
      (f.encodeEvent e).length ≤ o.limit)
    (hrun : Attempt.forEach (Rebuild.step f complete) s records = (s', .ok ())) :
    s'.Sealed o f := by
  induction records generalizing s with
  | nil =>
    cases hrun
    exact h
  | cons record rest ih =>
    rw [Attempt.forEach_cons] at hrun
    rcases hstep : Rebuild.step f complete s record with ⟨s₁, e | _⟩
    · rw [hstep] at hrun
      cases hrun
    rw [hstep] at hrun
    obtain ⟨seq, c, hdecode, outbox, backfilled, rfl⟩ := step_ok hstep
    rw [decoded_cons hdecode] at horder hnext hfits
    obtain ⟨hfirst, horder⟩ := List.pairwise_cons.1 horder
    have hsealed := h.step hdecode hcomplete (hnext _ List.mem_cons_self)
      (fun hle e he => hfits e (List.mem_append_left _ (by rwa [if_neg hle]))) hstep
    obtain ⟨hbefore, -⟩ := le_max_seq s.lastSeq seq
    refine ih hsealed (UInt64.le_trans hcomplete hbefore) horder ?_
      (fun e he => hfits e (List.mem_append_right _ he)) hrun
    -- A later command is beyond this one and beyond all that counted before.
    intro entry hentry hbeyond
    exact max_le (hnext entry (List.mem_cons_of_mem _ hentry) hbeyond)
      (UInt64.le_of_lt (hfirst entry hentry))

end Rebuild

/-! ## Files at rest -/

/-- Files at which a recovery has nothing to do: all of the log are commands, and the outbox ends
with a closed command that none of them is beyond. -/
structure AtRest (o : Options) (f : Format) (files : SymbolFiles) (last : Seq) (ps : List Bytes) :
    Prop where
  logRegular : files.log.isRegular
  log : files.log.bytes = Log.frames ps
  logFits : ∀ p ∈ ps, Log.Fits o.limit p
  numbered : ∀ p ∈ ps, ∃ seq c, f.decodeCommand p = .ok (seq, c) ∧ seq ≤ last
  outboxRegular : files.outbox.isRegular
  outbox : ∃ qs, Ended o f last qs ∧ files.outbox.bytes = Log.frames qs

theorem AtRest.recover {ps : List Bytes} (h : AtRest o f files last ps) (fresh : Book) :
    let entries := Rebuild.decoded f (Log.recordsFrom 0 ps)
    ∃ r, recover o f files fresh = ((files, fresh.executeAll (entries.map Prod.snd)), .ok r) ∧
      r.lastSeq = last ∧ r.replayed = entries.length ∧ r.backfilled = 0 ∧ r.cut = 0 ∧
      r.repair.cut = 0 := by
  intro entries
  obtain ⟨qs, hended, houtbox⟩ := h.outbox
  obtain ⟨repair, hrepair, rfl, hcut⟩ := hended.repair h.outboxRegular houtbox
  obtain ⟨writer, hopened, hholds⟩ :=
    Log.Writer.open?_of_regular h.outboxRegular o.outboxBuffer
  obtain ⟨logWriter, hlogOpened, -⟩ := Log.Writer.open?_of_regular h.logRegular o.logBuffer
  have hnumbered : ∀ r ∈ Log.recordsFrom 0 ps, ∃ seq c,
      f.decodeCommand r.payload = .ok (seq, c) ∧ seq ≤ repair.lastSeq := by
    intro r hr
    refine h.numbered r.payload ?_
    rw [← Log.map_payload_recordsFrom 0 ps]
    exact List.mem_map_of_mem hr
  have hsilent := Rebuild.forEach_silent hnumbered
    { book := fresh, outbox := (writer, files.outbox), lastSeq := repair.lastSeq } rfl
  have hreplay := Log.replay_torn (Or.inr h.logRegular) (h.log.trans (List.append_nil _).symm)
    h.logFits (Log.torn_cut (o := readOptions o.maxPayload) rfl (Or.inl rfl)) RecoveryError.log
    (Rebuild.step f repair.lastSeq)
    { book := fresh, outbox := (writer, files.outbox), lastSeq := repair.lastSeq }
  rw [hsilent] at hreplay
  have hrecover := recover_eq_iff.2 (.recovered hrepair hopened hreplay hlogOpened)
  simp only [Rebuild.executed, hholds.flush_eq] at hrecover
  exact ⟨_, hrecover, rfl, by simp [entries], rfl, rfl, hcut⟩

/-! ## What a recovery leaves -/

theorem logged_of_parsed {log : File} (hlog : log.Usable) {ps : List Bytes} {rest : Bytes}
    (hparsed : Log.Parsed o.limit log.bytes ps rest) :
    logged o f log = Rebuild.decoded f (Log.recordsFrom 0 ps) := by
  rw [logged, Log.scan_frames (o := readOptions o.maxPayload) hlog hparsed.bytes hparsed.fits
    (Log.Frame.isRecord_eq_false_iff.2 hparsed.maximal)]

/-- In readable files the commands are numbered from one on. -/
theorem Readable.logged {cs : List Command} {complete : Nat}
    (h : Readable o f fresh files cs complete) : logged o f files.log = Actor.number 0 cs := by
  obtain ⟨tail, hlog, htorn⟩ := h.log
  have hfits : ∀ p ∈ Journal.payloads f (Actor.number 0 cs),
      Log.Fits (readOptions o.maxPayload).limit p :=
    fun p hp => ⟨h.logFits p hp, Journal.length_le_of_mem_payloads hp⟩
  rw [Recovery.logged, Log.scan_frames h.logUsable hlog hfits htorn.noRecord]
  exact Rebuild.decoded_commandRecords f 0 _

/-- A recovery leaves nothing for its logs to write. -/
theorem close_of_recover (h : recover o f files fresh = ((left, book), .ok r)) :
    r.logs.close left = left := by
  obtain ⟨ps, rest, hparsed⟩ := Log.exists_parsed o.limit files.log.bytes
  have hreopened := recover_reopens hparsed h
  have hlogs := hreopened.logs
  rw [← hreopened.files] at hlogs ⊢
  exact hlogs.close_eq

/-- A recovery that succeeds leaves files at rest, whatever was in them before, if the commands of
the log are numbered in ascending order and the events that it writes can be read. -/
theorem recover_rests (horder : (logged o f files.log).Pairwise fun a b => a.1 < b.1)
    (h : recover o f files fresh = ((left, book), .ok r))
    (hfits : ∀ e ∈ Journal.written r.repair.lastSeq fresh (logged o f files.log),
      (f.encodeEvent e).length ≤ o.limit) :
    ∃ ps, AtRest o f left r.lastSeq ps ∧
      Rebuild.decoded f (Log.recordsFrom 0 ps) = logged o f files.log ∧
      book = fresh.executeAll ((logged o f files.log).map Prod.snd) ∧
      r.replayed = (logged o f files.log).length := by
  obtain ⟨ps, rest, hparsed⟩ := Log.exists_parsed o.limit files.log.bytes
  obtain ⟨repaired, outbox, writer, rebuilt, stats, hrepair, hopened, hreplay, hlogOpened, hflush,
    -, hbook, hseq, hreplayed⟩ := exists_rebuilt_of_recover h
  rw [logged_of_parsed (usable_of_replay hreplay) hparsed] at horder hfits ⊢
  obtain ⟨hvisited, -⟩ := replay_ok hparsed hreplay
  -- The outbox ends with a closed command once it is repaired, and does so after every command.
  obtain ⟨qs, hended, hrepaired⟩ := repair_ends hrepair
  obtain ⟨hholds, -⟩ := Log.Writer.holds_of_open? hopened
  rw [hrepaired] at hholds
  have hreplays := Rebuild.replays_of_forEach hvisited
  obtain ⟨qs', hended', hholds'⟩ := Rebuild.Sealed.forEach
    (s := { book := fresh, outbox := (writer, outbox), lastSeq := r.repair.lastSeq })
    ⟨qs, hended, hholds⟩ (UInt64.le_refl _) horder
    (fun entry _ hbeyond => UInt64.le_of_lt (UInt64.not_le.1 hbeyond)) hfits hvisited
  obtain ⟨hflushed, hwritten⟩ := hholds'.flush
  rw [hflush] at hflushed hwritten
  have hreopened := recover_reopens hparsed h
  refine ⟨ps, ?_, rfl, hbook.trans hreplays.book, ?_⟩
  · exact
      { logRegular := (Log.Writer.holds_of_open? hlogOpened).1.regular
        log := hreopened.log
        logFits := hparsed.fits
        numbered := hreopened.numbered
        outboxRegular := hflushed.regular
        outbox := ⟨qs', hseq ▸ hended', hwritten⟩ }
  · rw [hreplayed, hreplays.replayed, Nat.zero_add, Rebuild.length_decoded]
    intro record hrecord
    obtain ⟨seq, c, hdecode, -⟩ := hreplays.numbered record hrecord
    exact ⟨_, hdecode⟩

/-- **Recovering twice is recovering once.** Whatever the files of a symbol hold, let a recovery of
them succeed. When its logs are closed and the symbol is recovered again on the same fresh book, that
succeeds too, and it leaves both files as they are: it cuts nothing off either of them, writes no
events, executes as many commands, and comes to the same book and the same last number. The commands
of the log must be numbered in ascending order, and the events that are written must not be longer
than what a reader accepts. -/
theorem recover_idempotent (horder : (logged o f files.log).Pairwise fun a b => a.1 < b.1)
    (h : recover o f files fresh = ((left, book), .ok r))
    (hfits : ∀ e ∈ Journal.written r.repair.lastSeq fresh (logged o f files.log),
      (f.encodeEvent e).length ≤ o.limit) :
    let closed := r.logs.close left
    ∃ again, recover o f closed fresh = ((closed, book), .ok again) ∧
      again.logs.close closed = closed ∧ again.backfilled = 0 ∧ again.cut = 0 ∧
      again.repair.cut = 0 ∧ again.lastSeq = r.lastSeq ∧ again.replayed = r.replayed := by
  obtain ⟨ps, hrest, hlogged, hbook, hreplayed⟩ := recover_rests horder h hfits
  rw [close_of_recover h]
  intro closed
  obtain ⟨again, hagain, hseq, hsame, hback, hcut, hrepair⟩ := hrest.recover fresh
  rw [hlogged, ← hbook] at hagain
  rw [hlogged, ← hreplayed] at hsame
  exact ⟨again, hagain, close_of_recover hagain, hback, hcut, hrepair, hseq, hsame⟩

/-- What is left of two cancellations. The outbox has the first command closed, one event of the
second and three more bytes, and the log has five bytes behind its records. -/
def interrupted : SymbolFiles :=
  let c : Command := { action := .cancel 5 }
  let dangling := ((Journal.events {} (Actor.number 0 [c, c])).drop 2).take 1
  { log := .ofBytes (Journal.logBytes .binary [c, c] ++ [1, 0, 0, 0, 9])
    outbox := .ofBytes (Journal.outboxBytes .binary {} [c] ++
      Journal.eventBytes .binary dangling ++ [1, 0, 0]) }

theorem readable_interrupted :
    Readable {} .binary {} interrupted [{ action := .cancel 5 }, { action := .cancel 5 }] 1 where
  logUsable := File.usable_ofBytes _
  outboxUsable := File.usable_ofBytes _
  complete_le := by decide
  numbered := by decide
  modest := ⟨by decide, trivial⟩
  log := ⟨_, File.bytes_ofBytes _, Log.torn_short rfl (by decide)⟩
  logFits := fun _ hp => Journal.length_le_of_mem_payloads_binary (by decide) hp
  outbox := ⟨_, _, File.bytes_ofBytes _, by unfold Event.Open; decide, Log.torn_short rfl (by decide),
    fun e _ => Format.length_encodeEvent_binary_le (by decide) e⟩

theorem sizes_interrupted : interrupted.log.size = 155 ∧ interrupted.outbox.size = 231 := by
  simp only [interrupted, ← File.length_bytes, File.bytes_ofBytes, List.length_append,
    Journal.outboxBytes, Journal.length_logBytes_binary, Journal.length_eventBytes_binary]
  decide

/-- The first recovery writes the second of the two cancellations again, and the second recovery
writes nothing. -/
theorem recover_idempotent_backfilled :
    ∃ files left book r,
      ((logged {} .binary files.log).Pairwise fun a b => a.1 < b.1) ∧
      recover {} .binary files {} = ((left, book), .ok r) ∧
      (∀ e ∈ Journal.written r.repair.lastSeq {} (logged {} .binary files.log),
        (Format.binary.encodeEvent e).length ≤ ({} : Options).limit) ∧
      files.log.size = 155 ∧ files.outbox.size = 231 ∧ r.backfilled = 1 ∧
      left.log.size = 150 ∧ left.outbox.size = 304 ∧
      ∃ again, recover {} .binary (r.logs.close left) {} =
          ((r.logs.close left, book), .ok again) ∧
        again.backfilled = 0 ∧ again.lastSeq = 2 ∧ again.replayed = 2 := by
  have hreadable := readable_interrupted
  obtain ⟨left, book, r, hrecover, hrestored, hreplayed, hback, -⟩ :=
    recover_readable hreadable ⟨by decide, by decide, trivial⟩
  have horder : (logged {} .binary interrupted.log).Pairwise fun a b => a.1 < b.1 := by
    rw [hreadable.logged]
    decide
  have hfits (e : Event) : (Format.binary.encodeEvent e).length ≤ ({} : Options).limit :=
    Format.length_encodeEvent_binary_le (by decide) e
  obtain ⟨again, hagain, -, hnone, -, -, hseq, hsame⟩ :=
    recover_idempotent horder hrecover fun e _ => hfits e
  obtain ⟨hlogSize, houtSize⟩ := sizes_interrupted
  obtain ⟨hleftLog, hleftOut⟩ := hrestored.sizes_binary
  exact ⟨interrupted, left, book, r, horder, hrecover, fun e _ => hfits e, hlogSize, houtSize, hback,
    hleftLog, hleftOut, again, hagain, hnone, hseq.trans hrestored.lastSeq, hsame.trans hreplayed⟩

end Recovery

end Bourse
