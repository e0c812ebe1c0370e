import Bourse.Proofs.Recovery.Repeating

/-!
# Recovering again after a failure

A recovery has written to the outbox before it can know whether it will succeed. When a record of
the log is bad, it fails with the commands before that record executed and their events written.
This does no damage: the outbox ends with a closed command, just as after a recovery over those
commands alone, so the next recovery recognises what is there. Once the log is replaced by a
readable one that begins with the same commands, it comes to what it would have come to at once
(`recover_again`).
-/

namespace Bourse

/-- A tolerant reader does not mind less than a record at the end. -/
theorem Log.Incomplete.torn {o : ReadOptions} (ho : o.tolerant = true) {rest : Bytes}
    (h : Incomplete o.limit rest) : Torn o rest := by
  have hnone : (Frame.parse o.limit rest).isRecord = false := by
    refine Frame.isRecord_eq_false_iff.2 ?_
    rintro p ⟨-, hp⟩ ⟨more, rfl⟩
    have hlen : (frame p ++ more).length = headerSize + p.length + more.length := by
      rw [List.length_append, length_frame]
    have htake : (frame p ++ more).take 4 = ((frame p).take headerSize).take 4 := by
      rw [List.take_take, List.take_append_of_le_length (by rw [length_frame, headerSize]; omega)]
      rfl
    have hannounced : Bytes.value ((frame p ++ more).take 4) = p.length := by
      rw [htake]
      exact announced_frame hp
    rcases h with hshort | ⟨-, hshort⟩
    · omega
    · omega
  refine ⟨hnone, fun offset => ?_⟩
  rw [ending_eq_verdict hnone, ho]
  exact h.verdict offset

/-! ## Events that are written -/

namespace Journal

variable {complete last : Seq} {b : Book} {entries : List (Seq × Command)}

theorem written_append (complete : Seq) (b : Book) (entries more : List (Seq × Command)) :
    written complete b (entries ++ more) =
      written complete b entries ++
        written complete (b.executeAll (entries.map Prod.snd)) more := by
  induction entries generalizing b with
  | nil => rfl
  | cons entry rest ih =>
    rw [List.cons_append, written, written, ih, List.append_assoc, List.map_cons,
      Book.executeAll_cons]

/-- Commands that the outbox has are not written again. -/
theorem written_eq_nil (h : ∀ entry ∈ entries, entry.1 ≤ complete) :
    written complete b entries = [] := by
  induction entries generalizing b with
  | nil => rfl
  | cons entry rest ih =>
    rw [written, if_pos (h entry List.mem_cons_self),
      ih fun e he => h e (List.mem_cons_of_mem _ he)]
    rfl

/-- What is written depends only on which of the commands the outbox has. -/
theorem written_congr (h : ∀ entry ∈ entries, entry.1 ≤ complete ↔ entry.1 ≤ last) :
    written complete b entries = written last b entries := by
  induction entries generalizing b with
  | nil => rfl
  | cons entry rest ih =>
    have hfirst := h entry List.mem_cons_self
    rw [written, written, ih fun e he => h e (List.mem_cons_of_mem _ he)]
    by_cases hle : entry.1 ≤ last
    · rw [if_pos hle, if_pos (hfirst.2 hle)]
    · rw [if_neg hle, if_neg fun hc => hle (hfirst.1 hc)]

end Journal

namespace Recovery

variable {o : Options} {f : Format} {files : SymbolFiles} {fresh : Book} {log repaired : File}
  {s : Repair} {ps : List Bytes} {rest : Bytes}

/-! ## The highest number -/

/-- The highest of the numbers of some commands and `last`. -/
def highest (last : Seq) (entries : List (Seq × Command)) : Seq :=
  entries.foldl (fun m entry => max m entry.1) last

section Highest

variable {last : Seq} {entries : List (Seq × Command)}

theorem highest_append (last : Seq) (entries more : List (Seq × Command)) :
    highest last (entries ++ more) = highest (highest last entries) more :=
  List.foldl_append

theorem le_highest (last : Seq) (entries : List (Seq × Command)) :
    last ≤ highest last entries ∧ ∀ entry ∈ entries, entry.1 ≤ highest last entries := by
  induction entries generalizing last with
  | nil => exact ⟨UInt64.le_refl last, fun entry h => (by cases h)⟩
  | cons first rest ih =>
    obtain ⟨hlast, hrest⟩ := ih (max last first.1)
    obtain ⟨hleft, hright⟩ := Rebuild.le_max_seq last first.1
    exact ⟨UInt64.le_trans hleft hlast,
      List.forall_mem_cons.2 ⟨UInt64.le_trans hright hlast, hrest⟩⟩

theorem highest_cases (last : Seq) (entries : List (Seq × Command)) :
    highest last entries = last ∨ ∃ entry ∈ entries, highest last entries = entry.1 := by
  induction entries generalizing last with
  | nil => exact Or.inl rfl
  | cons first rest ih =>
    rcases ih (max last first.1) with hsame | ⟨entry, hentry, hsame⟩
    · rcases UInt64.le_total last first.1 with hle | hle
      · exact Or.inr ⟨first, List.mem_cons_self, hsame.trans (Rebuild.max_eq_right hle)⟩
      · exact Or.inl (hsame.trans (Rebuild.max_eq_left hle))
    · exact Or.inr ⟨entry, List.mem_cons_of_mem _ hentry, hsame⟩

theorem highest_eq_self (h : ∀ entry ∈ entries, entry.1 ≤ last) : highest last entries = last := by
  rcases highest_cases last entries with hsame | ⟨entry, hentry, hsame⟩
  · exact hsame
  · rw [hsame]
    exact UInt64.le_antisymm (h entry hentry) (hsame ▸ (le_highest last entries).1)

end Highest

/-! ## Logs that begin with commands -/

/-- The commands in the payloads of a log, each with its number. -/
def entries (f : Format) (ps : List Bytes) : List (Seq × Command) :=
  ps.filterMap fun p => (f.decodeCommand p).toOption

theorem entries_append (f : Format) (ps more : List Bytes) :
    entries f (ps ++ more) = entries f ps ++ entries f more :=
  List.filterMap_append

theorem decoded_recordsFrom (f : Format) (start : Nat) (ps : List Bytes) :
    Rebuild.decoded f (Log.recordsFrom start ps) = entries f ps := by
  conv => rhs; rw [← Log.map_payload_recordsFrom start ps]
  rw [entries, List.filterMap_map]
  rfl

/-- What was written is read back. -/
theorem entries_payloads (f : Format) (logged : List (Seq × Command)) :
    entries f (Journal.payloads f logged) = logged := by
  rw [← decoded_recordsFrom f 0]
  exact Rebuild.decoded_commandRecords f 0 logged

/-- A log begins with records that are commands, and behind them stands `rest`. -/
structure Begins (o : Options) (f : Format) (log : File) (ps : List Bytes) (rest : Bytes) :
    Prop where
  usable : log.Usable
  bytes : log.bytes = Log.frames ps ++ rest
  fits : ∀ p ∈ ps, Log.Fits o.limit p
  commands : ∀ p ∈ ps, ∃ entry, f.decodeCommand p = .ok entry

/-- A bad record stands there: one that is no command, or something that is neither a record nor
less than one, since its checksum is wrong or it announces more than a reader accepts. -/
inductive Bad (o : Options) (f : Format) : Bytes → Prop
  | undecodable {p : Bytes} (fits : Log.Fits o.limit p)
      (noCommand : ∀ entry, f.decodeCommand p ≠ .ok entry) (behind : Bytes) :
      Bad o f (Log.frame p ++ behind)
  | unsound {rest : Bytes} (noRecord : ∀ p, Log.Fits o.limit p → ¬ Log.frame p <+: rest)
      (notCut : ¬ Log.Incomplete o.limit rest) : Bad o f rest

/-- The commands with which a byte string begins are followed by a bad record or less than one. -/
theorem exists_commands {b tail : Bytes} {all : List Bytes} (f : Format)
    (h : Log.Parsed o.limit b all tail) :
    ∃ ps rest, b = Log.frames ps ++ rest ∧ (∀ p ∈ ps, Log.Fits o.limit p) ∧
      (∀ p ∈ ps, ∃ entry, f.decodeCommand p = .ok entry) ∧
      (Bad o f rest ∨ Log.Incomplete o.limit rest) := by
  induction all generalizing b with
  | nil =>
    refine ⟨[], b, rfl, fun p hp => (by cases hp), fun p hp => (by cases hp), ?_⟩
    obtain rfl : b = tail := h.bytes
    by_cases hcut : Log.Incomplete o.limit b
    · exact Or.inr hcut
    · exact Or.inl (.unsound h.maximal hcut)
  | cons p qs ih =>
    obtain ⟨hp, hqs⟩ := List.forall_mem_cons.1 h.fits
    obtain rfl : b = Log.frame p ++ (Log.frames qs ++ tail) := by
      rw [h.bytes, Log.frames_cons, List.append_assoc]
    cases hdecode : f.decodeCommand p with
    | error cause =>
      refine ⟨[], _, rfl, fun p hp => (by cases hp), fun p hp => (by cases hp),
        Or.inl (.undecodable hp ?_ _)⟩
      intro entry hentry
      rw [hdecode] at hentry
      cases hentry
    | ok entry =>
      obtain ⟨ps, rest, hrest, hfits, hcommands, hkind⟩ := ih ⟨rfl, hqs, h.maximal⟩
      refine ⟨p :: ps, rest, ?_, List.forall_mem_cons.2 ⟨hp, hfits⟩,
        List.forall_mem_cons.2 ⟨⟨entry, hdecode⟩, hcommands⟩, hkind⟩
      rw [hrest, Log.frames_cons, List.append_assoc]

/-- Every log is of one of two kinds: a bad record stands behind its first commands, or less than a
record. -/
theorem exists_begins (o : Options) (f : Format) (hlog : log.Usable) :
    ∃ ps rest, Begins o f log ps rest ∧ (Bad o f rest ∨ Log.Incomplete o.limit rest) := by
  obtain ⟨all, tail, hparsed⟩ := Log.exists_parsed o.limit log.bytes
  obtain ⟨ps, rest, hbytes, hfits, hcommands, hkind⟩ := exists_commands f hparsed
  exact ⟨ps, rest, ⟨hlog, hbytes, hfits, hcommands⟩, hkind⟩

theorem Begins.decodes (h : Begins o f log ps rest) {record : Log.Record}
    (hrecord : record ∈ Log.recordsFrom 0 ps) :
    ∃ entry, f.decodeCommand record.payload = .ok entry := by
  refine h.commands record.payload ?_
  rw [← Log.map_payload_recordsFrom 0 ps]
  exact List.mem_map_of_mem hrecord

/-- The replay ends at a bad record, with what it made of the commands before. -/
theorem Begins.replay_bad (h : Begins o f log ps rest) (hbad : Bad o f rest) {complete : Seq}
    {s s' : Rebuild}
    (hrun : Attempt.forEach (Rebuild.step f complete) s (Log.recordsFrom 0 ps) = (s', .ok ())) :
    ∃ e, Log.replay (readOptions o.maxPayload) log .log (Rebuild.step f complete) s =
      (s', .error e) := by
  cases hbad with
  | @undecodable p hp hnot behind =>
    obtain ⟨qs, tail, hparsed⟩ := Log.exists_parsed o.limit behind
    have hall := (hparsed.cons hp).append h.fits
    rw [← h.bytes] at hall
    rw [Log.replay_frames (o := readOptions o.maxPayload) h.usable hall.bytes hall.fits
      (Log.Frame.isRecord_eq_false_iff.2 hall.maximal), Log.recordsFrom_append,
      Attempt.forEach_append, hrun]
    simp only [Attempt.andThen, Log.recordsFrom, Attempt.forEach_cons]
    cases hdecode : f.decodeCommand p with
    | ok entry => exact absurd hdecode (hnot entry)
    | error cause =>
      rw [Rebuild.step]
      dsimp only
      rw [hdecode]
      exact ⟨_, rfl⟩
  | unsound hnone hnot =>
    have hrecord := Log.Frame.isRecord_eq_false_iff.2 hnone
    obtain ⟨e, he⟩ := Log.verdict_of_not_incomplete hnot (Log.frames ps).length
    rw [Log.replay_frames (o := readOptions o.maxPayload) h.usable h.bytes h.fits hrecord,
      Log.ending_eq_verdict (o := readOptions o.maxPayload) hrecord, hrun]
    refine ⟨.log e, ?_⟩
    show (s', Except.map _ (Except.mapError _ (Log.verdict o.limit true _ rest))) = _
    rw [he]
    rfl

/-! ## Executing the commands of a log -/

/-- Commands none of which has too many events are all executed, and the events are written of those
beyond `complete`. -/
theorem Rebuild.forEach_written (complete : Seq) {records : List Log.Record}
    (hdecodes : ∀ r ∈ records, ∃ entry, f.decodeCommand r.payload = .ok entry) {s : Rebuild}
    (hm : s.book.Modest ((decoded f records).map Prod.snd)) {bytes : Bytes}
    (h : s.outbox.1.Holds s.outbox.2 bytes) :
    ∃ s', Attempt.forEach (step f complete) s records = (s', .ok ()) ∧
      s'.outbox.1.Holds s'.outbox.2
        (bytes ++ Journal.eventBytes f (Journal.written complete s.book (decoded f records))) ∧
      s'.book = s.book.executeAll ((decoded f records).map Prod.snd) ∧
      s'.lastSeq = highest s.lastSeq (decoded f records) := by
  induction records generalizing s bytes with
  | nil => exact ⟨s, rfl, by simpa [decoded, Journal.written] using h, rfl, rfl⟩
  | cons record records ih =>
    obtain ⟨⟨entry, hdecode⟩, hrest⟩ := List.forall_mem_cons.1 hdecodes
    rw [decoded_cons hdecode] at hm ⊢
    rw [Attempt.forEach_cons]
    by_cases hle : entry.1 ≤ complete
    · obtain ⟨s', hrun, hholds, hbook, hseq⟩ :=
        ih hrest (s := s.executed [entry.2] (max s.lastSeq entry.1)) hm.2 h
      refine ⟨s', ?_, ?_, hbook, hseq⟩
      · rw [step_silent hdecode hle]
        exact hrun
      · rw [Journal.written, if_pos hle]
        exact hholds
    · obtain ⟨out, hout, hstep⟩ := step_loud hdecode hle h
      rw [if_pos hm.1] at hstep
      obtain ⟨s', hrun, hholds, hbook, hseq⟩ := ih hrest
        (s := { s.executed [entry.2] (max s.lastSeq entry.1) with
          outbox := out, backfilled := s.backfilled + 1 }) hm.2 hout
      refine ⟨s', ?_, ?_, hbook, hseq⟩
      · rw [hstep]
        exact hrun
      · rw [Journal.written, if_neg hle, Journal.eventBytes_append, ← List.append_assoc]
        exact hholds

/-! ## One recovery -/

/-- What a recovery has done when it comes to the end of the commands with which the log begins:
they are executed, and the outbox goes on behind its repair with the events that were missing. -/
structure Executes (o : Options) (f : Format) (fresh : Book) (repaired : File) (s : Repair)
    (ps : List Bytes) (writer : Log.Writer) (file : File) (done : Rebuild) : Prop where
  opened : Log.Writer.open? repaired o.outboxBuffer = (file, .ok writer)
  run : Attempt.forEach (Rebuild.step f s.lastSeq)
    { book := fresh, outbox := (writer, file), lastSeq := s.lastSeq } (Log.recordsFrom 0 ps) =
      (done, .ok ())
  holds : done.outbox.1.Holds done.outbox.2 (repaired.bytes ++
    Journal.eventBytes f (Journal.written s.lastSeq fresh (entries f ps)))
  book : done.book = fresh.executeAll ((entries f ps).map Prod.snd)
  lastSeq : done.lastSeq = highest s.lastSeq (entries f ps)

theorem usable_of_repair {outbox : File}
    (h : repair f o.maxPayload outbox = (repaired, .ok s)) : repaired.Usable := by
  obtain ⟨found, stats, hreplay, rfl, -⟩ := repair_eq_ok_iff.1 h
  exact (usable_of_replay hreplay).truncate _

theorem exists_executes (hrepaired : repaired.Usable) (hlog : Begins o f log ps rest)
    (hm : fresh.Modest ((entries f ps).map Prod.snd)) :
    ∃ writer file done, Executes o f fresh repaired s ps writer file done := by
  obtain ⟨writer, file, hopened, hholds, -⟩ := Log.Writer.open?_ok hrepaired o.outboxBuffer
  rw [← decoded_recordsFrom f 0 ps] at hm
  obtain ⟨done, hrun, hwritten, hbook, hseq⟩ :=
    Rebuild.forEach_written s.lastSeq (fun _ hr => hlog.decodes hr)
      (s := { book := fresh, outbox := (writer, file), lastSeq := s.lastSeq }) hm hholds
  rw [decoded_recordsFrom] at hwritten hbook hseq
  exact ⟨writer, file, done, hopened, hrun, hwritten, hbook, hseq⟩

namespace Executes

variable {outbox file : File} {writer : Log.Writer} {done : Rebuild}

/-- If a bad record comes next the recovery fails, but the events it wrote are in the outbox. -/
theorem recover_bad (h : Executes o f fresh repaired s ps writer file done)
    (hrepair : repair f o.maxPayload files.outbox = (repaired, .ok s))
    (hlog : Begins o f files.log ps rest) (hbad : Bad o f rest) :
    ∃ e, recover o f files fresh =
      (({ files with outbox := (done.outbox.1.flush done.outbox.2).2 }, done.book), .error e) := by
  obtain ⟨e, hreplay⟩ := hlog.replay_bad hbad h.run
  exact ⟨e, recover_eq_iff.2 (.unreplayed hrepair h.opened hreplay)⟩

/-- If less than a record is left the recovery succeeds, and cuts that off. -/
theorem recover_whole (h : Executes o f fresh repaired s ps writer file done)
    (files : SymbolFiles)
    (hrepair : repair f o.maxPayload files.outbox = (repaired, .ok s))
    (hlog : Begins o f files.log ps rest) (hrest : Log.Incomplete o.limit rest) :
    ∃ r, recover o f files fresh =
        (({ files with
            log := .ofBytes (Log.frames ps), outbox := (done.outbox.1.flush done.outbox.2).2 },
          done.book), .ok r) ∧
      r.lastSeq = done.lastSeq := by
  have hreplay := Log.replay_torn hlog.usable hlog.bytes hlog.fits
    (hrest.torn (o := readOptions o.maxPayload) rfl) RecoveryError.log (Rebuild.step f s.lastSeq)
    { book := fresh, outbox := (writer, file), lastSeq := s.lastSeq }
  rw [h.run] at hreplay
  obtain ⟨hbytes, husable⟩ := truncate_torn hlog.bytes hlog.usable
  obtain ⟨logWriter, log, hopened, hholds, hsame⟩ := Log.Writer.open?_ok husable o.logBuffer
  rw [hbytes] at hsame
  obtain rfl : log = .ofBytes (Log.frames ps) :=
    File.eq_of_bytes_eq hholds.regular rfl (hsame.trans (File.bytes_ofBytes _).symm)
  exact ⟨_, recover_eq_iff.2 (.recovered hrepair h.opened hreplay hopened), rfl⟩

/-- The outbox is left with a closed command at its end, and the next repair finds that. -/
theorem repair_again (h : Executes o f fresh repaired s ps writer file done)
    (hrepair : repair f o.maxPayload outbox = (repaired, .ok s))
    (horder : (entries f ps).Pairwise fun a b => a.1 < b.1)
    (hfits : ∀ e ∈ Journal.written s.lastSeq fresh (entries f ps),
      (f.encodeEvent e).length ≤ o.limit) :
    let left := (done.outbox.1.flush done.outbox.2).2
    ∃ s', repair f o.maxPayload left = (left, .ok s') ∧ s'.lastSeq = done.lastSeq := by
  obtain ⟨qs, hended, hrepaired⟩ := repair_ends hrepair
  obtain ⟨hholds, -⟩ := Log.Writer.holds_of_open? h.opened
  rw [hrepaired] at hholds
  rw [← decoded_recordsFrom f 0 ps] at horder hfits
  obtain ⟨qs', hended', hholds'⟩ := Rebuild.Sealed.forEach
    (s := { book := fresh, outbox := (writer, file), lastSeq := s.lastSeq })
    ⟨qs, hended, hholds⟩ (UInt64.le_refl _) horder
    (fun entry _ hbeyond => UInt64.le_of_lt (UInt64.not_le.1 hbeyond)) hfits h.run
  obtain ⟨hflushed, hwritten⟩ := hholds'.flush
  obtain ⟨s', hagain, hseq, -⟩ := hended'.repair hflushed.regular hwritten
  exact ⟨s', hagain, hseq⟩

end Executes

/-! ## Recovering again -/

/-- For commands with higher numbers it makes no difference whether the outbox has the commands
before them. -/
theorem written_later {last : Seq} {entries later : List (Seq × Command)} (b : Book)
    (h : ∀ earlier ∈ entries, ∀ entry ∈ later, earlier.1 < entry.1) :
    Journal.written (highest last entries) b later = Journal.written last b later := by
  apply Journal.written_congr
  intro entry hentry
  rcases highest_cases last entries with hsame | ⟨earlier, hearlier, hsame⟩
  · rw [hsame]
  · have hbeyond : ¬ entry.1 ≤ highest last entries := by
      rw [hsame]
      exact UInt64.not_le.2 (h earlier hearlier entry hentry)
    constructor
    · intro hle
      exact absurd hle hbeyond
    · intro hle
      exact absurd (UInt64.le_trans hle (le_highest last entries).1) hbeyond

/-- The events of some commands are written, and then, when the outbox has these, the missing events
of all commands: that comes to writing the latter at once. -/
theorem written_again {last : Seq} {entries later : List (Seq × Command)} (b : Book)
    (h : ∀ earlier ∈ entries, ∀ entry ∈ later, earlier.1 < entry.1) :
    Journal.written last b entries ++
        Journal.written (highest last entries) b (entries ++ later) =
      Journal.written last b (entries ++ later) := by
  rw [Journal.written_append, Journal.written_append, written_later _ h,
    Journal.written_eq_nil (le_highest last entries).2, List.nil_append]

theorem highest_again (last : Seq) (entries later : List (Seq × Command)) :
    highest (highest last entries) (entries ++ later) = highest last (entries ++ later) := by
  rw [highest_append, highest_append, highest_eq_self (le_highest last entries).2]

/-- From an outbox that can be repaired, and with no command that has too many events, a recovery
fails only at a bad record. -/
theorem exists_bad_of_recover (hrepair : repair f o.maxPayload files.outbox = (repaired, .ok s))
    (hlog : files.log.Usable)
    (hm : ∀ ps rest, Begins o f files.log ps rest → fresh.Modest ((entries f ps).map Prod.snd))
    {left : SymbolFiles × Book} {e : RecoveryError}
    (h : recover o f files fresh = (left, .error e)) :
    ∃ ps rest, Begins o f files.log ps rest ∧ Bad o f rest := by
  obtain ⟨ps, rest, hbegins, hbad | hcut⟩ := exists_begins o f hlog
  · exact ⟨ps, rest, hbegins, hbad⟩
  · obtain ⟨writer, file, done, hdone⟩ :=
      exists_executes (s := s) (usable_of_repair hrepair) hbegins (hm ps rest hbegins)
    obtain ⟨r, hsucceeds, -⟩ := hdone.recover_whole files hrepair hbegins hcut
    rw [h] at hsucceeds
    cases (Prod.mk.inj hsucceeds).2

/-- **A recovery that fails does no damage.** Let the outbox of a symbol be one that can be
repaired, and let its log begin with commands, in ascending order and none of them with too many
events, behind which a bad record stands. Then a recovery fails. It changes nothing but the outbox,
and that becomes what it becomes when the symbol is recovered from a log with these commands alone,
which succeeds: the missing events of the commands are written behind what the repair has left. Let
the log then be replaced by one that begins with the same commands and goes on with commands of
higher numbers, none of them with too many events, and then with less than a record. Recovering the
symbol again comes to the same book, the same last number and the same files as recovering it from
that log at once. The events that the first recovery writes must not be longer than what a reader
accepts. Behind the commands of any log stands a bad record or less than one (`exists_begins`), and
only the former makes such a recovery fail (`exists_bad_of_recover`). -/
theorem recover_again (hrepair : repair f o.maxPayload files.outbox = (repaired, .ok s))
    (hlog : Begins o f files.log ps rest) (hbad : Bad o f rest)
    (horder : (entries f ps).Pairwise fun a b => a.1 < b.1)
    (hm : fresh.Modest ((entries f ps).map Prod.snd))
    (hfits : ∀ e ∈ Journal.written s.lastSeq fresh (entries f ps),
      (f.encodeEvent e).length ≤ o.limit) :
    ∃ e done book r,
      recover o f files fresh = (({ files with outbox := done.outbox }, book), .error e) ∧
      recover o f { files with log := .ofBytes (Log.frames ps) } fresh = ((done, book), .ok r) ∧
      done.outbox.bytes = repaired.bytes ++
        Journal.eventBytes f (Journal.written s.lastSeq fresh (entries f ps)) ∧
      ∀ log more tail, Begins o f log (ps ++ more) tail → Log.Incomplete o.limit tail →
        (∀ earlier ∈ entries f ps, ∀ later ∈ entries f more, earlier.1 < later.1) →
        fresh.Modest ((entries f (ps ++ more)).map Prod.snd) →
        ∃ left book once again,
          recover o f { files with log } fresh = ((left, book), .ok once) ∧
          recover o f { files with log, outbox := done.outbox } fresh = ((left, book), .ok again) ∧
          again.lastSeq = once.lastSeq := by
  have husable := usable_of_repair hrepair
  obtain ⟨writer, file, done, hdone⟩ := exists_executes (s := s) husable hlog hm
  obtain ⟨e, hfails⟩ := hdone.recover_bad hrepair hlog hbad
  have halone : Begins o f (.ofBytes (Log.frames ps)) ps [] :=
    { usable := File.usable_ofBytes _
      bytes := (File.bytes_ofBytes _).trans (List.append_nil _).symm
      fits := hlog.fits
      commands := hlog.commands }
  obtain ⟨r, hsucceeds, -⟩ := hdone.recover_whole
    { files with log := .ofBytes (Log.frames ps) } hrepair halone (Or.inl (by decide))
  obtain ⟨hflushed, hwritten⟩ := hdone.holds.flush
  refine ⟨e, _, _, r, hfails, hsucceeds, hwritten, ?_⟩
  intro log more tail hbegins htail hlater hmall
  -- The second attempt takes the outbox as it was left, and the commands in it for done.
  obtain ⟨s', hagain, hseq⟩ := hdone.repair_again hrepair horder hfits
  rw [hdone.lastSeq] at hseq
  obtain ⟨writer₁, file₁, once, honce⟩ := exists_executes (s := s) husable hbegins hmall
  obtain ⟨writer₂, file₂, again, hboth⟩ :=
    exists_executes (s := s') (Or.inr hflushed.regular) hbegins hmall
  obtain ⟨r₁, hrecover₁, hlast₁⟩ := honce.recover_whole { files with log } hrepair hbegins htail
  obtain ⟨r₂, hrecover₂, hlast₂⟩ :=
    hboth.recover_whole { files with log, outbox := _ } hagain hbegins htail
  have hbook : again.book = once.book := hboth.book.trans honce.book.symm
  have houtbox : (again.outbox.1.flush again.outbox.2).2 =
      (once.outbox.1.flush once.outbox.2).2 := by
    obtain ⟨hregular₁, hbytes₁⟩ := honce.holds.flush
    obtain ⟨hregular₂, hbytes₂⟩ := hboth.holds.flush
    refine File.eq_of_bytes_eq hregular₂.regular hregular₁.regular ?_
    rw [hbytes₁, hbytes₂, hwritten, hseq, List.append_assoc, ← Journal.eventBytes_append,
      entries_append, written_again fresh hlater]
  refine ⟨_, _, r₁, r₂, hrecover₁, ?_, ?_⟩
  · rw [hrecover₂, hbook, houtbox]
  · rw [hlast₂, hlast₁, hboth.lastSeq, honce.lastSeq, hseq, entries_append, highest_again]

/-- An outbox of closed commands and less than a record behind them is cut behind these commands. -/
theorem repair_closed (ho : 68 ≤ o.limit) {cs : List Command} (hm : fresh.Modest cs) {tail : Bytes}
    (htorn : Log.Torn (readOptions o.maxPayload) tail) :
    ∃ s, repair .binary o.maxPayload (.ofBytes (Journal.outboxBytes .binary fresh cs ++ tail)) =
        (.ofBytes (Journal.outboxBytes .binary fresh cs), .ok s) ∧
      s.lastSeq = UInt64.ofNat cs.length := by
  have hbytes : (File.ofBytes (Journal.outboxBytes .binary fresh cs ++ tail)).bytes =
      Journal.outboxBytes .binary fresh cs ++ Journal.eventBytes .binary [] ++ tail := by
    rw [Journal.eventBytes_nil, List.append_nil, File.bytes_ofBytes]
  obtain ⟨s, hrepair, hseq⟩ := repair_ok (File.usable_ofBytes _) hm (fun e he => (by cases he)) hbytes
    (fun e _ => ⟨Format.length_encodeEvent_binary_le ho e, Format.binary.length_encodeEvent_le e⟩)
    htorn
  have hcut : (File.ofBytes (Journal.outboxBytes .binary fresh cs ++ tail)).truncate
      (Journal.outboxBytes .binary fresh cs).length =
        .ofBytes (Journal.outboxBytes .binary fresh cs) := by
    refine File.eq_of_bytes_eq rfl rfl ?_
    rw [File.bytes_truncate, File.bytes_ofBytes, File.bytes_ofBytes, List.take_left]
  rw [hcut] at hrepair
  exact ⟨s, hrepair, hseq⟩

/-- A log of commands begins with them. -/
theorem begins_payloads (ho : 67 ≤ o.limit) (logged : List (Seq × Command)) (rest : Bytes) :
    Begins o .binary (.ofBytes (Log.frames (Journal.payloads .binary logged) ++ rest))
      (Journal.payloads .binary logged) rest where
  usable := File.usable_ofBytes _
  bytes := File.bytes_ofBytes _
  fits _ hp :=
    ⟨Journal.length_le_of_mem_payloads_binary ho hp, Journal.length_le_of_mem_payloads hp⟩
  commands p hp := by
    obtain ⟨entry, -, rfl⟩ := List.mem_map.1 hp
    exact ⟨_, Format.decodeCommand_encodeCommand ..⟩

/-- A record without a payload is no command. -/
theorem bad_frame_nil (o : Options) : Bad o .binary (Log.frame []) := by
  have hnone (entry : Seq × Command) : Format.binary.decodeCommand [] ≠ .ok entry := by
    intro h
    have hlen := (Binary.exists_decodeCommand_iff.1 ⟨entry, h⟩).length
    cases hlen
  exact .undecodable ⟨Nat.zero_le _, Nat.zero_le _⟩ hnone []

/-- Two cancellations, of which the outbox has the first, and behind them a record without a
payload. The log is then replaced by one that goes on with a third cancellation under the number
seven. -/
theorem recover_again_empty_record :
    let c : Command := { action := .cancel 5 }
    let logged : List (Seq × Command) := [(1, c), (2, c)]
    let ps := Journal.payloads .binary logged
    let files : SymbolFiles :=
      { log := .ofBytes (Log.frames ps ++ Log.frame [])
        outbox := .ofBytes (Journal.outboxBytes .binary {} [c] ++ [1, 0, 0]) }
    let log : File := .ofBytes (Log.frames (Journal.payloads .binary (logged ++ [(7, c)])))
    ∃ repaired s e done book r,
      repair .binary 0 files.outbox = (repaired, .ok s) ∧
      Begins {} .binary files.log ps (Log.frame []) ∧ Bad {} .binary (Log.frame []) ∧
      recover {} .binary files {} = (({ files with outbox := done.outbox }, book), .error e) ∧
      recover {} .binary { files with log := .ofBytes (Log.frames ps) } {} =
        ((done, book), .ok r) ∧
      files.outbox.size = 155 ∧ done.outbox.size = 304 ∧
      ∃ left book once again,
        recover {} .binary { files with log } {} = ((left, book), .ok once) ∧
        recover {} .binary { files with log, outbox := done.outbox } {} =
          ((left, book), .ok again) ∧
        again.lastSeq = once.lastSeq := by
  intro c logged ps files log
  have hfirst : ({} : Book).Modest [c] := ⟨by decide, trivial⟩
  obtain ⟨s, hrepair, hseq⟩ : ∃ s, repair .binary 0 files.outbox =
      (.ofBytes (Journal.outboxBytes .binary {} [c]), .ok s) ∧ s.lastSeq = 1 :=
    repair_closed (o := {}) (by decide) hfirst (Log.torn_short rfl (by decide))
  have hlog : Begins {} .binary files.log ps (Log.frame []) := begins_payloads (by decide) logged _
  have hlogged : entries .binary ps = logged := entries_payloads ..
  have hmodest : ({} : Book).Modest ((entries .binary ps).map Prod.snd) := by
    rw [hlogged]
    exact ⟨by decide, by decide, trivial⟩
  obtain ⟨e, done, book, r, hfails, hsucceeds, hbytes, hagain⟩ :=
    recover_again hrepair hlog (bad_frame_nil {}) (by rw [hlogged]; decide) hmodest
      fun e _ => Format.length_encodeEvent_binary_le (by decide) e
  have hwhole := begins_payloads (o := {}) (by decide) (logged ++ [(7, c)]) []
  rw [List.append_nil, Journal.payloads_append] at hwhole
  have hlater : ∀ earlier ∈ entries .binary ps,
      ∀ later ∈ entries .binary (Journal.payloads .binary [(7, c)]), earlier.1 < later.1 := by
    rw [hlogged, entries_payloads]
    decide
  have hall : ({} : Book).Modest
      ((entries .binary (ps ++ Journal.payloads .binary [(7, c)])).map Prod.snd) := by
    rw [← Journal.payloads_append, entries_payloads]
    exact ⟨by decide, by decide, by decide, trivial⟩
  refine ⟨_, s, e, done, book, r, hrepair, hlog, bad_frame_nil {}, hfails, hsucceeds, ?_, ?_,
    hagain log _ [] hwhole (Or.inl (by decide)) hlater hall⟩
  · rw [← File.length_bytes, File.bytes_ofBytes, List.length_append, Journal.outboxBytes,
      Journal.length_eventBytes_binary]
    rfl
  · rw [← File.length_bytes, hbytes, List.length_append, hlogged, hseq, File.bytes_ofBytes,
      Journal.outboxBytes, Journal.length_eventBytes_binary, Journal.length_eventBytes_binary]
    rfl

end Recovery

end Bourse
