import Bourse.Proofs.Recovery.Cutting

/-!
# Recovery is exact

A session leaves the log and the outbox of the journal, however its commands were batched. When
both files are cut at any byte, and the log still holds the commands that the outbox holds
completely, a recovery brings back what a session over the commands that are left would have left:
`recover_exact`.
-/

namespace Bourse

/-- Every record for these commands is within the limit of a reader. -/
structure Journal.Fits (limit : Nat) (f : Format) (fresh : Book) (cs : List Command) : Prop where
  commands : ∀ p ∈ payloads f (Actor.number 0 cs), p.length ≤ limit
  events : ∀ e ∈ events fresh (Actor.number 0 cs), (f.encodeEvent e).length ≤ limit

/-- Binary records are short. -/
theorem Journal.fits_binary {limit : Nat} (h : 68 ≤ limit) (fresh : Book) (cs : List Command) :
    Fits limit .binary fresh cs where
  commands _ hp := length_le_of_mem_payloads_binary (Nat.le_trans (by decide) h) hp
  events e _ := Format.length_encodeEvent_binary_le h e

/-- Files whose logs hold nothing yet. -/
structure SymbolFiles.Empty (files : SymbolFiles) : Prop where
  logUsable : files.log.Usable
  log : files.log.bytes = []
  outboxUsable : files.outbox.Usable
  outbox : files.outbox.bytes = []

theorem Journal.Fits.take {limit : Nat} {f : Format} {fresh : Book} {cs : List Command}
    (h : Fits limit f fresh cs) (n : Nat) : Fits limit f fresh (cs.take n) where
  commands p hp := by
    refine h.commands p ?_
    rw [payloads, ← Actor.number_take] at hp
    rw [payloads, ← List.take_append_drop n (Actor.number 0 cs), List.map_append]
    exact List.mem_append_left _ hp
  events e he := by
    refine h.events e ?_
    have hprefix := events_prefix fresh ((Actor.number 0 cs).take n) ((Actor.number 0 cs).drop n)
    rw [List.take_append_drop, Actor.number_take] at hprefix
    exact hprefix.subset he

namespace Recovery

variable {o : Options} {f : Format} {fresh : Book} {cs : List Command}

/-- Files that were cut are readable, if the log holds all commands that the outbox closes. -/
theorem readable_of_cut (hnum : cs.length < UInt64.size) (hmodest : fresh.Modest cs)
    (hfits : Journal.Fits o.limit f fresh cs) {files : SymbolFiles} (hl : files.log.Usable)
    (ho : files.outbox.Usable) {i j : Nat}
    (hlog : files.log.bytes = (Journal.logBytes f cs).take i)
    (hout : files.outbox.bytes = (Journal.outboxBytes f fresh cs).take j)
    (hlogged : ∀ t < cs.length, (Journal.outboxBytes f fresh (cs.take (t + 1))).length ≤ j →
      (Journal.logBytes f (cs.take (t + 1))).length ≤ i) :
    Readable o f fresh files
      (cs.take (whole (fun ds => (Journal.logBytes f ds).length) cs i))
      (whole (fun ds => (Journal.outboxBytes f fresh ds).length) cs j) := by
  obtain ⟨m, logTail, hm, hlogCut, hlogBegun, hlogIff⟩ := log_cut f cs i
  obtain ⟨k, dangling, outTail, hk, -, houtCut, hopen, hmem, houtBegun, houtIff⟩ :=
    outbox_cut f fresh 0 cs j
  have hmEq : whole (fun ds => (Journal.logBytes f ds).length) cs i = m := whole_eq hm hlogIff
  have hkIff : ∀ t < cs.length,
      (Journal.outboxBytes f fresh (cs.take (t + 1))).length ≤ j ↔ t < k :=
    fun t ht => houtIff t ht (hmodest.take _)
  have hkEq : whole (fun ds => (Journal.outboxBytes f fresh ds).length) cs j = k :=
    whole_eq hk hkIff
  rw [hmEq, hkEq]
  have hkm : k ≤ m := by
    refine Nat.le_of_not_lt fun hlt => ?_
    have hmLen : m < cs.length := by omega
    have := (hlogIff m hmLen).1 (hlogged m hmLen ((hkIff m hmLen).2 hlt))
    omega
  have htake : (cs.take m).take k = cs.take k := by
    rw [List.take_take, Nat.min_eq_left hkm]
  have hlen : (cs.take m).length = m := by
    rw [List.length_take]
    omega
  have hlogFits : ∀ p ∈ Journal.payloads f (Actor.number 0 cs),
      Log.Fits (readOptions o.maxPayload).limit p :=
    fun p hp => ⟨hfits.commands p hp, Journal.length_le_of_mem_payloads hp⟩
  have houtFits : ∀ p ∈ (Journal.events fresh (Actor.number 0 cs)).map f.encodeEvent,
      Log.Fits (readOptions o.maxPayload).limit p := by
    intro p hp
    obtain ⟨e, he, rfl⟩ := List.mem_map.1 hp
    exact ⟨hfits.events e he, f.length_encodeEvent_le e⟩
  exact
    { logUsable := hl
      outboxUsable := ho
      complete_le := by omega
      numbered := by omega
      modest := by
        rw [htake]
        exact hmodest.take k
      log := ⟨logTail, by rw [hlog, hlogCut], hlogBegun.torn rfl hlogFits⟩
      logFits := (hfits.take m).commands
      outbox := by
        refine ⟨dangling, outTail, ?_, hopen, houtBegun.torn rfl houtFits, ?_⟩
        · rw [hout, htake]
          exact houtCut
        · intro e he
          rw [htake] at he
          rcases List.mem_append.1 he with he | he
          · exact (hfits.take k).events e he
          · exact hfits.events e (hmem e he) }

/-- How many of these records close a command. -/
def closings (f : Format) (records : List Log.Record) : Nat :=
  records.countP fun r =>
    match f.decodeEvent r.payload with
    | .ok e => e.isCommandEnd
    | .error _ => false

theorem closings_eventRecords (f : Format) (start : Nat) (es : List Event) :
    closings f (eventRecords f start es) = es.countP Event.isCommandEnd := by
  induction es generalizing start with
  | nil => rfl
  | cons e rest ih =>
    have hrest := ih (start + Log.headerSize + (f.encodeEvent e).length)
    rw [closings] at hrest ⊢
    rw [eventRecords, List.map_cons, Log.recordsFrom, List.countP_cons, List.countP_cons,
      Format.decodeEvent_encodeEvent]
    exact congrArg (· + _) hrest

/-- Every command has one event that closes it. -/
theorem countP_events {b : Book} {last : Seq} {ds : List Command} (hm : b.Modest ds) :
    (Journal.events b (Actor.number last ds)).countP Event.isCommandEnd = ds.length := by
  induction ds generalizing b last with
  | nil => rfl
  | cons c rest ih =>
    rcases Journal.group_cases b (last + 1, c) with ⟨hle, front, e, hg, hfront, he, -⟩ | ⟨hlt, -⟩
    · have hzero : front.countP Event.isCommandEnd = 0 :=
        List.countP_eq_zero.2 fun d hd => by rw [hfront d hd]; exact Bool.false_ne_true
      rw [Journal.events_cons_of_le hle, List.countP_append, ih hm.2, hg, List.countP_append, hzero,
        List.countP_singleton, if_pos he, List.length_cons]
      omega
    · exact absurd hm.1 (Nat.not_le.2 hlt)

/-- What a reader finds in readable files: all commands in the log, and in the outbox as many closed
commands as there are. -/
theorem Readable.scan {files : SymbolFiles} {complete : Nat}
    (h : Readable o f fresh files cs complete) :
    (Log.scan (readOptions o.maxPayload) files.log).records.length = cs.length ∧
      closings f (Log.scan (readOptions o.maxPayload) files.outbox).records = complete := by
  obtain ⟨tailLog, hlog, htornLog⟩ := h.log
  obtain ⟨dangling, tailOut, hout, hopen, htornOut, hfits⟩ := h.outbox
  constructor
  · have hlogFits : ∀ p ∈ Journal.payloads f (Actor.number 0 cs),
        Log.Fits (readOptions o.maxPayload).limit p :=
      fun p hp => ⟨h.logFits p hp, Journal.length_le_of_mem_payloads hp⟩
    rw [Log.scan_frames h.logUsable hlog hlogFits htornLog.noRecord, Log.length_recordsFrom]
    simp [Journal.payloads]
  · have houtFits : ∀ p ∈ (Journal.events fresh (Actor.number 0 (cs.take complete)) ++
        dangling).map f.encodeEvent, Log.Fits (readOptions o.maxPayload).limit p := by
      intro p hp
      obtain ⟨e, he, rfl⟩ := List.mem_map.1 hp
      exact ⟨hfits e he, f.length_encodeEvent_le e⟩
    rw [Journal.outboxBytes, ← Journal.eventBytes_append] at hout
    have hzero : dangling.countP Event.isCommandEnd = 0 :=
      List.countP_eq_zero.2 fun d hd => by rw [hopen d hd]; exact Bool.false_ne_true
    rw [Log.scan_frames h.outboxUsable hout houtFits htornOut.noRecord]
    show closings f (eventRecords f 0 _) = complete
    rw [closings_eventRecords, List.countP_append, hzero, countP_events h.modest,
      List.length_take, Nat.min_eq_left h.complete_le, Nat.add_zero]

/-- Files whose log holds commands and whose outbox holds nothing are readable. -/
theorem readable_of_log {files : SymbolFiles} (hl : files.log.Usable)
    (hlog : files.log.bytes = Journal.logBytes f cs) (ho : files.outbox.Usable)
    (hout : files.outbox.bytes = []) (hnum : cs.length < UInt64.size)
    (hfits : ∀ p ∈ Journal.payloads f (Actor.number 0 cs), p.length ≤ o.limit) :
    Readable o f fresh files cs 0 where
  logUsable := hl
  outboxUsable := ho
  complete_le := Nat.zero_le _
  numbered := hnum
  modest := trivial
  log := ⟨[], by rw [hlog, List.append_nil], Log.torn_cut rfl (Or.inl rfl)⟩
  logFits := hfits
  outbox := by
    refine ⟨[], [], hout, ?_, Log.torn_cut rfl (Or.inl rfl), ?_⟩
    · intro e he
      cases he
    · intro e he
      cases he

/-- Files whose logs hold nothing are readable. -/
theorem readable_of_empty {files : SymbolFiles} (h : files.Empty) :
    Readable o f fresh files [] 0 :=
  readable_of_log h.logUsable h.log h.outboxUsable h.outbox (by decide) fun p hp => (by cases hp)

end Recovery

namespace Service

/-- The actor of a recovered symbol stands where the commands of the log lead. -/
theorem served_of_restored {s : Service} {cs : List Command} {files : SymbolFiles} {book : Book}
    {r : Recovery.Recovered} (h : Recovery.Restored s.format s.fresh cs files book r) :
    (s.actor book r).Served s.format s.fresh cs where
  storage := rfl
  format := rfl
  book := h.book
  lastSeq := h.lastSeq
  logs := h.logs

/-- What a session that begins with empty logs leaves does not depend on how its commands were
batched. -/
theorem session_empty {s : Service} {files : SymbolFiles} (hfiles : files.Empty)
    {cs : List Command} (hmodest : s.fresh.Modest cs)
    {queue : List Command} {arrivals : List (List Command)}
    (hcs : queue ++ arrivals.flatten = cs) :
    ∃ files' a, s.session files queue arrivals = (files', .ok a) ∧
      a.book = s.fresh.executeAll cs ∧ files'.log.bytes = Journal.logBytes s.format cs ∧
      files'.outbox.bytes = Journal.outboxBytes s.format s.fresh cs := by
  obtain ⟨files₁, book, r, hrecover, hrestored, -⟩ := Recovery.recover_readable (f := s.format)
    (Recovery.readable_of_empty hfiles) (trivial : s.fresh.Modest [])
  have hm : s.fresh.Modest ([] ++ queue ++ arrivals.flatten) := by
    rw [List.nil_append, hcs]
    exact hmodest
  obtain ⟨a, hrun, hserved⟩ := (served_of_restored hrestored).run hm
  rw [List.nil_append, hcs] at hserved
  obtain ⟨hlog, hout⟩ := hserved.logs.close files₁
  refine ⟨a.logs.close files₁, a, ?_, hserved.book, hlog, hout⟩
  rw [session, hrecover]
  dsimp only
  rw [hrun]

end Service

namespace Recovery

/-- Recovery is exact. A session over the commands `cs` begins with empty logs and leaves a log and
an outbox, which are then cut after `i` and `j` bytes such that the log keeps every command that
the outbox keeps closed. The log then holds the records of the first `m` commands, and the outbox
closes `k` of them. From the cut files a recovery brings back the book, the log and the outbox of
any session over just the first `m` commands, and writes the events of the `m - k` commands that
were not closed. -/
theorem recover_exact {s : Service} {o : Options} {files : SymbolFiles} (hfiles : files.Empty)
    {cs : List Command} (queue : List Command) (arrivals : List (List Command))
    (hcs : queue ++ arrivals.flatten = cs)
    (hnum : cs.length < UInt64.size) (hmodest : s.fresh.Modest cs)
    (hfits : Journal.Fits o.limit s.format s.fresh cs) {i j : Nat}
    (hlogged : ∀ t < cs.length,
      (Journal.outboxBytes s.format s.fresh (cs.take (t + 1))).length ≤ j →
        (Journal.logBytes s.format (cs.take (t + 1))).length ≤ i) :
    ∃ left a, s.session files queue arrivals = (left, .ok a) ∧
      left.log.bytes = Journal.logBytes s.format cs ∧
      left.outbox.bytes = Journal.outboxBytes s.format s.fresh cs ∧
      ∀ cut : SymbolFiles, cut.log.Usable → cut.log.bytes = left.log.bytes.take i →
        cut.outbox.Usable → cut.outbox.bytes = left.outbox.bytes.take j →
        let m := whole (fun ds => (Journal.logBytes s.format ds).length) cs i
        let k := whole (fun ds => (Journal.outboxBytes s.format s.fresh ds).length) cs j
        (Log.scan (readOptions o.maxPayload) cut.log).records.length = m ∧
        closings s.format (Log.scan (readOptions o.maxPayload) cut.outbox).records = k ∧
        ∃ files' book r, recover o s.format cut s.fresh = ((files', book), .ok r) ∧
          book = s.fresh.executeAll (cs.take m) ∧ r.lastSeq.toNat = m ∧ r.replayed = m ∧
          r.backfilled = m - k ∧ r.logs.files = files' ∧
          files'.log.bytes = Journal.logBytes s.format (cs.take m) ∧
          ∀ (batchMax : Nat) (empty : SymbolFiles) (queue' : List Command)
            (arrivals' : List (List Command)), empty.Empty →
            queue' ++ arrivals'.flatten = cs.take m →
            ∃ left' a', { s with batchMax }.session empty queue' arrivals' = (left', .ok a') ∧
              a'.book = book ∧ left'.log.bytes = files'.log.bytes ∧
              left'.outbox.bytes = files'.outbox.bytes := by
  obtain ⟨left, a, hsession, -, hlog, hout⟩ := Service.session_empty hfiles hmodest hcs
  refine ⟨left, a, hsession, hlog, hout, ?_⟩
  intro cut hl hcutLog ho hcutOut m k
  rw [hlog] at hcutLog
  rw [hout] at hcutOut
  have hreadable := readable_of_cut hnum hmodest hfits hl ho hcutLog hcutOut hlogged
  have hm : m ≤ cs.length :=
    Nat.le_trans (List.countP_le_length ..) (Nat.le_of_eq List.length_range)
  have hlen : (cs.take m).length = m := by
    rw [List.length_take]
    omega
  obtain ⟨files', book, r, hrecover, hrestored, hreplayed, hback, -⟩ :=
    recover_readable hreadable (hmodest.take m)
  obtain ⟨hrecords, hclosings⟩ := hreadable.scan
  rw [hlen] at hrecords
  refine ⟨hrecords, hclosings, files', book, r, hrecover, hrestored.book, ?_, ?_, ?_,
    hrestored.files, hrestored.log, ?_⟩
  · rw [hrestored.lastSeq, hlen]
    exact Rebuild.toNat_ofNat_of_lt (by omega)
  · rw [hreplayed, hlen]
  · rw [hback, hlen]
  · intro batchMax empty queue' arrivals' hempty hcs'
    obtain ⟨left', a', hsession', hbook', hlog', hout'⟩ :=
      Service.session_empty (s := { s with batchMax }) hempty (hmodest.take m) hcs'
    refine ⟨left', a', hsession', ?_, ?_, ?_⟩
    · rw [hbook', hrestored.book]
    · rw [hlog', hrestored.log]
    · rw [hout', hrestored.outbox]

/-- Two commands that name no order, in two batches; the log is cut within the second record and the
outbox within the second command. One command is left, and none has to be written again. -/
theorem recover_exact_two_commands :
    ∃ cut files' book r,
      recover {} .binary cut {} = ((files', book), .ok r) ∧ cut.log.size = 80 ∧
        cut.outbox.size = 200 ∧ r.lastSeq.toNat = 1 ∧ r.backfilled = 0 ∧
        files'.log.size = 75 := by
  let c : Command := { action := .cancel 0 }
  let s : Service := { options := {}, format := .binary, batchMax := 1, fresh := {} }
  have hfits : Journal.Fits ({} : Options).limit s.format s.fresh [c, c] :=
    Journal.fits_binary (by decide) s.fresh [c, c]
  have hempty : ({} : SymbolFiles).Empty := ⟨Or.inl rfl, rfl, Or.inl rfl, rfl⟩
  have hlogged : ∀ t < [c, c].length,
      (Journal.outboxBytes .binary {} ([c, c].take (t + 1))).length ≤ 200 →
        (Journal.logBytes .binary ([c, c].take (t + 1))).length ≤ 80 := by
    intro t ht
    rw [Journal.outboxBytes, Journal.length_eventBytes_binary, Journal.length_logBytes_binary]
    rcases Nat.lt_succ_iff_lt_or_eq.1 ht with hlt | rfl
    · obtain rfl : t = 0 := Nat.lt_one_iff.1 hlt
      exact fun _ => by decide
    · exact fun h => absurd h (by decide)
  have hcs : [c] ++ [[c]].flatten = [c, c] := rfl
  have hmodest : s.fresh.Modest [c, c] := ⟨by decide, by decide, trivial⟩
  obtain ⟨left, a, -, hlog, hout, hcut⟩ :=
    recover_exact hempty [c] [[c]] hcs (by decide) hmodest hfits hlogged
  obtain ⟨-, -, files', book, r, hrecover, -, hseq, -, hback, -, hfile, -⟩ :=
    hcut { log := .ofBytes (left.log.bytes.take 80), outbox := .ofBytes (left.outbox.bytes.take 200) }
      (File.usable_ofBytes _) (File.bytes_ofBytes _) (File.usable_ofBytes _) (File.bytes_ofBytes _)
  have hm : whole (fun ds => (Journal.logBytes s.format ds).length) [c, c] 80 = 1 := by
    simp only [Journal.length_logBytes_binary, s]
    decide
  have hk : whole (fun ds => (Journal.outboxBytes s.format s.fresh ds).length) [c, c] 200 = 1 := by
    simp only [Journal.outboxBytes, Journal.length_eventBytes_binary, s]
    decide
  refine ⟨_, files', book, r, hrecover, ?_, ?_, ?_, ?_, ?_⟩
  · rw [← File.length_bytes, File.bytes_ofBytes, List.length_take, hlog,
      Journal.length_logBytes_binary]
    rfl
  · rw [← File.length_bytes, File.bytes_ofBytes, List.length_take, hout, Journal.outboxBytes,
      Journal.length_eventBytes_binary]
    rfl
  · rw [hseq, hm]
  · rw [hback, hm, hk]
  · rw [← File.length_bytes, hfile, hm, Journal.length_logBytes_binary]
    rfl

end Recovery

end Bourse
