import Bourse.Proofs.Recovery.Recovering

/-!
# Recoveries that stop

A record beyond the limit of the reader or a command with too many events makes a recovery stop.
However far it gets, its outbox holds first events of the journal for commands of the log and
nothing else, and it succeeds only if it has read all of both logs: `recover_prefix`.
-/

namespace Bourse

/-! ## First parts of a journal -/

namespace Journal

/-- The first events of a journal are those of some commands, all closed, and then of one that is
not closed. -/
theorem events_split {b : Book} {last : Seq} {cs : List Command} {es : List Event}
    (h : es <+: events b (Actor.number last cs)) :
    ∃ k dangling, k ≤ cs.length ∧ b.Modest (cs.take k) ∧
      es = events b (Actor.number last (cs.take k)) ++ dangling ∧ Event.Open dangling := by
  induction cs generalizing b last es with
  | nil =>
    have hnil : es = [] := List.prefix_nil.1 h
    subst hnil
    exact ⟨0, [], Nat.le_refl _, trivial, rfl, fun e he => (by cases he)⟩
  | cons c rest ih =>
    rcases group_cases b (last + 1, c) with ⟨hle, front, e, hg, hfront, -, -⟩ | ⟨hlt, hopen⟩
    · have hcons (ds : List Command) : events b (Actor.number last (c :: ds)) =
          (front ++ [e]) ++ events (b.execute c).1 (Actor.number (last + 1) ds) := by
        rw [events_cons_of_le hle, hg]
      rw [hcons] at h
      rcases Log.prefix_append_cases h with ⟨hin, hless⟩ | ⟨es', rfl, hrest⟩
      · -- The command of the group is not closed.
        refine ⟨0, es, Nat.zero_le _, trivial, rfl, fun d hd => hfront d ?_⟩
        rcases List.prefix_concat_iff.1 hin with rfl | hin
        · exact absurd hless (Nat.lt_irrefl _)
        · exact hin.subset hd
      · obtain ⟨k, dangling, hk, hm, rfl, hopen⟩ := ih hrest
        refine ⟨k + 1, dangling, Nat.succ_le_succ hk, ⟨hle, hm⟩, ?_, hopen⟩
        rw [List.take_succ_cons, hcons]
        simp only [List.append_assoc]
    · rw [events_cons_of_lt hlt] at h
      exact ⟨0, es, Nat.zero_le _, trivial, rfl, fun d hd => hopen d (h.subset hd)⟩

theorem payloads_prefix (f : Format) {cs ds : List Command} (h : cs <+: ds) :
    payloads f (Actor.number 0 cs) <+: payloads f (Actor.number 0 ds) := by
  obtain ⟨more, rfl⟩ := h
  rw [Actor.number_append, payloads_append]
  exact List.prefix_append ..

theorem logBytes_prefix (f : Format) {cs ds : List Command} (h : cs <+: ds) :
    logBytes f cs <+: logBytes f ds := by
  obtain ⟨more, hmore⟩ := payloads_prefix f h
  rw [logBytes, logBytes, ← hmore, Log.frames_append]
  exact List.prefix_append ..

theorem payloads_concat (f : Format) (cs : List Command) (c : Command) :
    payloads f (Actor.number 0 (cs ++ [c])) =
      payloads f (Actor.number 0 cs) ++ [f.encodeCommand (UInt64.ofNat cs.length + 1) c] := by
  rw [Actor.number_append, payloads_append, UInt64.zero_add]
  rfl

theorem outboxBytes_prefix (f : Format) (b : Book) {cs ds : List Command} (h : cs <+: ds) :
    outboxBytes f b cs <+: outboxBytes f b ds := by
  obtain ⟨more, rfl⟩ := h
  rw [outboxBytes, outboxBytes, Actor.number_append]
  obtain ⟨rest, hrest⟩ := events_prefix b (Actor.number 0 cs)
    (Actor.number (0 + UInt64.ofNat cs.length) more)
  rw [← hrest, eventBytes_append]
  exact List.prefix_append ..

/-- A log has no more commands than bytes. -/
theorem length_le_logBytes (f : Format) (cs : List Command) :
    cs.length ≤ (logBytes f cs).length := by
  have h := Log.length_le_frames (payloads f (Actor.number 0 cs))
  rwa [payloads, List.length_map, Actor.length_number] at h

/-- An outbox has no more events than bytes. -/
theorem length_le_eventBytes (f : Format) (es : List Event) : es.length ≤ (eventBytes f es).length := by
  have h := Log.length_le_frames (es.map f.encodeEvent)
  rwa [List.length_map] at h

end Journal

/-- A log within the range of positions has fewer commands than there are sequence numbers. -/
theorem File.length_lt_of_inRange {f : Format} {cs : List Command} {n : Nat}
    (h : (Journal.logBytes f cs).length ≤ n) (hn : n ≤ maxPosition) : cs.length < UInt64.size := by
  have hlt : maxPosition < UInt64.size := by decide
  have := Journal.length_le_logBytes f cs
  omega

namespace Recovery

variable {o : Options} {f : Format} {fresh : Book}

/-! ## Reading what can be read -/

/-- What a scan finds in the first part of a log. If it ends without an error, nothing but less than
the next record is left. -/
theorem scan_prefix {file : File} (hu : file.Usable) (maxPayload : Nat) {ps : List Bytes}
    (hm : ∀ p ∈ ps, p.length ≤ Log.maxLength) (hb : file.bytes <+: Log.frames ps) :
    ∃ qs tail, qs <+: ps ∧ file.bytes = Log.frames qs ++ tail ∧
      (∀ q ∈ qs, Log.Fits (readOptions maxPayload).limit q) ∧
      (Log.scan (readOptions maxPayload) file).records = Log.recordsFrom 0 qs ∧
      ∀ torn, (Log.scan (readOptions maxPayload) file).ending = .ok torn →
        torn = !tail.isEmpty ∧ Log.Torn (readOptions maxPayload) tail ∧
          ∀ p, qs ++ [p] <+: ps → tail.length < (Log.frame p).length := by
  obtain ⟨qs, tail, hqs, hbytes, hfits, hend⟩ :=
    Log.split_prefix (o := readOptions maxPayload) rfl hm hb
  refine ⟨qs, tail, hqs, hbytes, hfits, ?_⟩
  rcases hend with ⟨n, hlarge⟩ | ⟨htorn, hlt⟩
  · have hscan := Log.scan_frames hu hbytes hfits (by rw [hlarge]; rfl)
    refine ⟨by rw [hscan], fun torn h => ?_⟩
    rw [hscan, hlarge] at h
    cases h
  · have hscan := Log.scan_frames hu hbytes hfits htorn.noRecord
    refine ⟨by rw [hscan], fun torn h => ?_⟩
    rw [hscan, htorn.ending] at h
    injection h with h
    exact ⟨h.symm, htorn, hlt⟩

/-- A repair that succeeds has read all of the outbox and leaves its closed commands. -/
theorem repair_prefix {maxPayload : Nat} {outbox outbox' : File} {r : Repair} {ds : List Command}
    (hu : outbox.Usable) (hb : outbox.bytes <+: Journal.outboxBytes f fresh ds)
    (h : repair f maxPayload outbox = (outbox', .ok r)) :
    ∃ k, k ≤ ds.length ∧ fresh.Modest (ds.take k) ∧
      (∃ dangling tail, outbox.bytes = Journal.outboxBytes f fresh (ds.take k) ++
          Journal.eventBytes f dangling ++ tail ∧
        Event.Open dangling ∧ Log.Torn (readOptions maxPayload) tail ∧
        ∀ e ∈ Journal.events fresh (Actor.number 0 (ds.take k)) ++ dangling,
          (f.encodeEvent e).length ≤ (readOptions maxPayload).limit) ∧
      outbox'.bytes = Journal.outboxBytes f fresh (ds.take k) ∧ outbox'.Usable ∧
      r.lastSeq = UInt64.ofNat k := by
  have hm : ∀ p ∈ (Journal.events fresh (Actor.number 0 ds)).map f.encodeEvent,
      p.length ≤ Log.maxLength := by
    intro p hp
    obtain ⟨e, -, rfl⟩ := List.mem_map.1 hp
    exact f.length_encodeEvent_le e
  obtain ⟨qs, tail, hqs, hbytes, hfits, -, hend⟩ := scan_prefix hu maxPayload hm hb
  obtain ⟨es, hes, rfl⟩ := List.prefix_map_iff.1 hqs
  obtain ⟨k, dangling, hk, hmodest, rfl, hopen⟩ := Journal.events_split hes
  -- The scan ends without an error, or the repair would have failed.
  obtain ⟨torn, hok⟩ : ∃ torn, (Log.scan (readOptions maxPayload) outbox).ending = .ok torn := by
    rcases hrun : Attempt.forEach (Repair.note f) {}
      (Log.scan (readOptions maxPayload) outbox).records with ⟨s, result⟩
    obtain ⟨result', hreplay, hok⟩ := Log.replay_of_forEach RecoveryError.log hrun
    obtain ⟨found, stats, hfound, -⟩ := repair_eq_ok_iff.1 h
    obtain ⟨rfl, rfl⟩ := Prod.mk.inj (hreplay.symm.trans hfound)
    exact ⟨stats.torn, (hok stats rfl).2.1⟩
  obtain ⟨-, htorn, -⟩ := hend torn hok
  have hlimit : ∀ e ∈ Journal.events fresh (Actor.number 0 (ds.take k)) ++ dangling,
      Log.Fits (readOptions maxPayload).limit (f.encodeEvent e) :=
    fun e he => hfits _ (List.mem_map_of_mem he)
  have hsplit : outbox.bytes = Journal.outboxBytes f fresh (ds.take k) ++
      Journal.eventBytes f dangling ++ tail := by
    rw [hbytes, Journal.outboxBytes, ← Journal.eventBytes_append]
    rfl
  obtain ⟨r', hrepair, hlast⟩ := repair_ok hu hmodest hopen hsplit hlimit htorn
  rw [h] at hrepair
  obtain ⟨rfl, hr⟩ := Prod.mk.inj hrepair
  injection hr with hr
  subst hr
  refine ⟨k, hk, hmodest, ⟨dangling, tail, hsplit, hopen, htorn, fun e he => (hlimit e he).1⟩, ?_,
    hu.truncate _, ?_⟩
  · rw [File.bytes_truncate, hsplit, List.append_assoc, List.take_left]
  · rw [hlast, List.length_take, Nat.min_eq_left hk]

/-- First payloads of a log are those of first commands. -/
theorem exists_of_payloads_prefix {all : List Command} {qs : List Bytes}
    (h : qs <+: Journal.payloads f (Actor.number 0 all)) :
    ∃ xs, xs <+: all ∧ qs = Journal.payloads f (Actor.number 0 xs) := by
  refine ⟨all.take qs.length, List.take_prefix .., ?_⟩
  rw [← Actor.number_take, Journal.payloads, List.map_take]
  exact List.prefix_iff_eq_take.1 h

/-- What a replay of the commands `xs` adds to an outbox that closes the first `k` of `ds`. When there
are fewer than `k` of them it adds nothing. -/
theorem Rebuild.replay_of_prefix {xs ds all : List Command} (hxs : xs <+: all) (hds : ds <+: all)
    (hxsNum : xs.length < UInt64.size) (hdsNum : ds.length < UInt64.size) {k : Nat}
    (hk : k ≤ ds.length) (hm : fresh.Modest (ds.take k)) (out : Log.Writer × File)
    (hout : out.1.Holds out.2 (Journal.outboxBytes f fresh (ds.take k))) :
    ∃ s result ys, Attempt.forEach (step f (UInt64.ofNat k)) (start fresh out k)
        (commandRecords f 0 (Actor.number 0 xs)) = (s, result) ∧
      (ys <+: xs ∨ ys <+: ds) ∧
      s.outbox.1.Holds s.outbox.2 (Journal.outboxBytes f fresh ys) ∧
      (result = .ok () → ds <+: xs → fresh.Modest xs) := by
  by_cases hkx : k ≤ xs.length
  · have htake : ds.take k = xs.take k := by
      rw [List.prefix_iff_eq_take.1 hds, List.prefix_iff_eq_take.1 hxs, List.take_take,
        List.take_take, Nat.min_eq_left hk, Nat.min_eq_left hkx]
    rw [htake] at hm hout
    obtain ⟨s, result, hrun, hdone, -, hrefused⟩ := replay_all hkx hxsNum hm out hout
    refine ⟨s, result, xs, hrun, Or.inl (List.prefix_refl _), hdone, ?_⟩
    intro h _
    by_cases hmodest : fresh.Modest xs
    · exact hmodest
    · cases h.symm.trans (hrefused hmodest)
  · -- The outbox closes more commands than there are.
    have hold : ∀ entry ∈ Actor.number 0 xs, entry.1 ≤ UInt64.ofNat k := by
      intro entry he
      refine UInt64.le_trans (le_of_mem_number hxsNum he) ?_
      rw [UInt64.le_iff_toNat_le, toNat_ofNat_of_lt hxsNum, toNat_ofNat_of_lt (by omega)]
      omega
    have hsilent := replay_silent (f := f) (start fresh out k) rfl hold 0
    refine ⟨_, _, ds.take k, hsilent, Or.inr (List.take_prefix ..), hout, ?_⟩
    intro _ h
    exact absurd (Nat.le_trans hk h.length_le) hkx

/-- When less than the next record is left behind the commands `xs`, there is no place in the log for
more of its commands. -/
theorem prefix_of_tail_lt {xs ds all : List Command} (hxs : xs <+: all) (hds : ds <+: all)
    {tail : Bytes} (hle : (Journal.logBytes f ds).length ≤ (Journal.logBytes f xs ++ tail).length)
    (hlt : ∀ p, Journal.payloads f (Actor.number 0 xs) ++ [p] <+:
      Journal.payloads f (Actor.number 0 all) → tail.length < (Log.frame p).length) :
    ds <+: xs := by
  rcases List.prefix_or_prefix_of_prefix hds hxs with h | ⟨more, rfl⟩
  · exact h
  cases more with
  | nil => exact ⟨[], by rw [List.append_nil, List.append_nil]⟩
  | cons c more =>
    have hnext : xs ++ [c] <+: xs ++ c :: more := (List.prefix_append_right_inj xs).2 ⟨more, rfl⟩
    have hpayload := Journal.payloads_concat f xs c
    have htail := hlt _ (hpayload ▸ Journal.payloads_prefix f (hnext.trans hds))
    have hrecord : Journal.logBytes f (xs ++ [c]) = Journal.logBytes f xs ++
        Log.frame (f.encodeCommand (UInt64.ofNat xs.length + 1) c) := by
      rw [Journal.logBytes, hpayload, Log.frames_append, Log.frames_cons, Log.frames_nil,
        List.append_nil]
      rfl
    have hlog := (Journal.logBytes_prefix f hnext).length_le
    rw [hrecord, List.length_append] at hlog
    rw [List.length_append] at hle
    omega

/-- A replay of the first part of a log goes on from `k` closed commands. It adds events of commands
in the log, and if it succeeds those are all commands there and none has too many events. -/
theorem replay_prefix {maxPayload : Nat} {file : File} (hu : file.Usable) {ds all : List Command}
    (hrange : file.size ≤ File.maxPosition) (hlog : file.bytes <+: Journal.logBytes f all)
    (hds : ds <+: all) (hkept : (Journal.logBytes f ds).length ≤ file.size) {k : Nat}
    (hk : k ≤ ds.length) (hm : fresh.Modest (ds.take k)) (out : Log.Writer × File)
    (hout : out.1.Holds out.2 (Journal.outboxBytes f fresh (ds.take k))) :
    ∃ s result cs bytes, Log.replay (readOptions maxPayload) file RecoveryError.log
        (Rebuild.step f (UInt64.ofNat k)) (Rebuild.start fresh out k) = (s, result) ∧
      ds <+: cs ∧ cs <+: all ∧ (Journal.logBytes f cs).length ≤ file.size ∧
      s.outbox.1.Holds s.outbox.2 bytes ∧ bytes <+: Journal.outboxBytes f fresh cs ∧
      ∀ stats, result = .ok stats → fresh.Modest cs ∧
        (∀ p ∈ Journal.payloads f (Actor.number 0 cs), p.length ≤ (readOptions maxPayload).limit) ∧
        ∃ tail, file.bytes = Journal.logBytes f cs ++ tail ∧
          Log.Torn (readOptions maxPayload) tail ∧
          stats.lastGood = (Journal.logBytes f cs).length ∧ stats.torn = !tail.isEmpty := by
  obtain ⟨qs, tail, hqs, hbytes, hfits, hrecords, hend⟩ :=
    scan_prefix hu maxPayload (fun p hp => Journal.length_le_of_mem_payloads hp) hlog
  obtain ⟨xs, hxs, rfl⟩ := exists_of_payloads_prefix hqs
  have hxsKept : (Journal.logBytes f xs).length ≤ file.size := by
    rw [← File.length_bytes, hbytes, List.length_append]
    exact Nat.le_add_right ..
  obtain ⟨s, visited, ys, hvisit, hys, hdone, hmodest⟩ :=
    Rebuild.replay_of_prefix hxs hds (File.length_lt_of_inRange hxsKept hrange)
      (File.length_lt_of_inRange hkept hrange) hk hm out hout
  rw [Rebuild.commandRecords, ← hrecords] at hvisit
  obtain ⟨result, hreplay, hok⟩ := Log.replay_of_forEach RecoveryError.log hvisit
  -- The commands in the log are those read or those known to be there, whichever are more.
  obtain ⟨cs, hdsCs, hxsCs, hcs, hcsKept, heq⟩ : ∃ cs, ds <+: cs ∧ xs <+: cs ∧ cs <+: all ∧
      (Journal.logBytes f cs).length ≤ file.size ∧ (ds <+: xs → cs = xs) := by
    rcases List.prefix_or_prefix_of_prefix hds hxs with h | h
    · exact ⟨xs, h, List.prefix_refl _, hxs, hxsKept, fun _ => rfl⟩
    · exact ⟨ds, List.prefix_refl _, h, hds, hkept, fun h' => h'.eq_of_length_le h.length_le⟩
  refine ⟨s, result, cs, _, hreplay, hdsCs, hcs, hcsKept, hdone, ?_, ?_⟩
  · rcases hys with h | h
    · exact Journal.outboxBytes_prefix f fresh (h.trans hxsCs)
    · exact Journal.outboxBytes_prefix f fresh (h.trans hdsCs)
  · intro stats h
    obtain ⟨hfine, hending, hgood⟩ := hok stats h
    obtain ⟨htorn, hless, hlt⟩ := hend stats.torn hending
    rw [← File.length_bytes, hbytes] at hkept
    have hall : ds <+: xs := prefix_of_tail_lt hxs hds hkept hlt
    rw [hrecords, Log.lastGood_recordsFrom, Nat.zero_add] at hgood
    rw [heq hall]
    exact ⟨hmodest hfine hall, fun p hp => (hfits p hp).1, tail, hbytes, hless, hgood, htorn⟩

/-- A recovery of files that were cut gets as far as the log. What it has written then are first
events of the journal, for commands that are in the log. If nothing stopped it, its files are readable
and the log without its torn end holds their commands. -/
theorem rebuilt_prefix {files : SymbolFiles} {ds all : List Command} (hl : files.log.Usable)
    (ho : files.outbox.Usable) (hrange : files.log.size ≤ File.maxPosition)
    (hlog : files.log.bytes <+: Journal.logBytes f all) (hds : ds <+: all)
    (hkept : (Journal.logBytes f ds).length ≤ files.log.size)
    (hout : files.outbox.bytes <+: Journal.outboxBytes f fresh ds) {outbox opened : File}
    {r : Repair} {writer : Log.Writer} {s : Rebuild} {result : Except RecoveryError Log.ReplayStats}
    (hrepair : repair f o.maxPayload files.outbox = (outbox, .ok r))
    (hopened : Log.Writer.open? outbox o.outboxBuffer = (opened, .ok writer))
    (hreplay : Log.replay (readOptions o.maxPayload) files.log .log (Rebuild.step f r.lastSeq)
      { book := fresh, outbox := (writer, opened), lastSeq := r.lastSeq } = (s, result)) :
    ∃ k cs, ds <+: cs ∧ cs <+: all ∧ (Journal.logBytes f cs).length ≤ files.log.size ∧
      (s.outbox.1.flush s.outbox.2).2.bytes <+: Journal.outboxBytes f fresh cs ∧
      ∀ stats, result = .ok stats → fresh.Modest cs ∧ Readable o f fresh files cs k ∧
        (if stats.torn then files.log.truncate stats.lastGood else files.log).bytes =
          Journal.logBytes f cs := by
  obtain ⟨k, hk, hm, hfound, hbytes, -, hlast⟩ := repair_prefix ho hout hrepair
  obtain ⟨hholds, -⟩ := Log.Writer.holds_of_open? hopened
  rw [hbytes] at hholds
  obtain ⟨s', replayed, cs, bytes, hreplay', hdsCs, hcs, hcsKept, hdone, hprefix, hok⟩ :=
    replay_prefix hl hrange hlog hds hkept hk hm (writer, opened) hholds
  rw [hlast] at hreplay
  obtain ⟨rfl, rfl⟩ := Prod.mk.inj (hreplay.symm.trans hreplay')
  obtain ⟨-, hflushed⟩ := hdone.flush
  rw [← hflushed] at hprefix
  refine ⟨k, cs, hdsCs, hcs, hcsKept, hprefix, fun stats hstats => ?_⟩
  obtain ⟨hmodest, hfits, tail, hsplit, htorn, hgood, hcut⟩ := hok stats hstats
  have htake : cs.take k = ds.take k := by
    rw [List.prefix_iff_eq_take.1 hdsCs, List.take_take, Nat.min_eq_left hk]
  rw [hgood, hcut]
  refine ⟨hmodest, ?_, (truncate_torn hsplit hl).1⟩
  exact
    { logUsable := hl
      outboxUsable := ho
      complete_le := Nat.le_trans hk hdsCs.length_le
      numbered := File.length_lt_of_inRange hcsKept hrange
      modest := htake ▸ hm
      log := ⟨tail, hsplit, htorn⟩
      logFits := hfits
      outbox := htake ▸ hfound }

/-- However far a recovery gets on files that were cut, its outbox holds first events of the journal
for commands that stay in the log. If it succeeds, the symbol is restored to all commands there. -/
theorem recover_prefix {files files' : SymbolFiles} {ds all : List Command} {book : Book}
    {result : Except RecoveryError Recovered} (hl : files.log.Usable) (ho : files.outbox.Usable)
    (hrange : files.log.size ≤ File.maxPosition) (hlog : files.log.bytes <+: Journal.logBytes f all)
    (hds : ds <+: all) (hkept : (Journal.logBytes f ds).length ≤ files.log.size)
    (hout : files.outbox.bytes <+: Journal.outboxBytes f fresh ds)
    (h : recover o f files fresh = ((files', book), result)) :
    ∃ cs, ds <+: cs ∧ cs <+: all ∧ (Journal.logBytes f cs).length ≤ files'.log.size ∧
      files'.outbox.bytes <+: Journal.outboxBytes f fresh cs ∧
      ∀ r, result = .ok r → fresh.Modest cs ∧ Restored f fresh cs files' book r ∧
        files'.cursor = files.cursor := by
  cases recover_eq_iff.1 h with
  | unrepaired repaired =>
    refine ⟨ds, List.prefix_refl _, hds, hkept, ?_, fun r hr => (by cases hr)⟩
    obtain ⟨rfl, -⟩ := repair_eq_error_iff.1 repaired
    exact hout
  | unopened repaired opens =>
    obtain ⟨k, -, -, -, hbytes, -⟩ := repair_prefix ho hout repaired
    refine ⟨ds, List.prefix_refl _, hds, hkept, ?_, fun r hr => (by cases hr)⟩
    rw [Log.Writer.bytes_of_open? opens, hbytes]
    exact Journal.outboxBytes_prefix f fresh (List.take_prefix ..)
  | unreplayed repaired opens replays =>
    obtain ⟨k, cs, hdsCs, hcs, hcsKept, hprefix, -⟩ :=
      rebuilt_prefix hl ho hrange hlog hds hkept hout repaired opens replays
    exact ⟨cs, hdsCs, hcs, hcsKept, hprefix, fun r hr => (by cases hr)⟩
  | logUnopened repaired opens replays opensLog =>
    obtain ⟨k, cs, hdsCs, hcs, -, hprefix, hok⟩ :=
      rebuilt_prefix hl ho hrange hlog hds hkept hout repaired opens replays
    obtain ⟨-, -, hlogCut⟩ := hok _ rfl
    refine ⟨cs, hdsCs, hcs, Nat.le_of_eq ?_, hprefix, fun r hr => (by cases hr)⟩
    rw [← File.length_bytes, Log.Writer.bytes_of_open? opensLog, hlogCut]
  | recovered repaired opens replays opensLog =>
    -- Everything was read, so the symbol is restored as from any readable files.
    obtain ⟨k, cs, hdsCs, hcs, -, hprefix, hok⟩ :=
      rebuilt_prefix hl ho hrange hlog hds hkept hout repaired opens replays
    obtain ⟨hmodest, hreadable, -⟩ := hok _ rfl
    obtain ⟨files'', book'', r, hagain, hrestored, -, -, hcursor, -⟩ :=
      recover_readable hreadable hmodest
    cases h.symm.trans hagain
    refine ⟨cs, hdsCs, hcs, Nat.le_of_eq ?_, hprefix, fun r' hr => ?_⟩
    · rw [← File.length_bytes, hrestored.log]
    · cases hr
      exact ⟨hmodest, hrestored, hcursor⟩

end Recovery

end Bourse
