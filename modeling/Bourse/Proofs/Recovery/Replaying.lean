import Bourse.Proofs.Log.Appending
import Bourse.Proofs.Log.Scanning
import Bourse.Proofs.Symbol.Journal
import Bourse.Recovery.Basic

/-!
# Replaying the log of a journal

The commands of which the outbox holds all events are executed silently, the others once more with
their events. Both ways lead to the same book as the first time, and the events written are those
that the journal has for the commands.
-/

namespace Bourse.Recovery.Rebuild

variable {f : Format} {complete : Seq}

/-- The records of logged commands from an offset on. -/
def commandRecords (f : Format) (start : Nat) (entries : List (Seq × Command)) :
    List Log.Record :=
  Log.recordsFrom start (Journal.payloads f entries)

theorem commandRecords_cons (f : Format) (start : Nat) (last : Seq) (c : Command)
    (rest : List Command) :
    commandRecords f start (Actor.number last (c :: rest)) =
      ⟨f.encodeCommand (last + 1) c,
        start + Log.headerSize + (f.encodeCommand (last + 1) c).length⟩ ::
        commandRecords f (start + Log.headerSize + (f.encodeCommand (last + 1) c).length)
          (Actor.number (last + 1) rest) := rfl

theorem commandRecords_append (f : Format) (start : Nat) (entries more : List (Seq × Command)) :
    commandRecords f start (entries ++ more) =
      commandRecords f start entries ++
        commandRecords f (start + (Log.frames (Journal.payloads f entries)).length) more := by
  rw [commandRecords, Journal.payloads_append, Log.recordsFrom_append]
  rfl

/-- Putting events adds their frames to the outbox. -/
theorem forEach_put (out : Log.Writer × File) {bytes : Bytes} (h : out.1.Holds out.2 bytes)
    (es : List Event) :
    ∃ out', Attempt.forEach (put f) out es = (out', .ok ()) ∧
      out'.1.Holds out'.2 (bytes ++ Journal.eventBytes f es) := by
  induction es generalizing out bytes with
  | nil => exact ⟨out, rfl, by simpa using h⟩
  | cons e rest ih =>
    obtain ⟨w, file, happ, hholds⟩ := h.append (f.length_encodeEvent_le e)
    obtain ⟨out', hrest, hout⟩ := ih (w, file) hholds
    have hput : put f out e = ((w, file), .ok ()) := by
      obtain ⟨w₀, file₀⟩ := out
      simp only [put]
      rw [happ]
    refine ⟨out', ?_, by simpa [Journal.eventBytes] using hout⟩
    rw [Attempt.forEach_cons, hput]
    exact hrest

/-- The rebuild after commands were executed. -/
def executed (s : Rebuild) (cs : List Command) (lastSeq : Seq) : Rebuild :=
  { s with book := s.book.executeAll cs, lastSeq, replayed := s.replayed + cs.length }

/-- The commands in some records, each with its number. -/
def decoded (f : Format) (records : List Log.Record) : List (Seq × Command) :=
  records.filterMap fun r => (f.decodeCommand r.payload).toOption

theorem decoded_cons {r : Log.Record} {entry : Seq × Command}
    (h : f.decodeCommand r.payload = .ok entry) (records : List Log.Record) :
    decoded f (r :: records) = entry :: decoded f records :=
  List.filterMap_cons_some (by rw [h]; rfl)

theorem length_decoded {records : List Log.Record}
    (h : ∀ r ∈ records, ∃ entry, f.decodeCommand r.payload = .ok entry) :
    (decoded f records).length = records.length := by
  induction records with
  | nil => rfl
  | cons r rest ih =>
    obtain ⟨entry, hdecode⟩ := h r List.mem_cons_self
    rw [decoded_cons hdecode, List.length_cons, List.length_cons,
      ih fun r hr => h r (List.mem_cons_of_mem _ hr)]

/-- What was written is read back. -/
theorem decoded_commandRecords (f : Format) (start : Nat) (entries : List (Seq × Command)) :
    decoded f (commandRecords f start entries) = entries := by
  induction entries generalizing start with
  | nil => rfl
  | cons entry rest ih =>
    rw [commandRecords, Journal.payloads, List.map_cons, Log.recordsFrom,
      decoded_cons (Format.decodeCommand_encodeCommand ..)]
    exact congrArg (entry :: ·) (ih _)

/-- A command of which the outbox holds all events is executed silently. -/
theorem step_silent {r : Log.Record} {entry : Seq × Command}
    (hdecode : f.decodeCommand r.payload = .ok entry) (hc : entry.1 ≤ complete) (s : Rebuild) :
    step f complete s r = (s.executed [entry.2] (max s.lastSeq entry.1), .ok ()) := by
  rw [step, hdecode]
  simp only [if_pos hc]
  rfl

/-- Any other command is executed with its events; it fails if they are too many. -/
theorem step_loud {r : Log.Record} {entry : Seq × Command}
    (hdecode : f.decodeCommand r.payload = .ok entry) (hc : ¬ entry.1 ≤ complete) {s : Rebuild}
    {bytes : Bytes} (h : s.outbox.1.Holds s.outbox.2 bytes) :
    ∃ out, out.1.Holds out.2 (bytes ++ Journal.eventBytes f (Journal.group s.book entry)) ∧
      step f complete s r =
        if (s.book.execute entry.2).2.length ≤ maxEvents then
          ({ s.executed [entry.2] (max s.lastSeq entry.1) with
              outbox := out, backfilled := s.backfilled + 1 }, .ok ())
        else
          ({ s with book := (s.book.execute entry.2).1, outbox := out },
            .error (.log .tooManyEvents)) := by
  obtain ⟨out, hput, hholds⟩ := forEach_put (f := f) s.outbox h (Journal.group s.book entry)
  refine ⟨out, hholds, ?_⟩
  have hrecord : Emitter.record (put f) s.outbox entry.1 entry.2.request
      (s.book.execute entry.2).2 = (out, Emitter.outcome 0 (s.book.execute entry.2).2) := by
    rw [Emitter.record_eq, ← Journal.group.eq_1, hput]
    rfl
  rw [step, hdecode]
  simp only [if_neg hc, hrecord, Emitter.outcome, Nat.zero_add]
  by_cases hle : (s.book.execute entry.2).2.length ≤ maxEvents
  · rw [if_pos hle, if_pos hle]
    rfl
  · rw [if_neg hle, if_neg hle]

theorem max_eq_left {a b : Seq} (h : b ≤ a) : max a b = a := by
  show (if a ≤ b then b else a) = a
  split
  · next hab => exact UInt64.le_antisymm h hab
  · rfl

theorem max_eq_right {a b : Seq} (h : a ≤ b) : max a b = b :=
  if_pos h

theorem max_le {a b c : Seq} (ha : a ≤ c) (hb : b ≤ c) : max a b ≤ c := by
  show (if a ≤ b then b else a) ≤ c
  split
  · exact hb
  · exact ha

theorem le_max_seq (a b : Seq) : a ≤ max a b ∧ b ≤ max a b := by
  rcases UInt64.le_total a b with h | h
  · rw [max_eq_right h]
    exact ⟨h, UInt64.le_refl b⟩
  · rw [max_eq_left h]
    exact ⟨UInt64.le_refl a, h⟩

/-- A record that is taken is a command. It is executed and counts, whether its events are written
or not. -/
theorem step_ok {s s' : Rebuild} {r : Log.Record} (h : step f complete s r = (s', .ok ())) :
    ∃ seq c, f.decodeCommand r.payload = .ok (seq, c) ∧ ∃ outbox backfilled,
      s' = { s.executed [c] (max s.lastSeq seq) with outbox, backfilled } := by
  unfold step at h
  split at h
  · cases h
  next seq c hdecode =>
  refine ⟨seq, c, hdecode, ?_⟩
  dsimp only at h
  split at h
  · cases h
    exact ⟨_, _, rfl⟩
  split at h
  · cases h
  · cases h
    exact ⟨_, _, rfl⟩

/-- From one rebuild to another all of some records were commands, and they were executed. -/
structure Replays (f : Format) (records : List Log.Record) (s s' : Rebuild) : Prop where
  book : s'.book = s.book.executeAll ((decoded f records).map Prod.snd)
  lastSeq_le : s.lastSeq ≤ s'.lastSeq
  numbered : ∀ r ∈ records, ∃ seq c, f.decodeCommand r.payload = .ok (seq, c) ∧ seq ≤ s'.lastSeq
  replayed : s'.replayed = s.replayed + records.length

theorem replays_of_forEach {s s' : Rebuild} {records : List Log.Record}
    (h : Attempt.forEach (step f complete) s records = (s', .ok ())) :
    Replays f records s s' := by
  induction records generalizing s with
  | nil =>
    cases h
    exact ⟨rfl, UInt64.le_refl _, fun r hr => (by cases hr), rfl⟩
  | cons first rest ih =>
    rw [Attempt.forEach_cons] at h
    rcases hstep : step f complete s first with ⟨s₁, e | _⟩
    · rw [hstep] at h
      cases h
    rw [hstep] at h
    have hrest := ih h
    obtain ⟨seq, c, hdecode, outbox, backfilled, rfl⟩ := step_ok hstep
    obtain ⟨hbefore, hseq⟩ := le_max_seq s.lastSeq seq
    refine ⟨?_, UInt64.le_trans hbefore hrest.lastSeq_le, fun r hr => ?_, ?_⟩
    · rw [hrest.book, decoded_cons hdecode]
      rfl
    · rcases List.mem_cons.1 hr with rfl | hr
      · exact ⟨seq, c, hdecode, UInt64.le_trans hseq hrest.lastSeq_le⟩
      · exact hrest.numbered r hr
    · rw [hrest.replayed, List.length_cons]
      show s.replayed + 1 + rest.length = _
      omega

/-- Executing commands silently. -/
theorem forEach_silent {records : List Log.Record}
    (h : ∀ r ∈ records, ∃ seq c, f.decodeCommand r.payload = .ok (seq, c) ∧ seq ≤ complete)
    (s : Rebuild) (hs : s.lastSeq = complete) :
    Attempt.forEach (step f complete) s records =
      (s.executed ((decoded f records).map Prod.snd) complete, .ok ()) := by
  induction records generalizing s with
  | nil =>
    subst hs
    rfl
  | cons r rest ih =>
    obtain ⟨seq, c, hdecode, hseq⟩ := h r List.mem_cons_self
    have hmax : max s.lastSeq seq = complete := by
      rw [hs]
      exact max_eq_left hseq
    rw [Attempt.forEach_cons, step_silent hdecode hseq, hmax, decoded_cons hdecode]
    show Attempt.forEach _ (s.executed [c] complete) rest = _
    rw [ih (fun r hr => h r (List.mem_cons_of_mem _ hr)) (s.executed [c] complete) rfl]
    simp [executed, Nat.add_assoc, Nat.add_comm 1]

theorem replay_silent {last : Seq} {cs : List Command} (s : Rebuild) (hs : s.lastSeq = complete)
    (hc : ∀ entry ∈ Actor.number last cs, entry.1 ≤ complete) (start : Nat) :
    Attempt.forEach (step f complete) s (commandRecords f start (Actor.number last cs)) =
      (s.executed cs complete, .ok ()) := by
  have hall : ∀ r ∈ commandRecords f start (Actor.number last cs), ∃ seq c,
      f.decodeCommand r.payload = .ok (seq, c) ∧ seq ≤ complete := by
    intro r hr
    have hp := List.mem_map_of_mem (f := Log.Record.payload) hr
    rw [commandRecords, Log.map_payload_recordsFrom] at hp
    obtain ⟨entry, he, hencode⟩ := List.mem_map.1 hp
    exact ⟨entry.1, entry.2, hencode ▸ Format.decodeCommand_encodeCommand .., hc entry he⟩
  rw [forEach_silent hall s hs, decoded_commandRecords, Actor.map_snd_number]

/-- The next sequence number, when there is one. -/
theorem toNat_succ {last : Seq} {n : Nat} (h : last.toNat + (n + 1) < UInt64.size) :
    (last + 1).toNat = last.toNat + 1 := by
  rw [UInt64.toNat_add]
  exact Nat.mod_eq_of_lt (by
    show last.toNat + 1 < UInt64.size
    omega)

theorem lt_succ {last : Seq} {n : Nat} (h : last.toNat + (n + 1) < UInt64.size) :
    last < last + 1 := by
  rw [UInt64.lt_iff_toNat_lt, toNat_succ h]
  exact Nat.lt_succ_self _

/-- There are as many numbers left as before but one. -/
theorem room_succ {last : Seq} {n : Nat} (h : last.toNat + (n + 1) < UInt64.size) :
    (last + 1).toNat + n < UInt64.size := by
  rw [toNat_succ h]
  omega

/-- What becomes of a rebuild that executes commands with their events: those that the journal has for
them are added to the outbox, and it fails exactly if one of them is too large. -/
structure Loud (f : Format) (s : Rebuild) (bytes : Bytes) (cs : List Command) (s' : Rebuild)
    (result : Except RecoveryError Unit) : Prop where
  outbox : s'.outbox.1.Holds s'.outbox.2
    (bytes ++ Journal.eventBytes f (Journal.events s.book (Actor.number s.lastSeq cs)))
  done : s.book.Modest cs → result = .ok () ∧ s'.book = s.book.executeAll cs ∧
    s'.lastSeq = s.lastSeq + UInt64.ofNat cs.length ∧ s'.replayed = s.replayed + cs.length ∧
    s'.backfilled = s.backfilled + cs.length
  refused : ¬ s.book.Modest cs → result = .error (.log .tooManyEvents)

theorem Loud.nil {s : Rebuild} {bytes : Bytes} (h : s.outbox.1.Holds s.outbox.2 bytes) :
    Loud f s bytes [] s (.ok ()) where
  outbox := by simpa using h
  done := fun _ => ⟨rfl, rfl, by simp, rfl, rfl⟩
  refused := fun hnot => absurd trivial hnot

/-- The first command is executed with its events, and then the others. -/
theorem Loud.cons {s s' : Rebuild} {bytes : Bytes} {c : Command} {rest : List Command}
    {out : Log.Writer × File} {result : Except RecoveryError Unit}
    (hle : (s.book.execute c).2.length ≤ maxEvents)
    (h : Loud f
      { s.executed [c] (s.lastSeq + 1) with outbox := out, backfilled := s.backfilled + 1 }
      (bytes ++ Journal.eventBytes f (Journal.group s.book (s.lastSeq + 1, c))) rest s' result) :
    Loud f s bytes (c :: rest) s' result := by
  refine ⟨?_, fun hm => ?_, fun hnot => h.refused fun hm => hnot ⟨hle, hm⟩⟩
  · rw [Journal.events_cons_of_le hle, Journal.eventBytes_append, ← List.append_assoc]
    exact h.outbox
  · obtain ⟨hr, hbook, hseq, hreplayed, hback⟩ := h.done hm.2
    refine ⟨hr, hbook, ?_, ?_, ?_⟩
    · rw [hseq]
      exact Actor.succ_add_ofNat s.lastSeq rest.length
    · rw [hreplayed, List.length_cons]
      show s.replayed + 1 + rest.length = _
      omega
    · rw [hback, List.length_cons]
      show s.backfilled + 1 + rest.length = _
      omega

/-- The first command has too many events: the first ones are in the outbox. -/
theorem Loud.stopped {s s' : Rebuild} {bytes : Bytes} {c : Command} (rest : List Command)
    (hlt : maxEvents < (s.book.execute c).2.length)
    (h : s'.outbox.1.Holds s'.outbox.2
      (bytes ++ Journal.eventBytes f (Journal.group s.book (s.lastSeq + 1, c)))) :
    Loud f s bytes (c :: rest) s' (.error (.log .tooManyEvents)) where
  outbox := by rwa [Journal.events_cons_of_lt hlt]
  done := fun hm => absurd hm.1 (Nat.not_le.2 hlt)
  refused := fun _ => rfl

/-- Executing commands with their events. -/
theorem replay_loud {cs : List Command} {s : Rebuild} {bytes : Bytes}
    (h : s.outbox.1.Holds s.outbox.2 bytes) (hc : complete ≤ s.lastSeq)
    (hnum : s.lastSeq.toNat + cs.length < UInt64.size) (start : Nat) :
    ∃ s' result, Attempt.forEach (step f complete) s
        (commandRecords f start (Actor.number s.lastSeq cs)) = (s', result) ∧
      Loud f s bytes cs s' result := by
  induction cs generalizing s bytes start with
  | nil => exact ⟨s, .ok (), rfl, .nil h⟩
  | cons c rest ih =>
    have hnext := lt_succ hnum
    have hmax := max_eq_right (UInt64.le_of_lt hnext)
    have hloud : ¬ s.lastSeq + 1 ≤ complete := UInt64.not_le.2 (UInt64.lt_of_le_of_lt hc hnext)
    rw [commandRecords_cons, Attempt.forEach_cons]
    obtain ⟨out, hout, hstep⟩ := step_loud
      (r := ⟨f.encodeCommand (s.lastSeq + 1) c,
        start + Log.headerSize + (f.encodeCommand (s.lastSeq + 1) c).length⟩)
      (Format.decodeCommand_encodeCommand f (s.lastSeq + 1) c) hloud h
    by_cases hle : (s.book.execute c).2.length ≤ maxEvents
    · rw [if_pos hle, hmax] at hstep
      have hcomplete := UInt64.le_trans hc (UInt64.le_of_lt hnext)
      obtain ⟨s', result, hrun, hrest⟩ :=
        ih (s := { s.executed [c] (s.lastSeq + 1) with
            outbox := out, backfilled := s.backfilled + 1 })
          hout hcomplete (room_succ hnum)
          (start + Log.headerSize + (f.encodeCommand (s.lastSeq + 1) c).length)
      refine ⟨s', result, ?_, hrest.cons hle⟩
      rw [hstep]
      exact hrun
    · rw [if_neg hle] at hstep
      rw [hstep]
      exact ⟨_, _, rfl, .stopped rest (Nat.lt_of_not_le hle) hout⟩

/-- The rebuild with which a replay begins when the outbox holds `complete` closed commands. -/
def start (fresh : Book) (out : Log.Writer × File) (complete : Nat) : Rebuild :=
  { book := fresh, outbox := out, lastSeq := UInt64.ofNat complete }

theorem toNat_ofNat_of_lt {n : Nat} (h : n < UInt64.size) : (UInt64.ofNat n : Seq).toNat = n := by
  rw [UInt64.toNat_ofNat']
  exact Nat.mod_eq_of_lt h

theorem le_of_mem_number {cs : List Command} (h : cs.length < UInt64.size) {entry : Seq × Command}
    (he : entry ∈ Actor.number 0 cs) : entry.1 ≤ UInt64.ofNat cs.length := by
  obtain ⟨i, hi⟩ := List.mem_iff_getElem?.1 he
  rw [Actor.getElem?_number, Option.map_eq_some_iff] at hi
  obtain ⟨c, hc, rfl⟩ := hi
  have hlt : i < cs.length := (List.getElem?_eq_some_iff.1 hc).1
  rw [UInt64.le_iff_toNat_le, UInt64.zero_add, toNat_ofNat_of_lt h, toNat_ofNat_of_lt (by omega)]
  omega

/-- Commands of which the outbox holds the first ones: the rest of the events is added, and it
fails exactly if one of the commands is too large. -/
theorem replay_all {fresh : Book} {cs : List Command} {k : Nat} (hk : k ≤ cs.length)
    (hnum : cs.length < UInt64.size) (hm : fresh.Modest (cs.take k)) (out : Log.Writer × File)
    (h : out.1.Holds out.2 (Journal.outboxBytes f fresh (cs.take k))) :
    ∃ s' result, Attempt.forEach (step f (UInt64.ofNat k)) (start fresh out k)
        (commandRecords f 0 (Actor.number 0 cs)) = (s', result) ∧
      s'.outbox.1.Holds s'.outbox.2 (Journal.outboxBytes f fresh cs) ∧
      (fresh.Modest cs → result = .ok () ∧ s'.book = fresh.executeAll cs ∧
        s'.lastSeq = UInt64.ofNat cs.length ∧ s'.replayed = cs.length ∧
        s'.backfilled = cs.length - k) ∧
      (¬ fresh.Modest cs → result = .error (.log .tooManyEvents)) := by
  have htake : (cs.take k).length = k := by rw [List.length_take]; omega
  have hdrop : (cs.drop k).length = cs.length - k := List.length_drop
  have hentries : Actor.number 0 cs =
      Actor.number 0 (cs.take k) ++ Actor.number (UInt64.ofNat k) (cs.drop k) := by
    conv => lhs; rw [← List.take_append_drop k cs]
    rw [Actor.number_append, htake, UInt64.zero_add]
  have hold : ∀ entry ∈ Actor.number 0 (cs.take k), entry.1 ≤ UInt64.ofNat k := by
    intro entry he
    have := le_of_mem_number (by omega) he
    rwa [htake] at this
  have hsilent := replay_silent (f := f) (start fresh out k) rfl hold 0
  have hwithin : (UInt64.ofNat k : Seq).toNat + (cs.drop k).length < UInt64.size := by
    rw [toNat_ofNat_of_lt (by omega)]
    omega
  obtain ⟨s', result, hrun, hout, hok, hrefused⟩ :=
    replay_loud (s := (start fresh out k).executed (cs.take k) (UInt64.ofNat k)) h
      (UInt64.le_refl _) hwithin
      (0 + (Log.frames (Journal.payloads f (Actor.number 0 (cs.take k)))).length)
  refine ⟨s', result, ?_, ?_, ?_, ?_⟩
  · rw [hentries, commandRecords_append, Attempt.forEach_append]
    show Attempt.andThen (Attempt.forEach (step f (start fresh out k).lastSeq) _ _) _ = _
    rw [hsilent]
    exact hrun
  · rw [Journal.outboxBytes, hentries, Journal.events_append hm, Journal.eventBytes_append]
    exact hout
  · intro hall
    have hrest : (fresh.executeAll (cs.take k)).Modest (cs.drop k) := by
      rw [← List.take_append_drop k cs] at hall
      exact (Book.modest_append.1 hall).2
    obtain ⟨hr, hbook, hseq, hreplayed, hback⟩ := hok hrest
    refine ⟨hr, ?_, ?_, ?_, ?_⟩
    · rw [hbook]
      show (fresh.executeAll (cs.take k)).executeAll (cs.drop k) = _
      rw [← Book.executeAll_append, List.take_append_drop]
    · rw [hseq, hdrop]
      show UInt64.ofNat k + UInt64.ofNat (cs.length - k) = _
      rw [← UInt64.ofNat_add]
      congr 1
      omega
    · rw [hreplayed, hdrop]
      show 0 + (cs.take k).length + (cs.length - k) = _
      omega
    · rw [hback, hdrop]
      show 0 + (cs.length - k) = _
      omega
  · intro hnot
    refine hrefused fun h => hnot ?_
    rw [← List.take_append_drop k cs]
    exact Book.modest_append.2 ⟨hm, h⟩

end Bourse.Recovery.Rebuild
