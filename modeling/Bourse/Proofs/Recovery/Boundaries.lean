import Mathlib.Data.List.Induction
import Bourse.Proofs.Recovery.Reopening

/-!
# Where a repair cuts an outbox

An outbox may hold any bytes, also such that nobody wrote as events. A repair reads it record by
record and remembers where the last record ended that closes a command (`Repair.Finds`). If it can
read all there is, up to less than a record, it cuts the file there; if anything else is found,
wherever that is, it cuts nothing: `repair_cuts_or_keeps`.
-/

namespace Bourse

namespace Log

/-- Less than a record, as it is left when the writing of a record is cut short: not all of a
header, or a header that a reader accepts and not all of the payload that it announces. -/
def Incomplete (limit : Nat) (rest : Bytes) : Prop :=
  rest.length < headerSize ∨
    Bytes.value (rest.take 4) ≤ limit ∧
      rest.length < headerSize + Bytes.value (rest.take 4)

instance (limit : Nat) (rest : Bytes) : Decidable (Incomplete limit rest) :=
  inferInstanceAs (Decidable (_ ∨ _ ∧ _))

/-- A header alone is incomplete, unless it announces more than a reader accepts. -/
example : Incomplete 5 [5, 0, 0, 0, 0, 0, 0, 0] ∧ ¬ Incomplete 4 [5, 0, 0, 0, 0, 0, 0, 0] := by
  decide

variable {limit start : Nat} {rest : Bytes}

/-- A tolerant reader accepts a log that goes on with less than a record. -/
theorem Incomplete.verdict (h : Incomplete limit rest) (start : Nat) :
    verdict limit true start rest = .ok (!rest.isEmpty) := by
  unfold Log.verdict
  by_cases hnil : rest = []
  · rw [if_pos hnil, hnil]
    rfl
  · have hsome : (!rest.isEmpty) = true := by simp [hnil]
    rw [if_neg hnil, hsome]
    rcases h with hshort | ⟨hlimit, hshort⟩
    · rw [if_pos hshort]
      rfl
    · by_cases hheader : rest.length < headerSize
      · rw [if_pos hheader]
        rfl
      · rw [if_neg hheader, if_neg (by omega), if_pos (by omega)]
        rfl

/-- It accepts nothing else behind the last record. -/
theorem verdict_of_not_incomplete (h : ¬ Incomplete limit rest) (start : Nat) :
    ∃ e, verdict limit true start rest = .error e := by
  obtain ⟨hheader, hpayload⟩ := not_or.1 h
  have hnil : rest ≠ [] := by
    rintro rfl
    exact hheader (by decide)
  unfold Log.verdict
  rw [if_neg hnil, if_neg hheader]
  by_cases hlimit : limit < Bytes.value (rest.take 4)
  · rw [if_pos hlimit]
    exact ⟨_, rfl⟩
  · have hwhole : ¬ rest.length - headerSize < Bytes.value (rest.take 4) := by
      intro hlt
      exact hpayload ⟨Nat.le_of_not_lt hlimit, by omega⟩
    rw [if_neg hlimit, if_neg hwhole]
    exact ⟨_, rfl⟩

end Log

namespace Recovery

variable {f : Format} {s : Repair} {front back ps : List Bytes}

/-- What a repair has found in the payloads `front ++ back`, all of which are events: `front` ends
with the last event that closes a command, and is empty if there is none. -/
structure Repair.Finds (f : Format) (front back : List Bytes) (s : Repair) : Prop where
  closed : (front = [] ∧ s.lastSeq = 0) ∨ ∃ init p e, front = init ++ [p] ∧
    f.decodeEvent p = .ok e ∧ e.isCommandEnd = true ∧ s.lastSeq = e.seq
  dangling : ∀ p ∈ back, ∃ e, f.decodeEvent p = .ok e ∧ e.isCommandEnd = false
  boundary : s.boundary = (Log.frames front).length
  records : s.records = front.length + back.length

namespace Repair.Finds

theorem start : ({} : Repair).Finds f [] [] where
  closed := Or.inl ⟨rfl, rfl⟩
  dangling p hp := by cases hp
  boundary := rfl
  records := rfl

/-- An event that closes a command makes all that was read so far part of the front. -/
theorem close (h : s.Finds f front back) {p : Bytes} {e : Event}
    (he : f.decodeEvent p = .ok e) (hend : e.isCommandEnd = true) :
    ∃ s', Repair.note f s
        ⟨p, (Log.frames (front ++ back)).length + Log.headerSize + p.length⟩ = (s', .ok ()) ∧
      s'.Finds f (front ++ back ++ [p]) [] := by
  refine ⟨_, by rw [Repair.note, he], ?_⟩
  dsimp only
  rw [if_pos hend]
  exact
    { closed := Or.inr ⟨_, p, e, rfl, he, hend, rfl⟩
      dangling := fun q hq => (by cases hq)
      boundary := by simp [Log.frames_append, Nat.add_assoc]
      records := by simp [h.records, Nat.add_assoc] }

/-- Any other event is left behind the boundary for now. -/
theorem dangle (h : s.Finds f front back) {p : Bytes} {e : Event}
    (he : f.decodeEvent p = .ok e) (hopen : e.isCommandEnd = false) (stop : Nat) :
    ∃ s', Repair.note f s ⟨p, stop⟩ = (s', .ok ()) ∧ s'.Finds f front (back ++ [p]) := by
  refine ⟨{ s with records := s.records + 1 }, by simp [Repair.note, he, hopen], ?_⟩
  exact
    { closed := h.closed
      dangling := by
        intro q hq
        rcases List.mem_append.1 hq with hq | hq
        · exact h.dangling q hq
        · rw [List.mem_singleton.1 hq]
          exact ⟨e, he, hopen⟩
      boundary := h.boundary
      records := by simp [h.records, Nat.add_assoc] }

/-- What was found does not depend on the number of bytes that are cut off for it. -/
theorem cutting (h : s.Finds f front back) (n : Nat) : { s with cut := n }.Finds f front back where
  closed := h.closed
  dangling := h.dangling
  boundary := h.boundary
  records := h.records

/-- The payloads up to the boundary have the same boundary, and there is nothing behind it. -/
theorem of_front {s' : Repair} {front' back' : List Bytes} (h : s.Finds f front back)
    (h' : s'.Finds f front' back') (heq : front = front' ++ back') :
    front' = front ∧ s'.lastSeq = s.lastSeq := by
  have hback : back' = [] := by
    rcases List.eq_nil_or_concat back' with hnil | ⟨init, p, rfl⟩
    · exact hnil
    · -- The last payload would close a command and would not.
      obtain ⟨e, he, hopen⟩ := h'.dangling p (by simp)
      rcases h.closed with ⟨hnil, -⟩ | ⟨before, q, d, hfront, hd, hend, -⟩
      · rw [heq] at hnil
        simp at hnil
      · rw [heq, List.concat_eq_append, ← List.append_assoc] at hfront
        obtain ⟨-, hlast⟩ := List.append_inj' hfront rfl
        cases hlast
        rw [he] at hd
        cases hd
        rw [hopen] at hend
        cases hend
  rw [hback, List.append_nil] at heq
  subst heq
  refine ⟨rfl, ?_⟩
  rcases h.closed with ⟨hnil, hseq⟩ | ⟨init, p, e, hfront, he, -, hseq⟩
  · rcases h'.closed with ⟨-, hseq'⟩ | ⟨init, p, e, hfront, -⟩
    · rw [hseq, hseq']
    · rw [hnil] at hfront
      simp at hfront
  · rcases h'.closed with ⟨hnil, -⟩ | ⟨init', p', e', hfront', he', -, hseq'⟩
    · rw [hnil] at hfront
      simp at hfront
    · rw [hfront] at hfront'
      obtain ⟨-, hlast⟩ := List.append_inj' hfront' rfl
      cases hlast
      rw [he] at he'
      cases he'
      rw [hseq, hseq']

end Repair.Finds

/-! ## All records of an outbox -/

/-- Payloads that are all events are read to their end. -/
theorem exists_finds (h : ∀ p ∈ ps, ∃ e, f.decodeEvent p = .ok e) :
    ∃ s front back,
      Attempt.forEach (Repair.note f) {} (Log.recordsFrom 0 ps) = (s, .ok ()) ∧
        ps = front ++ back ∧ s.Finds f front back := by
  induction ps using List.reverseRecOn with
  | nil => exact ⟨{}, [], [], rfl, rfl, .start⟩
  | append_singleton init p ih =>
    obtain ⟨s, front, back, hrun, rfl, hfinds⟩ :=
      ih fun q hq => h q (List.mem_append_left _ hq)
    obtain ⟨e, he⟩ := h p (List.mem_append_right _ List.mem_cons_self)
    have hnext : Attempt.forEach (Repair.note f) {} (Log.recordsFrom 0 (front ++ back ++ [p])) =
        (Repair.note f s
          ⟨p, (Log.frames (front ++ back)).length + Log.headerSize + p.length⟩).andThen
            fun s _ => (s, .ok ()) := by
      rw [Log.recordsFrom_append, Attempt.forEach_append, hrun, Nat.zero_add]
      show Attempt.forEach _ s [_] = _
      rw [Attempt.forEach_cons]
      rfl
    cases hend : e.isCommandEnd with
    | true =>
      obtain ⟨s', hnote, hfinds'⟩ := hfinds.close he hend
      refine ⟨s', front ++ back ++ [p], [], ?_, (List.append_nil _).symm, hfinds'⟩
      rw [hnext, hnote]
      rfl
    | false =>
      obtain ⟨s', hnote, hfinds'⟩ := hfinds.dangle he hend _
      refine ⟨s', front, back ++ [p], ?_, List.append_assoc .., hfinds'⟩
      rw [hnext, hnote]
      rfl

/-- A payload that is no event ends the reading. -/
theorem forEach_note_undecodable {records : List Log.Record}
    (h : ∃ r ∈ records, ∀ e, f.decodeEvent r.payload ≠ .ok e) (s : Repair) :
    ∃ e, (Attempt.forEach (Repair.note f) s records).2 = .error e := by
  obtain ⟨r, hr, hnone⟩ := h
  induction records generalizing s with
  | nil => cases hr
  | cons first rest ih =>
    rw [Attempt.forEach_cons]
    rcases List.mem_cons.1 hr with rfl | hr
    · cases hdecode : f.decodeEvent r.payload with
      | ok e => exact absurd hdecode (hnone e)
      | error cause =>
        rw [Repair.note, hdecode]
        exact ⟨_, rfl⟩
    · rcases Repair.note f s first with ⟨s', e | _⟩
      · exact ⟨e, rfl⟩
      · exact ih s' hr

/-- If the reading comes to its end, all payloads are events. -/
theorem events_of_forEach
    (h : Attempt.forEach (Repair.note f) {} (Log.recordsFrom 0 ps) = (s, .ok ())) :
    ∀ p ∈ ps, ∃ e, f.decodeEvent p = .ok e := by
  intro p hp
  by_contra hno
  rw [← Log.map_payload_recordsFrom 0 ps] at hp
  obtain ⟨r, hr, rfl⟩ := List.mem_map.1 hp
  obtain ⟨e, he⟩ := forEach_note_undecodable ⟨r, hr, fun e he => hno ⟨e, he⟩⟩ ({} : Repair)
  rw [h] at he
  cases he

/-- It has then found the last boundary. -/
theorem finds_of_forEach
    (h : Attempt.forEach (Repair.note f) {} (Log.recordsFrom 0 ps) = (s, .ok ())) :
    ∃ front back, ps = front ++ back ∧ s.Finds f front back := by
  obtain ⟨s', front, back, hrun, hsplit, hfinds⟩ := exists_finds (events_of_forEach h)
  rw [h] at hrun
  cases hrun
  exact ⟨front, back, hsplit, hfinds⟩

/-! ## The repair -/

section

variable {maxPayload : Nat} {b rest : Bytes}

/-- An outbox that can be read up to less than a record is cut at its boundary. -/
theorem repair_parsed (hparsed : Log.Parsed (readOptions maxPayload).limit b ps rest)
    (hevents : ∀ p ∈ ps, ∃ e, f.decodeEvent p = .ok e)
    (hrest : Log.Incomplete (readOptions maxPayload).limit rest) :
    ∃ front back found, ps = front ++ back ∧ Repair.Finds f front back found ∧
      found.cut = b.length - (Log.frames front).length ∧
      repair f maxPayload (.ofBytes b) = (.ofBytes (Log.frames front), .ok found) := by
  obtain ⟨s, front, back, hrun, rfl, hfinds⟩ := exists_finds hevents
  have hnone := Log.Frame.isRecord_eq_false_iff.2 hparsed.maximal
  have hreplay := Log.replay_frames (o := readOptions maxPayload) (File.usable_ofBytes b)
    ((File.bytes_ofBytes b).trans hparsed.bytes) hparsed.fits hnone RecoveryError.log
    (Repair.note f) {}
  rw [Log.ending_eq_verdict (o := readOptions maxPayload) hnone, hrun,
    show (readOptions maxPayload).tolerant = true from rfl, hrest.verdict] at hreplay
  have hcut : (File.ofBytes b).truncate s.boundary = .ofBytes (Log.frames front) := by
    refine File.eq_of_bytes_eq rfl rfl ?_
    rw [File.bytes_truncate, File.bytes_ofBytes, File.bytes_ofBytes, hfinds.boundary,
      hparsed.bytes, Log.frames_append, List.append_assoc, List.take_left]
  refine ⟨front, back, { s with cut := (File.ofBytes b).size - s.boundary }, rfl,
    hfinds.cutting _, ?_, ?_⟩
  · rw [← hfinds.boundary, ← File.length_bytes, File.bytes_ofBytes]
  · exact repair_eq_ok_iff.2 ⟨s, _, hreplay, hcut.symm, rfl⟩

/-- Anything else in an outbox makes the repair fail. -/
theorem repair_unsound (hparsed : Log.Parsed (readOptions maxPayload).limit b ps rest)
    (h : ¬ ((∀ p ∈ ps, ∃ e, f.decodeEvent p = .ok e) ∧
      Log.Incomplete (readOptions maxPayload).limit rest)) :
    ∃ e, repair f maxPayload (.ofBytes b) = (.ofBytes b, .error e) := by
  have hnone := Log.Frame.isRecord_eq_false_iff.2 hparsed.maximal
  have hreplay := Log.replay_frames (o := readOptions maxPayload) (File.usable_ofBytes b)
    ((File.bytes_ofBytes b).trans hparsed.bytes) hparsed.fits hnone RecoveryError.log
    (Repair.note f) {}
  rw [Log.ending_eq_verdict (o := readOptions maxPayload) hnone] at hreplay
  have herror : ∃ s e, Log.replay (readOptions maxPayload) (.ofBytes b) RecoveryError.log
      (Repair.note f) {} = (s, .error e) := by
    rw [hreplay]
    rcases hrun : Attempt.forEach (Repair.note f) {} (Log.recordsFrom 0 ps) with ⟨s, e | _⟩
    · exact ⟨s, e, rfl⟩
    · -- All records were read, so it is what follows them.
      obtain ⟨e, he⟩ := Log.verdict_of_not_incomplete
        (fun hrest => h ⟨events_of_forEach hrun, hrest⟩) (Log.frames ps).length
      refine ⟨s, .log e, ?_⟩
      show (s, Except.map _ (Except.mapError _ (Log.verdict _ true _ rest))) = _
      rw [he]
      rfl
  obtain ⟨s, e, he⟩ := herror
  exact ⟨e, repair_eq_error_iff.2 ⟨rfl, s, he⟩⟩

end

/-- **A repair cuts an outbox at its last boundary, or touches nothing.** Whatever bytes an outbox
holds, there is one way to read them as records with something behind the last one. If all records
are events, and less than a record stands behind them, then the repair succeeds. The file then ends
with the last event that closes a command, and is empty if there is none. The repair reports the
number of that command, where it ends, how many records it has read, and how many bytes are gone.
Another repair finds the same boundary and cuts nothing. In every other case, wherever a record is
damaged, too long or no event, the repair fails and the file is as it was. -/
theorem repair_cuts_or_keeps (f : Format) (maxPayload : Nat) (b : Bytes) :
    ∃ ps rest, Log.Parsed (readOptions maxPayload).limit b ps rest ∧
      (∀ ps' rest', Log.Parsed (readOptions maxPayload).limit b ps' rest' →
        ps' = ps ∧ rest' = rest) ∧
      ((∀ p ∈ ps, ∃ e, f.decodeEvent p = .ok e) ∧
          Log.Incomplete (readOptions maxPayload).limit rest →
        ∃ front back found again,
          ps = front ++ back ∧
          repair f maxPayload (.ofBytes b) = (.ofBytes (Log.frames front), .ok found) ∧
          found.Finds f front back ∧ found.cut = b.length - (Log.frames front).length ∧
          repair f maxPayload (.ofBytes (Log.frames front)) =
            (.ofBytes (Log.frames front), .ok again) ∧
          again.lastSeq = found.lastSeq ∧ again.boundary = found.boundary ∧ again.cut = 0) ∧
      (¬ ((∀ p ∈ ps, ∃ e, f.decodeEvent p = .ok e) ∧
          Log.Incomplete (readOptions maxPayload).limit rest) →
        ∃ e, repair f maxPayload (.ofBytes b) = (.ofBytes b, .error e)) := by
  obtain ⟨ps, rest, hparsed⟩ := Log.exists_parsed (readOptions maxPayload).limit b
  refine ⟨ps, rest, hparsed, fun _ _ h => hparsed.unique h, ?_, repair_unsound hparsed⟩
  rintro ⟨hevents, hrest⟩
  obtain ⟨front, back, found, rfl, hfinds, hcut, hrepair⟩ := repair_parsed hparsed hevents hrest
  have hfits : ∀ p ∈ front, Log.Fits (readOptions maxPayload).limit p :=
    fun p hp => hparsed.fits p (List.mem_append_left _ hp)
  obtain ⟨front', back', again, heq, hagain, hcut', hrepair'⟩ :=
    repair_parsed (f := f) (Log.parsed_frames hfits)
      (fun p hp => hevents p (List.mem_append_left _ hp)) (Or.inl (by decide))
  obtain ⟨rfl, hseq⟩ := hfinds.of_front hagain heq
  refine ⟨front', back, found, again, rfl, hrepair, hfinds, hcut, hrepair', hseq, ?_, ?_⟩
  · rw [hagain.boundary, hfinds.boundary]
  · rw [hcut', Nat.sub_self]

end Recovery

end Bourse
