import Bourse.Proofs.Log.Scanning

/-!
# Every byte string is a log in one way

A file may hold any bytes, also bytes that nobody wrote as records. `Parsed` says that a byte string
is made of frames that a reader accepts and of a rest at which no such frame begins. There is exactly
one such reading (`exists_parsed`, `Parsed.unique`), and a replay finds it: it hands out these frames
and then judges the rest by the `verdict`, which looks at nothing else.
-/

namespace Bourse.Log

/-! ## Where a record stands -/

namespace Frame

/-- What was checked of a header when a record is found behind it. -/
theorem checked_of_judge {limit : Nat} {header payload rest p r : Bytes}
    (h : judge limit header payload rest = record p r) :
    announced header ≤ limit ∧ (crc32 payload).toNat = Bytes.value (header.drop 4) := by
  unfold judge at h
  split at h
  · cases h
  split at h
  · cases h
  split at h
  · cases h
  next hlimit =>
  split at h
  · cases h
  split at h
  · cases h
  next hsum =>
  exact ⟨Nat.le_of_not_lt hlimit, Decidable.of_not_not hsum⟩

/-- The two halves of a header are determined by the numbers that they stand for. -/
theorem eq_of_header {header : Bytes} (hlen : header.length = headerSize) :
    header = Bytes.ofNat 4 (announced header) ++ Bytes.ofNat 4 (Bytes.value (header.drop 4)) := by
  have htake : (header.take 4).length = 4 := by
    rw [List.length_take, hlen]
    rfl
  have hdrop : (header.drop 4).length = 4 := by
    rw [List.length_drop, hlen]
    rfl
  have hfirst := Bytes.ofNat_value (header.take 4)
  have hsecond := Bytes.ofNat_value (header.drop 4)
  rw [htake] at hfirst
  rw [hdrop] at hsecond
  rw [announced, hfirst, hsecond, List.take_append_drop]

/-- A record stands exactly where the frame of a payload stands that a reader accepts. -/
theorem parse_eq_record_iff {limit : Nat} {b payload rest : Bytes} :
    parse limit b = record payload rest ↔ b = frame payload ++ rest ∧ Fits limit payload := by
  constructor
  · intro h
    obtain ⟨hlimit, hsum⟩ := checked_of_judge h
    obtain ⟨hheader, hbody, hpayload, hrest⟩ := judge_eq_record h
    have hsize : (b.take headerSize).length = headerSize :=
      Nat.le_antisymm (List.length_take_le ..) hheader
    have hmax : announced (b.take headerSize) < Bytes.capacity 4 := by
      have hlt := Bytes.value_lt ((b.take headerSize).take 4)
      rwa [List.length_take, hsize] at hlt
    have hmore : b.drop headerSize = payload ++ rest := by
      rw [hpayload, hrest, List.take_append_drop]
    have hlen : announced (b.take headerSize) = payload.length := by
      rw [hpayload]
      exact Nat.le_antisymm hbody (List.length_take_le ..)
    rw [← hpayload] at hsum
    rw [hlen] at hlimit hmax
    refine ⟨?_, hlimit, Nat.le_of_lt_succ hmax⟩
    calc b = b.take headerSize ++ b.drop headerSize := (List.take_append_drop ..).symm
      _ = b.take headerSize ++ (payload ++ rest) := by rw [hmore]
      _ = frame payload ++ rest := by
        rw [eq_of_header hsize, hlen, ← hsum, ← List.append_assoc, frame]
  · rintro ⟨rfl, hl, hm⟩
    exact parse_frame hl hm rest

/-- There is no record where no frame begins that a reader accepts. -/
theorem isRecord_eq_false_iff {limit : Nat} {b : Bytes} :
    (parse limit b).isRecord = false ↔ ∀ p, Fits limit p → ¬ frame p <+: b := by
  constructor
  · rintro h p hp ⟨rest, rfl⟩
    rw [parse_eq_record_iff.2 ⟨rfl, hp⟩] at h
    cases h
  · intro h
    cases hparse : parse limit b with
    | record p rest =>
      obtain ⟨rfl, hp⟩ := parse_eq_record_iff.1 hparse
      exact absurd (List.prefix_append ..) (h p hp)
    | _ => rfl

end Frame

/-! ## The one way to read a byte string -/

/-- How a byte string is read as a log: `ps` are the payloads of its records, and `rest` is what is
left of it where no record stands any more. -/
structure Parsed (limit : Nat) (b : Bytes) (ps : List Bytes) (rest : Bytes) : Prop where
  bytes : b = frames ps ++ rest
  fits : ∀ p ∈ ps, Fits limit p
  maximal : ∀ p, Fits limit p → ¬ frame p <+: rest

variable {limit : Nat} {b : Bytes}

/-- Records in front of a byte string are its first ones. -/
theorem Parsed.append {ps qs : List Bytes} {rest : Bytes} (hps : ∀ p ∈ ps, Fits limit p)
    (h : Parsed limit b qs rest) : Parsed limit (frames ps ++ b) (ps ++ qs) rest where
  bytes := by rw [frames_append, List.append_assoc, ← h.bytes]
  fits := List.forall_mem_append.2 ⟨hps, h.fits⟩
  maximal := h.maximal

theorem Parsed.cons {p rest : Bytes} {ps : List Bytes} (hp : Fits limit p)
    (h : Parsed limit b ps rest) : Parsed limit (frame p ++ b) (p :: ps) rest := by
  have hone : Parsed limit (frames [p] ++ b) ([p] ++ ps) rest :=
    h.append (List.forall_mem_singleton.2 hp)
  rwa [frames_cons, frames_nil, List.append_nil] at hone

/-- Every byte string can be read. Each record takes up a header at least, so this ends. -/
theorem exists_parsed (limit : Nat) (b : Bytes) : ∃ ps rest, Parsed limit b ps rest := by
  induction hn : b.length using Nat.strongRecOn generalizing b with
  | ind n ih =>
    cases hrecord : (Frame.parse limit b).isRecord with
    | false => exact ⟨[], b, rfl, fun p hp => (by cases hp), Frame.isRecord_eq_false_iff.1 hrecord⟩
    | true =>
      cases hparse : Frame.parse limit b with
      | record p more =>
        obtain ⟨rfl, hp⟩ := Frame.parse_eq_record_iff.1 hparse
        have hshorter : more.length < n := by
          rw [← hn, List.length_append, length_frame, headerSize]
          omega
        obtain ⟨ps, rest, h⟩ := ih more.length hshorter more rfl
        exact ⟨p :: ps, rest, h.cons hp⟩
      | _ => rw [hparse] at hrecord; cases hrecord

/-- There is only one way to read it: a frame tells where it ends. -/
theorem Parsed.unique {ps ps' : List Bytes} {rest rest' : Bytes} (h : Parsed limit b ps rest)
    (h' : Parsed limit b ps' rest') : ps' = ps ∧ rest' = rest := by
  induction ps generalizing b ps' with
  | nil =>
    cases ps' with
    | nil => exact ⟨rfl, by rw [← List.nil_append rest', ← frames_nil, ← h'.bytes, h.bytes]; rfl⟩
    | cons q qs =>
      have hq : frame q <+: rest := by
        refine ⟨frames qs ++ rest', ?_⟩
        rw [← List.append_assoc, ← frames_cons, ← h'.bytes, h.bytes]
        rfl
      exact absurd hq (h.maximal q (h'.fits q List.mem_cons_self))
  | cons p ps ih =>
    have hp : Fits limit p := h.fits p List.mem_cons_self
    have hb : b = frame p ++ (frames ps ++ rest) := by
      rw [h.bytes, frames_cons, List.append_assoc]
    cases ps' with
    | nil =>
      have hrest : frame p <+: rest' := by
        refine ⟨frames ps ++ rest, ?_⟩
        rw [← hb, h'.bytes]
        rfl
      exact absurd hrest (h'.maximal p hp)
    | cons q qs =>
      have hq : Fits limit q := h'.fits q List.mem_cons_self
      have hb' : b = frame q ++ (frames qs ++ rest') := by
        rw [h'.bytes, frames_cons, List.append_assoc]
      have hsame := Frame.parse_eq_record_iff.2 ⟨hb, hp⟩
      rw [Frame.parse_eq_record_iff.2 ⟨hb', hq⟩] at hsame
      obtain ⟨rfl, hmore⟩ := Frame.record.inj hsame
      obtain ⟨rfl, rfl⟩ := ih ⟨rfl, fun r hr => h.fits r (List.mem_cons_of_mem _ hr), h.maximal⟩
        ⟨hmore.symm, fun r hr => h'.fits r (List.mem_cons_of_mem _ hr), h'.maximal⟩
      exact ⟨rfl, rfl⟩

/-! ## What a replay makes of it -/

/-- How a replay ends at the offset `start` when only `rest` is left and no record stands there. What
the header announces is compared with the limit before the payload is looked for. -/
def verdict (limit : Nat) (tolerant : Bool) (start : Nat) (rest : Bytes) : Except LogError Bool :=
  let torn (e : LogError) : Except LogError Bool := if tolerant then .ok true else .error e
  let declared := Bytes.value (rest.take 4)
  if rest = [] then .ok false
  else if rest.length < headerSize then torn (.truncatedHeader start)
  else if limit < declared then .error (.payloadTooLarge start declared limit)
  else if rest.length - headerSize < declared then torn (.truncatedPayload start)
  else .error (.checksumMismatch start)

theorem ending_eq_verdict {o : ReadOptions} {rest : Bytes}
    (h : (Frame.parse o.limit rest).isRecord = false) (start : Nat) :
    o.ending start (Frame.parse o.limit rest) = verdict o.limit o.tolerant start rest := by
  have hannounced : Frame.announced (rest.take headerSize) = Bytes.value (rest.take 4) := by
    rw [Frame.announced, List.take_take]
    rfl
  have hempty : (rest.take headerSize).isEmpty = true ↔ rest = [] := by
    cases rest with
    | nil => exact ⟨fun _ => rfl, fun _ => rfl⟩
    | cons x more => simp [headerSize]
  have hshort : (rest.take headerSize).length < headerSize ↔ rest.length < headerSize := by
    rw [List.length_take]
    omega
  have hpayload : ((rest.drop headerSize).take (Bytes.value (rest.take 4))).length <
      Bytes.value (rest.take 4) ↔ rest.length - headerSize < Bytes.value (rest.take 4) := by
    rw [List.length_take, List.length_drop]
    omega
  unfold Frame.parse Frame.judge at h ⊢
  simp only [hannounced, hempty, hshort, hpayload] at h ⊢
  unfold verdict
  by_cases h0 : rest = []
  · simp only [if_pos h0, ReadOptions.ending]
  by_cases h8 : rest.length < headerSize
  · simp only [if_neg h0, if_pos h8, ReadOptions.ending]
  by_cases hl : o.limit < Bytes.value (rest.take 4)
  · simp only [if_neg h0, if_neg h8, if_pos hl, ReadOptions.ending]
  by_cases hp : rest.length - headerSize < Bytes.value (rest.take 4)
  · simp only [if_neg h0, if_neg h8, if_neg hl, if_pos hp, ReadOptions.ending]
  simp only [if_neg h0, if_neg h8, if_neg hl, if_neg hp] at h ⊢
  split
  · rfl
  · next hsum =>
    rw [if_neg hsum] at h
    cases h

/-- **A file is read as a log in exactly one way.** Whatever bytes a file holds, they are the frames
of some payloads within the limit and a rest at which no such frame begins, and there is no other way
to split them so. A replay hands out these payloads, each with the offset of its end. How it ends is
decided by the rest alone, and only a torn record makes a difference between a tolerant replay and a
strict one. -/
theorem replay_parsed (b : Bytes) (o : ReadOptions) :
    ∃ ps rest, Parsed o.limit b ps rest ∧
      (∀ ps' rest', Parsed o.limit b ps' rest' → ps' = ps ∧ rest' = rest) ∧
      ((recordsFrom 0 ps).getLast?.map Record.stop).getD 0 = (frames ps).length ∧
      ∀ tolerant : Bool,
        scan { o with tolerant } (.ofBytes b) =
          { records := recordsFrom 0 ps
            ending := verdict o.limit tolerant (frames ps).length rest } ∧
        ∀ {σ ε : Type} (ofLog : LogError → ε) (visit : σ → Record → Attempt σ ε Unit) (s : σ),
          replay { o with tolerant } (.ofBytes b) ofLog visit s =
            (Attempt.forEach visit s (recordsFrom 0 ps)).andThen fun s _ =>
              (s, ((verdict o.limit tolerant (frames ps).length rest).mapError ofLog).map
                fun torn => { records := ps.length, lastGood := (frames ps).length, torn }) := by
  obtain ⟨ps, rest, h⟩ := exists_parsed o.limit b
  have hnone : (Frame.parse o.limit rest).isRecord = false :=
    Frame.isRecord_eq_false_iff.2 h.maximal
  have hbytes : (File.ofBytes b).bytes = frames ps ++ rest := by
    rw [File.bytes_ofBytes, h.bytes]
  refine ⟨ps, rest, h, fun _ _ h' => h.unique h', ?_, fun tolerant => ⟨?_, ?_⟩⟩
  · rw [lastGood_recordsFrom, Nat.zero_add]
  · rw [scan_frames (o := { o with tolerant }) (File.usable_ofBytes b) hbytes h.fits hnone]
    exact congrArg _ (ending_eq_verdict (o := { o with tolerant }) hnone _)
  · intro σ ε ofLog visit s
    rw [replay_frames (o := { o with tolerant }) (File.usable_ofBytes b) hbytes h.fits hnone]
    rw [ending_eq_verdict (o := { o with tolerant }) hnone]
    rfl

/-- A run of zeros is made of empty records. -/
example : frame [] = List.replicate headerSize 0 := by decide

end Bourse.Log
