import Bourse.Log.Writer

/-!
# Frames and cut logs

A log is the concatenation of the frames of its payloads. `fit blocks n` counts the blocks that lie
wholly within the first `n` bytes of a concatenation, so `take_flatten` says what a cut at any byte
leaves: whole blocks, and a first part of the next one. `parse_frame` and `parse_cut` are the two
halves of reading such a file: a whole frame is found whatever follows it, and a torn one is never
mistaken for anything else.
-/

namespace Bourse.Log

/-! ## Cutting a concatenation -/

/-- What stands at the beginning of two parts is less than the first of them, or all of it and what
stands at the beginning of the second. -/
theorem prefix_append_cases {α : Type} {l m b : List α} (h : b <+: l ++ m) :
    (b <+: l ∧ b.length < l.length) ∨ ∃ rest, b = l ++ rest ∧ rest <+: m := by
  rcases List.prefix_or_prefix_of_prefix h (List.prefix_append l m) with hin | ⟨rest, rfl⟩
  · rcases Nat.lt_or_ge b.length l.length with hlt | hle
    · exact Or.inl ⟨hin, hlt⟩
    · exact Or.inr ⟨[], by rw [List.append_nil, hin.eq_of_length_le hle], List.nil_prefix⟩
  · exact Or.inr ⟨rest, rfl, (List.prefix_append_right_inj l).1 h⟩

/-- How many blocks of a concatenation lie within its first `n` bytes. -/
def fit : List Bytes → Nat → Nat
  | [], _ => 0
  | b :: rest, n => if b.length ≤ n then fit rest (n - b.length) + 1 else 0

theorem fit_le_length (blocks : List Bytes) (n : Nat) : fit blocks n ≤ blocks.length := by
  induction blocks generalizing n with
  | nil => exact Nat.le_refl _
  | cons b rest ih =>
    rw [fit, List.length_cons]
    split
    · exact Nat.succ_le_succ (ih _)
    · omega

/-- A cut leaves whole blocks and a first part of the next one. -/
theorem take_flatten (blocks : List Bytes) (n : Nat) :
    ∃ tail, blocks.flatten.take n = (blocks.take (fit blocks n)).flatten ++ tail ∧
      (tail = [] ∨ ∃ b, blocks[fit blocks n]? = some b ∧ ∃ k < b.length, tail = b.take k) := by
  induction blocks generalizing n with
  | nil => exact ⟨[], by simp [fit], Or.inl rfl⟩
  | cons b rest ih =>
    by_cases h : b.length ≤ n
    · obtain ⟨tail, ht, hcase⟩ := ih (n - b.length)
      refine ⟨tail, ?_, ?_⟩
      · rw [fit, if_pos h, List.flatten_cons, List.take_append, List.take_of_length_le h, ht]
        simp
      · rw [fit, if_pos h, List.getElem?_cons_succ]
        exact hcase
    · refine ⟨b.take n, ?_, Or.inr ⟨b, ?_, n, by omega, rfl⟩⟩
      · rw [fit, if_neg h, List.flatten_cons, List.take_append_of_le_length (by omega)]
        simp
      · rw [fit, if_neg h]
        rfl

/-- The block that ends the first `k` ones, seen from a cut behind it. -/
theorem le_fit_iff (blocks : List Bytes) (n k : Nat) (hk : k ≤ blocks.length) :
    k ≤ fit blocks n ↔ (blocks.take k).flatten.length ≤ n := by
  induction blocks generalizing n k with
  | nil => simp at hk; simp [hk]
  | cons b rest ih =>
    cases k with
    | zero => simp
    | succ k =>
      rw [fit, List.take_succ_cons, List.flatten_cons, List.length_append]
      split
      · next h =>
        rw [Nat.succ_le_succ_iff, ih _ _ (by simpa using hk)]
        omega
      · next h => omega

/-! ## Frames -/

/-- The bytes of a log with these payloads. -/
def frames (payloads : List Bytes) : Bytes :=
  (payloads.map frame).flatten

@[simp] theorem frames_nil : frames [] = [] := rfl

@[simp] theorem frames_cons (p : Bytes) (rest : List Bytes) :
    frames (p :: rest) = frame p ++ frames rest := rfl

@[simp] theorem frames_append (l m : List Bytes) : frames (l ++ m) = frames l ++ frames m := by
  simp [frames]

@[simp] theorem length_frame (payload : Bytes) :
    (frame payload).length = headerSize + payload.length := by
  simp [frame, headerSize]
  omega

/-- A record takes up at least a header. -/
theorem length_le_frames (ps : List Bytes) : ps.length ≤ (frames ps).length := by
  induction ps with
  | nil => exact Nat.le_refl _
  | cons p rest ih =>
    rw [frames_cons, List.length_cons, List.length_append, length_frame, headerSize]
    omega

/-- A header can tell the length of a payload. -/
theorem value_ofNat_length {payload : Bytes} (h : payload.length ≤ maxLength) :
    Bytes.value (Bytes.ofNat 4 payload.length) = payload.length := by
  rw [Bytes.value_ofNat, Nat.mod_eq_of_lt]
  exact Nat.lt_of_le_of_lt h (by decide)

/-- A header can tell any checksum. -/
theorem value_ofNat_crc32 (payload : Bytes) :
    Bytes.value (Bytes.ofNat 4 (crc32 payload).toNat) = (crc32 payload).toNat := by
  rw [Bytes.value_ofNat, Nat.mod_eq_of_lt]
  exact UInt32.toNat_lt _

theorem frame_take_headerSize (payload : Bytes) :
    (frame payload).take headerSize ++ payload = frame payload := by
  have h : (Bytes.ofNat 4 payload.length ++ Bytes.ofNat 4 (crc32 payload).toNat).length =
      headerSize := by
    simp [headerSize]
  rw [frame, ← h, List.take_left]

theorem announced_frame {payload : Bytes} (h : payload.length ≤ maxLength) :
    Frame.announced ((frame payload).take headerSize) = payload.length := by
  have htake : ((frame payload).take headerSize).take 4 = Bytes.ofNat 4 payload.length := by
    rw [List.take_take, frame, List.append_assoc]
    exact List.take_left' (by simp [headerSize])
  rw [Frame.announced, htake, value_ofNat_length h]

theorem checksum_frame (payload : Bytes) :
    Bytes.value (((frame payload).take headerSize).drop 4) = (crc32 payload).toNat := by
  have hdrop : ((frame payload).take headerSize).drop 4 =
      Bytes.ofNat 4 (crc32 payload).toNat := by
    rw [List.drop_take, frame, List.append_assoc, List.drop_left' (by simp)]
    exact List.take_left' (by simp [headerSize])
  rw [hdrop, value_ofNat_crc32]

namespace Frame

/-- A whole frame is found, whatever follows it. -/
theorem parse_frame {limit : Nat} {payload : Bytes} (hl : payload.length ≤ limit)
    (hm : payload.length ≤ maxLength) (rest : Bytes) :
    parse limit (frame payload ++ rest) = record payload rest := by
  have hlen : headerSize ≤ (frame payload).length := by rw [length_frame]; omega
  have hhead : (frame payload ++ rest).take headerSize = (frame payload).take headerSize :=
    List.take_append_of_le_length hlen
  have hbody : (frame payload ++ rest).drop headerSize = payload ++ rest := by
    rw [← frame_take_headerSize payload, List.append_assoc]
    exact List.drop_left' (by simp)
  have hsize : ((frame payload).take headerSize).length = headerSize := by
    rw [List.length_take, Nat.min_eq_left hlen]
  have hne : ((frame payload).take headerSize).isEmpty = false := by
    cases he : (frame payload).take headerSize with
    | nil => rw [he] at hsize; cases hsize
    | cons => rfl
  simp only [parse, hhead, hbody, judge, announced_frame hm, checksum_frame, hne, hsize,
    List.take_left', List.drop_left']
  simp [Nat.not_lt.2 hl]

/-- A frame beyond the limit is recognised by its header. -/
theorem parse_oversized {limit : Nat} {payload : Bytes} (hl : limit < payload.length)
    (hm : payload.length ≤ maxLength) {b : Bytes} (hb : headerSize ≤ b.length)
    (ht : b.take headerSize = (frame payload).take headerSize) :
    parse limit b = tooLarge payload.length := by
  have hsize : (b.take headerSize).length = headerSize := by
    rw [List.length_take, Nat.min_eq_left hb]
  rw [ht] at hsize
  have hne : ((frame payload).take headerSize).isEmpty = false := by
    cases he : (frame payload).take headerSize with
    | nil => rw [he] at hsize; cases hsize
    | cons => rfl
  simp only [parse, judge, ht, hne, hsize, announced_frame hm]
  simp [hl]

/-- What is left of a frame that was cut is torn: there is nothing, or less than a header, or a
header with less payload than it announces. -/
theorem parse_cut {limit : Nat} {payload : Bytes} (hl : payload.length ≤ limit)
    (hm : payload.length ≤ maxLength) {k : Nat} (hk : k < (frame payload).length) :
    parse limit ((frame payload).take k) =
      if k = 0 then nothing
      else if k < headerSize then shortHeader
      else shortPayload payload.length := by
  have hlen : ((frame payload).take k).length = k := by
    rw [List.length_take]; omega
  have hhead : ((frame payload).take k).take headerSize =
      (frame payload).take (min headerSize k) := by
    rw [List.take_take]
  unfold parse judge
  rw [hhead]
  rw [length_frame] at hk
  by_cases h0 : k = 0
  · subst h0
    simp
  have hne : ((frame payload).take (min headerSize k)).isEmpty = false := by
    cases he : (frame payload).take (min headerSize k) with
    | nil =>
      have := congrArg List.length he
      simp [headerSize] at this hk
      omega
    | cons => rfl
  rw [if_neg h0]
  simp only [hne, Bool.false_eq_true, if_false]
  by_cases h8 : k < headerSize
  · rw [if_pos h8, if_pos]
    rw [List.length_take, length_frame]
    omega
  · have hmin : min headerSize k = headerSize := by omega
    rw [if_neg h8, hmin, announced_frame hm, if_neg, if_neg (Nat.not_lt.2 hl), if_pos]
    · rw [List.length_take, List.length_drop, hlen]
      omega
    · rw [List.length_take, length_frame]
      omega

end Frame

end Bourse.Log
