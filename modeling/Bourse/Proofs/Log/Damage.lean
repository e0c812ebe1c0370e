import Bourse.Proofs.Log.Checksum
import Bourse.Proofs.Log.Scanning

/-!
# Damaged records

A record of which up to four consecutive bytes of the payload were changed, or the checksum, is
`Damaged`: its length still stands in the header, but payload and checksum do not go together. A log
with such a record has the records before it and ends with an error there, for a tolerant reader as
well: `replay_damaged`.
-/

namespace Bourse.Log

/-- The bytes of the record of a payload after a change that its checksum is sure to show. -/
inductive Damaged (payload : Bytes) : Bytes → Prop where
  /-- At most four consecutive bytes of the payload were changed. -/
  | payload (front burst burst' back : Bytes) (split : payload = front ++ burst ++ back)
      (length : burst'.length = burst.length) (short : burst.length ≤ 4)
      (changed : burst' ≠ burst) :
      Damaged payload ((frame payload).take headerSize ++ (front ++ burst' ++ back))
  /-- The checksum was changed. -/
  | checksum {sum : Bytes} (length : sum.length = 4)
      (changed : sum ≠ Bytes.ofNat 4 (crc32 payload).toNat) :
      Damaged payload (Bytes.ofNat 4 payload.length ++ sum ++ payload)

/-- A header and a payload that do not go together. -/
theorem Frame.parse_corrupt {limit : Nat} {sum body : Bytes} (hl : body.length ≤ limit)
    (hm : body.length ≤ maxLength) (hsum : sum.length = 4)
    (hne : (crc32 body).toNat ≠ Bytes.value sum) (rest : Bytes) :
    parse limit (Bytes.ofNat 4 body.length ++ sum ++ body ++ rest) = corrupt body.length := by
  have hsize : (Bytes.ofNat 4 body.length ++ sum).length = headerSize := by
    rw [List.length_append, Bytes.length_ofNat, hsum, headerSize]
  have hhead : (Bytes.ofNat 4 body.length ++ sum ++ body ++ rest).take headerSize =
      Bytes.ofNat 4 body.length ++ sum := by
    rw [List.append_assoc, ← hsize, List.take_left]
  have hbody : (Bytes.ofNat 4 body.length ++ sum ++ body ++ rest).drop headerSize =
      body ++ rest := by
    rw [List.append_assoc, ← hsize, List.drop_left]
  have hannounced : announced (Bytes.ofNat 4 body.length ++ sum) = body.length := by
    rw [announced, List.take_left' (Bytes.length_ofNat ..), value_ofNat_length hm]
  have hdrop : (Bytes.ofNat 4 body.length ++ sum).drop 4 = sum :=
    List.drop_left' (Bytes.length_ofNat ..)
  have hne' : (Bytes.ofNat 4 body.length ++ sum).isEmpty = false := by
    cases he : Bytes.ofNat 4 body.length ++ sum with
    | nil => rw [he] at hsize; cases hsize
    | cons => rfl
  simp only [parse, hhead, hbody, judge, hannounced, hne', hsize, hdrop, List.take_left]
  simp [Nat.not_lt.2 hl, hne]

/-- A damaged record is recognised, whatever follows it. -/
theorem Damaged.parse {payload damaged : Bytes} (h : Damaged payload damaged) {limit : Nat}
    (hfits : Fits limit payload) (rest : Bytes) :
    Frame.parse limit (damaged ++ rest) = .corrupt payload.length := by
  obtain ⟨hl, hm⟩ := hfits
  cases h with
  | payload front burst burst' back split length short changed =>
    have hlen : (front ++ burst' ++ back).length = payload.length := by
      rw [split]
      simp only [List.length_append, length]
    have hhead : (frame payload).take headerSize =
        Bytes.ofNat 4 (front ++ burst' ++ back).length ++
          Bytes.ofNat 4 (crc32 payload).toNat := by
      rw [hlen, frame, List.take_left' (by simp [headerSize])]
    have hne : (crc32 (front ++ burst' ++ back)).toNat ≠
        Bytes.value (Bytes.ofNat 4 (crc32 payload).toNat) := by
      rw [value_ofNat_crc32, split]
      intro h
      exact crc32_ne_of_burst length short changed (UInt32.toNat_inj.1 h)
    rw [hhead, ← hlen]
    exact Frame.parse_corrupt (hlen ▸ hl) (hlen ▸ hm) (Bytes.length_ofNat ..) hne rest
  | checksum length changed =>
    refine Frame.parse_corrupt hl hm length ?_ rest
    intro h
    refine changed (Bytes.value_injective (by rw [length, Bytes.length_ofNat]) ?_)
    rw [← h, value_ofNat_crc32]

/-- **A damaged record is found where it stands.** Whoever reads a log with a damaged record gets
the records before it, unchanged, and then the error that names the offset of the damaged one. No
other record is read, and the log is never taken for one that is complete or only cut short. -/
theorem replay_damaged {o : ReadOptions} {f : File} {before after : List Bytes}
    {payload damaged : Bytes} (hf : f.isRegular) (hdamage : Damaged payload damaged)
    (hbytes : f.bytes = frames before ++ damaged ++ frames after)
    (hbefore : ∀ p ∈ before, Fits o.limit p) (hpayload : Fits o.limit payload) :
    scan o f =
      { records := recordsFrom 0 before
        ending := .error (.checksumMismatch (frames before).length) } ∧
    ∀ {σ ε : Type} (ofLog : LogError → ε) (visit : σ → Record → Attempt σ ε Unit) (s : σ),
      replay o f ofLog visit s =
        (Attempt.forEach visit s (recordsFrom 0 before)).andThen fun s _ =>
          (s, .error (ofLog (.checksumMismatch (frames before).length))) := by
  have hparse := hdamage.parse hpayload (frames after)
  have hnone : (Frame.parse o.limit (damaged ++ frames after)).isRecord = false := by
    rw [hparse]
    rfl
  rw [List.append_assoc] at hbytes
  constructor
  · rw [scan_frames (.inr hf) hbytes hbefore hnone, hparse]
    rfl
  · intro σ ε ofLog visit s
    rw [replay_frames (.inr hf) hbytes hbefore hnone, hparse]
    rfl

/-- The second of three records is damaged in its last two bytes, and a tolerant reader stops
there. -/
theorem replay_damaged_second :
    let f := File.ofBytes
      (frames [[7]] ++ ((frame [1, 2, 3]).take headerSize ++ ([1] ++ [9, 9] ++ [])) ++ frames [[8]])
    (scan { tolerant := true } f).records = [{ payload := [7], stop := 9 }] ∧
      (scan { tolerant := true } f).ending = .error (.checksumMismatch 9) := by
  intro f
  have hdamage : Damaged [1, 2, 3] ((frame [1, 2, 3]).take headerSize ++ ([1] ++ [9, 9] ++ [])) :=
    .payload [1] [2, 3] [9, 9] [] rfl rfl (by decide) (by decide)
  have hbytes : f.bytes = frames [[7]] ++ _ ++ frames [[8]] := File.bytes_ofBytes _
  have h := (replay_damaged (o := { tolerant := true }) rfl hdamage hbytes (by decide)
    (by decide)).1
  exact ⟨congrArg Scan.records h, congrArg Scan.ending h⟩

end Bourse.Log
