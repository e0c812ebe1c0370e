import Bourse.Bytes

/-!
# Framed records

A record of a log is its payload behind a header of eight bytes: the length of the payload and
its checksum. `frame` writes a record and `Frame.parse` looks for one at the beginning of a byte
string.

The checksum is the CRC-32 of IEEE 802.3: the remainder of a message under its polynomial, with the
bits of each byte taken in reverse order, all ones at the start and the result inverted.
-/

namespace Bourse.Log

/-! ## Checksums -/

/-- The polynomial without its leading term, bits in reverse order. -/
def crcPolynomial : UInt32 := 0xedb88320

/-- Divides one bit out of the remainder. -/
def crcShift (r : UInt32) : UInt32 :=
  if r &&& 1 = 1 then (r >>> 1) ^^^ crcPolynomial else r >>> 1

/-- Takes one more byte into the remainder. -/
def crcByte (r : UInt32) (b : UInt8) : UInt32 :=
  Nat.repeat crcShift 8 (r ^^^ b.toUInt32)

/-- The checksum of a message. -/
def crc32 (message : Bytes) : UInt32 :=
  message.foldl crcByte 0xffffffff ^^^ 0xffffffff

/-! ## Frames -/

/-- Number of bytes before the payload of a record. -/
def headerSize : Nat := 8

/-- Longest payload that a reader accepts unless it is told otherwise. -/
def defaultLimit : Nat := 4194304

/-- A payload behind its header. -/
def frame (payload : Bytes) : Bytes :=
  Bytes.ofNat 4 payload.length ++ Bytes.ofNat 4 (crc32 payload).toNat ++ payload

/-- What stands at the beginning of a byte string. -/
inductive Frame where
  /-- There are no bytes. -/
  | nothing
  /-- There are too few bytes for a header. -/
  | shortHeader
  /-- The header announces a payload beyond the limit. -/
  | tooLarge (length : Nat)
  /-- There are fewer bytes than the header announces. -/
  | shortPayload (length : Nat)
  /-- The payload does not have the announced checksum. -/
  | corrupt (length : Nat)
  /-- A record, and the bytes after it. -/
  | record (payload rest : Bytes)
deriving DecidableEq, Repr, Inhabited

namespace Frame

/-- Length of the payload that a header announces. -/
def announced (header : Bytes) : Nat :=
  Bytes.value (header.take 4)

/-- What stands there when `header` is all that there is of a header, `payload` all that there is
of the payload that it announces, and `rest` what follows. -/
@[inline] def judge (limit : Nat) (header payload rest : Bytes) : Frame :=
  if header.isEmpty then nothing
  else if header.length < headerSize then shortHeader
  else if limit < announced header then tooLarge (announced header)
  else if payload.length < announced header then shortPayload (announced header)
  else if (crc32 payload).toNat ≠ Bytes.value (header.drop 4) then corrupt (announced header)
  else record payload rest

/-- Looks for a record of at most `limit` bytes of payload. -/
def parse (limit : Nat) (b : Bytes) : Frame :=
  let header := b.take headerSize
  let body := b.drop headerSize
  judge limit header (body.take (announced header)) (body.drop (announced header))

/-- The sizes of the pieces that are asked for until it is known what stands there: a header,
and a payload if the header is sound. -/
def requests : Frame → List Nat
  | nothing | shortHeader | tooLarge _ => [headerSize]
  | shortPayload length | corrupt length => [headerSize, length]
  | record payload _ => [headerSize, payload.length]

theorem judge_eq_record {limit : Nat} {header payload rest p r : Bytes}
    (h : judge limit header payload rest = record p r) :
    headerSize ≤ header.length ∧ announced header ≤ payload.length ∧ p = payload ∧ r = rest := by
  unfold judge at h
  split at h
  · cases h
  split at h
  · cases h
  next hl =>
  split at h
  · cases h
  split at h
  · cases h
  next hp =>
  split at h
  · cases h
  injection h with h₁ h₂
  exact ⟨Nat.le_of_not_lt hl, Nat.le_of_not_lt hp, h₁.symm, h₂.symm⟩

/-- A record takes up a header and its payload; the rest is what follows. -/
theorem rest_of_parse {limit : Nat} {b payload rest : Bytes}
    (h : parse limit b = record payload rest) :
    headerSize + payload.length ≤ b.length ∧ rest = b.drop (headerSize + payload.length) := by
  obtain ⟨hl, hp, rfl, rfl⟩ := judge_eq_record h
  rw [List.length_take] at hl
  have hlen : ((b.drop headerSize).take (announced (b.take headerSize))).length =
      announced (b.take headerSize) :=
    Nat.le_antisymm (List.length_take_le ..) hp
  have := List.length_take_le' (announced (b.take headerSize)) (b.drop headerSize)
  rw [hlen] at this ⊢
  rw [List.length_drop] at this
  exact ⟨by omega, List.drop_drop⟩

/-- What was found, whatever follows it. -/
def alone : Frame → Frame
  | record payload _ => record payload []
  | found => found

/-- What is found, whatever follows it, does not depend on more than a header and as many bytes as
it announces, if that is within the limit. -/
theorem judge_eq_alone (limit : Nat) (b : Bytes) :
    judge limit (b.take headerSize)
      ((b.drop headerSize).take (min (announced (b.take headerSize)) limit)) [] =
    (parse limit b).alone := by
  unfold parse judge
  dsimp only
  split
  · rfl
  split
  · rfl
  split
  · rfl
  next h =>
  rw [Nat.min_eq_left (Nat.le_of_not_lt h)]
  split
  · rfl
  split
  · rfl
  · rfl

end Frame

end Bourse.Log
