/-!
# Byte strings

Files and records are lists of bytes. Numbers are written in a fixed number of bytes, the least
significant first; text is written in UTF-8.
-/

namespace Bourse

/-- A string of bytes. -/
abbrev Bytes := List UInt8

namespace Bytes

/-- The number `n` in `width` bytes, the least significant first. What does not fit is lost. -/
def ofNat : (width n : Nat) → Bytes
  | 0, _ => []
  | width + 1, n => UInt8.ofNat n :: ofNat width (n / 256)

/-- The number that a string of bytes stands for, the least significant byte first. -/
def value : Bytes → Nat
  | [] => 0
  | b :: rest => b.toNat + 256 * value rest

/-- How many numbers there are that fit in `width` bytes. -/
def capacity : (width : Nat) → Nat
  | 0 => 1
  | width + 1 => 256 * capacity width

/-- A string of bytes with `n` put in place of the `width` bytes from an offset on. -/
def putNat (b : Bytes) (offset width n : Nat) : Bytes :=
  b.take offset ++ ofNat width n ++ b.drop (offset + width)

/-- Text in UTF-8. -/
def ofText (text : List Char) : Bytes :=
  text.flatMap String.utf8EncodeChar

/-- The text that a string of bytes spells in UTF-8, if it does. -/
def text? (b : Bytes) : Option (List Char) :=
  b.toByteArray.utf8Decode?.map Array.toList

@[simp] theorem length_ofNat (width n : Nat) : (ofNat width n).length = width := by
  induction width generalizing n with
  | zero => rfl
  | succ width ih => simp [ofNat, ih]

/-- A number is read back, as far as it fits. -/
theorem value_ofNat (width n : Nat) : value (ofNat width n) = n % capacity width := by
  induction width generalizing n with
  | zero => rw [ofNat, value, capacity, Nat.mod_one]
  | succ width ih => rw [ofNat, value, capacity, ih, Nat.mod_mul, UInt8.toNat_ofNat']

theorem value_lt (b : Bytes) : value b < capacity b.length := by
  induction b with
  | nil => exact Nat.one_pos
  | cons x rest ih =>
    have hx := x.toNat_lt
    rw [value, List.length_cons, capacity]
    omega

/-- Strings of one length that stand for the same number are the same. -/
theorem value_injective {a b : Bytes} (hl : a.length = b.length) (h : value a = value b) :
    a = b := by
  induction a generalizing b with
  | nil => exact (List.length_eq_zero_iff.1 hl.symm).symm
  | cons x rest ih =>
    cases b with
    | nil => cases hl
    | cons y more =>
      have hx := x.toNat_lt
      have hy := y.toNat_lt
      rw [value, value] at h
      have hxy : x = y := UInt8.toNat_inj.1 (by omega)
      rw [hxy, ih (Nat.succ.inj hl) (by omega)]

/-- The bytes of a number are those that stand for it. -/
theorem ofNat_value (b : Bytes) : ofNat b.length (value b) = b := by
  refine value_injective (length_ofNat ..) ?_
  rw [value_ofNat, Nat.mod_eq_of_lt (value_lt b)]

theorem text?_ofText (text : List Char) : text? (ofText text) = some text := by
  have h : (ofText text).toByteArray = text.utf8Encode := rfl
  simp [text?, h, List.utf8Decode?_utf8Encode]

end Bytes

end Bourse
