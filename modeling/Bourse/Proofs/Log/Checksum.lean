import Bourse.Log.Frame
import Mathlib.Logic.Function.Iterate

/-!
# What the checksum tells apart

Dividing a bit out of the remainder is linear and loses nothing, so different remainders stay
different whatever bytes follow. Up to four bytes enter the remainder as one number
(`foldl_crcByte_short`), and different bytes are different numbers. A message therefore has another
checksum when any four consecutive bytes of it are changed: `crc32_ne_of_burst`.
-/

namespace Bourse.Log

/-! ## Dividing out a bit -/

theorem toBitVec_crcShift (r : UInt32) :
    (crcShift r).toBitVec =
      r.toBitVec >>> 1 ^^^ if r.toBitVec.getLsbD 0 then crcPolynomial.toBitVec else 0#32 := by
  have hlow : (r &&& 1).toBitVec =
      BitVec.setWidth 32 (BitVec.ofBool (r.toBitVec.getLsbD 0)) := by
    rw [UInt32.toBitVec_and]
    exact BitVec.and_one_eq_setWidth_ofBool_getLsbD
  unfold crcShift
  cases hbit : r.toBitVec.getLsbD 0 with
  | false =>
    rw [hbit] at hlow
    have hne : r &&& 1 ≠ 1 := by
      intro h
      rw [h] at hlow
      exact absurd hlow (by decide)
    simp [hne]
  | true =>
    rw [hbit] at hlow
    have heq : r &&& 1 = 1 := UInt32.toBitVec_inj.1 (by rw [hlow]; decide)
    simp [heq]

theorem crcShift_xor (a b : UInt32) : crcShift (a ^^^ b) = crcShift a ^^^ crcShift b := by
  apply UInt32.toBitVec_inj.1
  simp only [toBitVec_crcShift, UInt32.toBitVec_xor, BitVec.ushiftRight_xor_distrib,
    BitVec.getLsbD_xor]
  apply BitVec.eq_of_getLsbD_eq
  intro i _
  cases a.toBitVec.getLsbD 0 <;> cases b.toBitVec.getLsbD 0 <;> simp <;> grind

/-- The highest bit that comes out is the lowest one that went in, and the others move down. -/
theorem eq_zero_of_crcShift {d : UInt32} (h : crcShift d = 0) : d = 0 := by
  have hbits (i : Nat) : (crcShift d).toBitVec.getLsbD i = false := by
    rw [h]
    simp
  rw [toBitVec_crcShift] at hbits
  have hlow : d.toBitVec.getLsbD 0 = false := by
    have htop := hbits 31
    cases hbit : d.toBitVec.getLsbD 0 with
    | false => rfl
    | true =>
      rw [hbit] at htop
      simp [crcPolynomial] at htop
  rw [hlow] at hbits
  apply UInt32.toBitVec_inj.1
  apply BitVec.eq_of_getLsbD_eq
  intro i _
  cases i with
  | zero => simpa using hlow
  | succ i => simpa [Nat.add_comm] using hbits i

theorem crcShift_injective : Function.Injective crcShift := by
  intro a b h
  have hzero : crcShift (a ^^^ b) = 0 := by rw [crcShift_xor, h, UInt32.xor_self]
  exact UInt32.xor_eq_zero_iff.1 (eq_zero_of_crcShift hzero)

/-- An even remainder is halved. -/
theorem crcShift_double {n : Nat} (h : 2 * n < UInt32.size) :
    crcShift (UInt32.ofNat (2 * n)) = UInt32.ofNat n := by
  have hnat : (UInt32.ofNat (2 * n)).toNat = 2 * n := UInt32.toNat_ofNat_of_lt' h
  have heven : UInt32.ofNat (2 * n) &&& 1 ≠ 1 := by
    intro hodd
    have := congrArg UInt32.toNat hodd
    rw [UInt32.toNat_and, hnat] at this
    simp at this
  rw [crcShift, if_neg heven]
  apply UInt32.toNat_inj.1
  rw [UInt32.toNat_shiftRight, hnat, UInt32.toNat_ofNat_of_lt' (by omega)]
  simp [Nat.shiftRight_eq_div_pow]

/-! ## Dividing out many bits -/

theorem iterate_crcShift_xor (k : Nat) (a b : UInt32) :
    crcShift^[k] (a ^^^ b) = crcShift^[k] a ^^^ crcShift^[k] b := by
  induction k generalizing a b with
  | zero => rfl
  | succ k ih =>
    rw [Function.iterate_succ_apply, crcShift_xor, ih]
    rfl

theorem iterate_crcShift_shiftLeft {k n : Nat} (h : n <<< k < UInt32.size) :
    crcShift^[k] (UInt32.ofNat (n <<< k)) = UInt32.ofNat n := by
  induction k generalizing n with
  | zero => rfl
  | succ k ih =>
    rw [Nat.shiftLeft_succ] at h ⊢
    rw [Function.iterate_succ_apply, crcShift_double h, ih (by omega)]

theorem crcByte_eq (r : UInt32) (b : UInt8) : crcByte r b = crcShift^[8] (r ^^^ b.toUInt32) :=
  rfl

/-! ## A few bytes at once -/

/-- Up to four bytes as a remainder. -/
def word (b : Bytes) : UInt32 :=
  UInt32.ofNat (Bytes.value b)

theorem word_cons (b : UInt8) (rest : Bytes) :
    word (b :: rest) = b.toUInt32 ^^^ UInt32.ofNat (256 * Bytes.value rest) := by
  have hsum (n : Nat) : b.toNat + 256 * n = b.toNat ^^^ 256 * n := by
    have hb : b.toNat < 2 ^ 8 := b.toNat_lt
    apply Nat.eq_of_testBit_eq
    intro i
    rw [Nat.add_comm, show 256 = 2 ^ 8 from rfl, Nat.testBit_two_pow_mul_add _ hb,
      Nat.testBit_xor, Nat.testBit_two_pow_mul]
    split
    · next h => simp [Nat.not_le.2 h]
    · next h =>
      have hle : 8 ≤ i := Nat.le_of_not_lt h
      have hhigh : b.toNat.testBit i = false :=
        Nat.testBit_lt_two_pow (Nat.lt_of_lt_of_le hb (Nat.pow_le_pow_right (by decide) hle))
      simp [hhigh, hle]
  rw [word, Bytes.value, hsum]
  apply UInt32.toNat_inj.1
  simp

theorem value_lt_of_length_le {b : Bytes} {k : Nat} (h : b.length ≤ k) :
    Bytes.value b < Bytes.capacity k := by
  refine Nat.lt_of_lt_of_le (Bytes.value_lt b) ?_
  induction h with
  | refl => exact Nat.le_refl _
  | step _ ih =>
    rw [Bytes.capacity]
    omega

theorem word_injective {a b : Bytes} (hl : a.length = b.length) (h : a.length ≤ 4)
    (hw : word a = word b) : a = b := by
  have ha : Bytes.value a < UInt32.size := value_lt_of_length_le h
  have hb : Bytes.value b < UInt32.size := value_lt_of_length_le (hl ▸ h)
  have hnat := congrArg UInt32.toNat hw
  rw [word, word, UInt32.toNat_ofNat_of_lt' ha, UInt32.toNat_ofNat_of_lt' hb] at hnat
  exact Bytes.value_injective hl hnat

/-- Up to four bytes are taken in at once. -/
theorem foldl_crcByte_short {y : Bytes} (h : y.length ≤ 4) (r : UInt32) :
    y.foldl crcByte r = crcShift^[8 * y.length] (r ^^^ word y) := by
  induction y generalizing r with
  | nil => simp [word, Bytes.value]
  | cons b rest ih =>
    have hrest : rest.length ≤ 3 := Nat.le_of_succ_le_succ h
    have hshift : Bytes.value rest <<< 8 = 256 * Bytes.value rest := by
      rw [Nat.shiftLeft_eq, Nat.mul_comm]
    have hsize : Bytes.value rest <<< 8 < UInt32.size := by
      have : Bytes.value rest < 16777216 := value_lt_of_length_le hrest
      show _ < 4294967296
      omega
    -- The bytes that follow are what eight divisions make of them eight places higher.
    have hlift : word rest = crcShift^[8] (UInt32.ofNat (256 * Bytes.value rest)) := by
      rw [← hshift, iterate_crcShift_shiftLeft hsize, word]
    rw [List.foldl_cons, ih (by omega), crcByte_eq, hlift, ← iterate_crcShift_xor,
      ← Function.iterate_add_apply, UInt32.xor_assoc, ← word_cons, List.length_cons,
      Nat.mul_succ]

/-- Different remainders stay different. -/
theorem foldl_crcByte_injective (z : Bytes) :
    Function.Injective fun r => z.foldl crcByte r := by
  induction z with
  | nil => exact Function.injective_id
  | cons b rest ih =>
    intro r s h
    have hbyte : crcByte r b = crcByte s b := ih h
    rw [crcByte_eq, crcByte_eq] at hbyte
    have hxor := crcShift_injective.iterate 8 hbyte
    exact (UInt32.xor_left_inj _).1 hxor

/-- Messages of one length that differ within four consecutive bytes have different checksums. -/
theorem crc32_ne_of_burst {front burst burst' back : Bytes} (hl : burst'.length = burst.length)
    (hshort : burst.length ≤ 4) (hne : burst' ≠ burst) :
    crc32 (front ++ burst' ++ back) ≠ crc32 (front ++ burst ++ back) := by
  intro h
  rw [crc32, crc32, UInt32.xor_left_inj] at h
  simp only [List.foldl_append] at h
  have hburst := foldl_crcByte_injective back h
  rw [foldl_crcByte_short (by omega), foldl_crcByte_short hshort, hl] at hburst
  have hword := crcShift_injective.iterate _ hburst
  exact hne (word_injective hl (by omega) ((UInt32.xor_right_inj _).1 hword))

end Bourse.Log
