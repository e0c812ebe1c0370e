/-!
# Whole numbers in text

A number is written in decimal digits without leading zeros, after a minus sign if it is
negative. It is read more freely: a plus sign and leading zeros are allowed, a minus sign only
where negative numbers are; digits are the ten ASCII ones, at least one of them; and the value
has to fit the width that is asked for. Reading ends as soon as it does not.
-/

namespace Bourse.Text

/-- The digits of a natural number. -/
def ofNat (n : Nat) : List Char :=
  Nat.toDigits 10 n

/-- The digits of an integer, after a minus sign if it is negative. -/
def ofInt (n : Int) : List Char :=
  if n < 0 then '-' :: ofNat n.natAbs else ofNat n.natAbs

/-- Goes on with a number below `bound` whose digits so far make `n`. -/
def readDigits (bound n : Nat) : List Char → Option Nat
  | [] => some n
  | c :: rest =>
    let more := 10 * n + (c.toNat - '0'.toNat)
    if c.isDigit && more < bound then readDigits bound more rest else none

/-- Reads one or more digits and nothing else, as a number below `bound`. -/
def digits? (bound : Nat) (text : List Char) : Option Nat :=
  if text = [] then none else readDigits bound 0 text

/-- Reads a number without minus sign that fits in `bits` bits. -/
def unsigned? (bits : Nat) (text : List Char) : Option Nat :=
  let bound := Nat.pow 2 bits
  match text with
  | '+' :: rest => digits? bound rest
  | _ => digits? bound text

/-- Reads a number with or without sign that fits in `bits` bits, in two's complement. -/
def signed? (bits : Nat) (text : List Char) : Option Int :=
  let bound := Nat.pow 2 (bits - 1)
  match text with
  | '+' :: rest => (digits? bound rest).map fun n => n
  | '-' :: rest => (digits? (bound + 1) rest).map fun n => -n
  | _ => (digits? bound text).map fun n => n

/-- Reads an unsigned number of 64 bits. -/
def word? (text : List Char) : Option UInt64 :=
  (unsigned? 64 text).map UInt64.ofNat

/-- Reads a signed number of 64 bits. -/
def int64? (text : List Char) : Option Int64 :=
  (signed? 64 text).map Int64.ofInt

theorem le_ofDigitChars (n : Nat) (text : List Char) : n ≤ Nat.ofDigitChars 10 text n := by
  induction text generalizing n with
  | nil => simp
  | cons c rest ih =>
    rw [Nat.ofDigitChars_cons]
    exact Nat.le_trans (by omega) (ih _)

theorem readDigits_eq (bound n : Nat) (text : List Char) (h : n < bound) :
    readDigits bound n text =
      if text.all Char.isDigit ∧ Nat.ofDigitChars 10 text n < bound
      then some (Nat.ofDigitChars 10 text n) else none := by
  induction text generalizing n with
  | nil => simp [readDigits, h]
  | cons c rest ih =>
    simp only [readDigits, Nat.ofDigitChars_cons, List.all_cons]
    generalize 10 * n + (c.toNat - '0'.toNat) = more
    by_cases hm : more < bound
    · rw [ih _ hm]
      cases c.isDigit <;> simp [hm]
    · have := le_ofDigitChars more rest
      simp only [hm, decide_false, Bool.and_false, Bool.false_eq_true, if_false]
      rw [if_neg (by omega)]

/-- Digits are read as the number that they write, if that is below the bound. -/
theorem digits?_eq (bound : Nat) (text : List Char) (h : 0 < bound) :
    digits? bound text =
      if text ≠ [] ∧ text.all Char.isDigit ∧ Nat.ofDigitChars 10 text 0 < bound
      then some (Nat.ofDigitChars 10 text 0) else none := by
  unfold digits?
  by_cases ht : text = []
  · simp [ht]
  · simp [ht, readDigits_eq bound 0 text h]

end Bourse.Text
