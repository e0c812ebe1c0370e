import Bourse.Record.Csv

/-!
# Fields are read back

Numbers in decimal and letters are plain: they have neither commas nor blanks in them. A line of
plain fields is split into exactly these fields, and every number is read back from its digits.
-/

namespace Bourse.Text

/-! ## Plain fields -/

/-- A field without commas and blanks. -/
def Plain (field : List Char) : Prop :=
  ∀ c ∈ field, c ≠ ',' ∧ isBlank c = false

theorem Plain.tail {c : Char} {field : List Char} (h : Plain (c :: field)) : Plain field :=
  fun d hd => h d (List.mem_cons_of_mem _ hd)

theorem dropWhile_isBlank {field : List Char} (h : Plain field) :
    field.dropWhile isBlank = field := by
  cases field with
  | nil => rfl
  | cons c rest =>
    have hc : isBlank c = false := (h c List.mem_cons_self).2
    rw [List.dropWhile_cons, hc]
    rfl

theorem trim_plain {field : List Char} (h : Plain field) : trim field = field := by
  have hr : Plain field.reverse := fun c hc => h c (List.mem_reverse.1 hc)
  rw [trim, dropWhile_isBlank h, dropWhile_isBlank hr, List.reverse_reverse]

/-- The space that separates a field from the one before does not belong to it. -/
theorem trim_space {field : List Char} (h : Plain field) : trim (' ' :: field) = field := by
  have hs : isBlank ' ' = true := by decide
  rw [trim, List.dropWhile_cons, if_pos hs]
  exact trim_plain h

theorem splitCommas_plain {field : List Char} (h : Plain field) : splitCommas field = [field] := by
  induction field with
  | nil => rfl
  | cons c rest ih =>
    have hc : c ≠ ',' := (h c List.mem_cons_self).1
    rw [splitCommas, if_neg hc, ih h.tail]

theorem splitCommas_append {field : List Char} (h : Plain field) (rest : List Char) :
    splitCommas (field ++ ',' :: rest) = field :: splitCommas rest := by
  induction field with
  | nil => simp [splitCommas]
  | cons c tail ih =>
    have hc : c ≠ ',' := (h c List.mem_cons_self).1
    rw [List.cons_append, splitCommas, if_neg hc, ih h.tail]

/-- A space before a line belongs to its first piece. -/
theorem splitCommas_space {piece rest : List Char} {pieces : List (List Char)}
    (h : splitCommas rest = piece :: pieces) :
    splitCommas (' ' :: rest) = (' ' :: piece) :: pieces := by
  rw [splitCommas, if_neg (by decide), h]

theorem fields_space {field rest : List Char} {pieces : List (List Char)}
    (h : splitCommas rest = field :: pieces) (hp : Plain field) :
    fields (' ' :: rest) = fields rest := by
  rw [fields, fields, splitCommas_space h, h]
  show trim (' ' :: field) :: pieces.map trim = trim field :: pieces.map trim
  rw [trim_space hp, trim_plain hp]

/-- The first piece of a line of plain fields is its first field. -/
theorem splitCommas_ofFields {f : List Char} (h : Plain f) (rest : List (List Char)) :
    ∃ pieces, splitCommas (ofFields (f :: rest)) = f :: pieces := by
  cases rest with
  | nil => exact ⟨[], splitCommas_plain h⟩
  | cons g rest => exact ⟨_, splitCommas_append h _⟩

/-- A line is split into the fields that it was made of. -/
theorem fields_ofFields {l : List (List Char)} (hne : l ≠ []) (h : ∀ f ∈ l, Plain f) :
    fields (ofFields l) = l := by
  induction l with
  | nil => exact absurd rfl hne
  | cons f rest ih =>
    have hf : Plain f := h f List.mem_cons_self
    cases rest with
    | nil =>
      show (splitCommas f).map trim = [f]
      rw [splitCommas_plain hf, List.map_cons, trim_plain hf, List.map_nil]
    | cons g rest =>
      have hg : Plain g := h g (List.mem_cons_of_mem _ List.mem_cons_self)
      obtain ⟨pieces, hpieces⟩ := splitCommas_ofFields hg rest
      have ih := ih (by simp) fun k hk => h k (List.mem_cons_of_mem _ hk)
      show (splitCommas (f ++ ',' :: ' ' :: ofFields (g :: rest))).map trim = f :: g :: rest
      rw [splitCommas_append hf, List.map_cons, trim_plain hf]
      show f :: fields (' ' :: ofFields (g :: rest)) = f :: g :: rest
      rw [fields_space hpieces hg, ih]

theorem length_ofFields_le {l : List (List Char)} {n : Nat} (h : ∀ f ∈ l, f.length ≤ n) :
    (ofFields l).length ≤ l.length * (n + 2) := by
  induction l with
  | nil => exact Nat.zero_le _
  | cons f rest ih =>
    have hf := h f List.mem_cons_self
    have ih := ih fun k hk => h k (List.mem_cons_of_mem _ hk)
    rw [List.length_cons, Nat.succ_mul]
    cases rest with
    | nil => exact Nat.le_trans hf (by omega)
    | cons g rest =>
      show (f ++ ',' :: ' ' :: ofFields (g :: rest)).length ≤ _
      rw [List.length_append, List.length_cons, List.length_cons]
      omega

/-! ## Numbers -/

theorem toNat_of_isDigit {c : Char} (h : c.isDigit) : 48 ≤ c.toNat ∧ c.toNat ≤ 57 := by
  simpa [Char.isDigit, UInt32.le_iff_toNat_le] using h

theorem plain_of_isDigit {c : Char} (h : c.isDigit) : c ≠ ',' ∧ isBlank c = false := by
  have hc := toNat_of_isDigit h
  constructor
  · rintro rfl
    revert hc
    decide
  · simp only [isBlank, blankRanges, List.any_cons, List.any_nil, Bool.or_false]
    simp only [Bool.or_eq_false_iff, Bool.and_eq_false_iff, decide_eq_false_iff_not]
    omega

theorem isDigit_of_mem_ofNat {n : Nat} {c : Char} (h : c ∈ ofNat n) : c.isDigit :=
  Nat.isDigit_of_mem_toDigits (by decide) (by decide) h

theorem plain_ofNat (n : Nat) : Plain (ofNat n) :=
  fun _ hc => plain_of_isDigit (isDigit_of_mem_ofNat hc)

theorem ofNat_ne_nil (n : Nat) : ofNat n ≠ [] :=
  Nat.toDigits_ne_nil

theorem plain_ofInt (n : Int) : Plain (ofInt n) := by
  unfold ofInt
  split
  · intro c hc
    rcases List.mem_cons.1 hc with rfl | hc
    · decide
    · exact plain_ofNat _ c hc
  · exact plain_ofNat _

theorem length_ofNat_le {n k : Nat} (hk : 0 < k) (h : n < Nat.pow 10 k) : (ofNat n).length ≤ k :=
  (Nat.length_toDigits_le_iff (by decide) hk).2 h

theorem digits?_ofNat {bound n : Nat} (h : n < bound) : digits? bound (ofNat n) = some n := by
  have hval : Nat.ofDigitChars 10 (ofNat n) 0 = n := Nat.ofDigitChars_ten_toDigits
  rw [digits?_eq bound _ (Nat.zero_lt_of_lt h), hval, if_pos]
  refine ⟨ofNat_ne_nil n, ?_, h⟩
  exact List.all_eq_true.2 fun c hc => isDigit_of_mem_ofNat hc

/-- A number does not begin with a sign. -/
theorem head_ofNat (n : Nat) : ∃ c rest, ofNat n = c :: rest ∧ c.isDigit := by
  cases h : ofNat n with
  | nil => exact absurd h (ofNat_ne_nil n)
  | cons c rest => exact ⟨c, rest, rfl, isDigit_of_mem_ofNat (h ▸ List.mem_cons_self)⟩

theorem unsigned?_ofNat {bits n : Nat} (h : n < Nat.pow 2 bits) :
    unsigned? bits (ofNat n) = some n := by
  obtain ⟨c, rest, hn, hc⟩ := head_ofNat n
  have hd := digits?_ofNat h
  rw [hn] at hd ⊢
  unfold unsigned?
  split
  · next he =>
    obtain ⟨rfl, -⟩ := List.cons.inj he
    exact absurd hc (by decide)
  · exact hd

theorem signed?_ofInt {bits : Nat} {n : Int} (hlo : -(Nat.pow 2 (bits - 1) : Int) ≤ n)
    (hhi : n < (Nat.pow 2 (bits - 1) : Int)) : signed? bits (ofInt n) = some n := by
  unfold ofInt
  split
  · next hn =>
    have hd : digits? (Nat.pow 2 (bits - 1) + 1) (ofNat n.natAbs) = some n.natAbs :=
      digits?_ofNat (by omega)
    have hval : -(n.natAbs : Int) = n := by omega
    show ((digits? (Nat.pow 2 (bits - 1) + 1) (ofNat n.natAbs)).bind
      fun k => some (k : Int)).map (fun k => -k) = some n
    rw [hd]
    show some (-(n.natAbs : Int)) = some n
    rw [hval]
  · next hn =>
    obtain ⟨c, rest, htext, hc⟩ := head_ofNat n.natAbs
    have hd : digits? (Nat.pow 2 (bits - 1)) (ofNat n.natAbs) = some n.natAbs :=
      digits?_ofNat (by omega)
    rw [htext] at hd ⊢
    have hval : (n.natAbs : Int) = n := by omega
    unfold signed?
    split
    · next he =>
      obtain ⟨rfl, -⟩ := List.cons.inj he
      exact absurd hc (by decide)
    · next he =>
      obtain ⟨rfl, -⟩ := List.cons.inj he
      exact absurd hc (by decide)
    · show ((digits? (Nat.pow 2 (bits - 1)) (c :: rest)).bind fun k => some (k : Int)).map
        (fun k => k) = some n
      rw [hd]
      show some (n.natAbs : Int) = some n
      rw [hval]

end Bourse.Text

namespace Bourse.Csv

/-! ## The fields of records -/

theorem plain_word (n : UInt64) : Text.Plain (word n) :=
  Text.plain_ofNat _

theorem plain_int (n : Int64) : Text.Plain (int n) :=
  Text.plain_ofInt _

theorem length_word_le (n : UInt64) : (word n).length ≤ 21 :=
  Nat.le_trans (Text.length_ofNat_le (k := 20) (by decide)
    (Nat.lt_trans n.toNat_lt (by decide))) (by decide)

theorem length_int_le (n : Int64) : (int n).length ≤ 21 := by
  have hlo := n.le_toInt
  have hhi := n.toInt_lt
  have hsmall : n.toInt.natAbs < 100000000000000000000 := by omega
  have hd : (Text.ofNat n.toInt.natAbs).length ≤ 20 := Text.length_ofNat_le (by decide) hsmall
  unfold int Text.ofInt
  split
  · exact Nat.succ_le_succ hd
  · omega

@[simp] theorem word?_word (n : UInt64) : Text.word? (word n) = some n := by
  rw [Text.word?, word, Text.unsigned?_ofNat n.toNat_lt, Option.map_some, UInt64.ofNat_toNat]

@[simp] theorem int64?_int (n : Int64) : Text.int64? (int n) = some n := by
  rw [Text.int64?, int, Text.signed?_ofInt n.le_toInt n.toInt_lt, Option.map_some,
    Int64.ofInt_toInt]

@[simp] theorem unsigned?_idx (n : UInt16) : Text.unsigned? 16 (Text.ofNat n.toNat) = some n.toNat :=
  Text.unsigned?_ofNat n.toNat_lt

@[simp] theorem side?_toChar (s : Side) : side? [s.toChar] = some s :=
  Side.ofChar?_toChar s

end Bourse.Csv
