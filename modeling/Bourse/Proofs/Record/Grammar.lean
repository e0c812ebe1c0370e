import Mathlib.Data.List.DropRight
import Mathlib.Data.List.Forall2
import Bourse.Proofs.Record.Codec
import Bourse.Record.Request

/-!
# The grammar of requests

What a line has to look like to be read as a request, told without the reader: which texts stand
between its commas, what is left of them without the white space around, and which of those are
numbers. `Request.ofLine_grammar` says that the reader takes these lines, with these values, and no
others.
-/

namespace Bourse

namespace Text

/-! ## White space around a text -/

/-- Nothing but white space. -/
def Blank (text : List Char) : Prop :=
  ∀ c ∈ text, isBlank c

/-- A text that neither begins nor ends with white space. -/
structure Trimmed (text : List Char) : Prop where
  head : ∀ c ∈ text.head?, isBlank c = false
  last : ∀ c ∈ text.getLast?, isBlank c = false

/-- A text stands alone in another one, with white space around it. -/
def Trims (text t : List Char) : Prop :=
  Trimmed t ∧ ∃ before after, Blank before ∧ Blank after ∧ text = before ++ t ++ after

variable {text t before after line : List Char} {pieces fs : List (List Char)}

theorem trim_eq_rdropWhile (text : List Char) :
    trim text = (text.dropWhile isBlank).rdropWhile isBlank :=
  rfl

/-- White space around a text does not count. -/
theorem trim_pad (hb : Blank before) (ha : Blank after) :
    trim (before ++ text ++ after) = trim text := by
  have hrev : ∀ c ∈ after.reverse, isBlank c := fun c hc => ha c (List.mem_reverse.1 hc)
  rw [trim, trim, List.append_assoc, List.dropWhile_append_of_pos hb, List.dropWhile_append]
  split
  · next hempty =>
    rw [List.isEmpty_iff.1 hempty, List.dropWhile_eq_nil_iff.2 ha]
  · rw [List.reverse_append, List.dropWhile_append_of_pos hrev]

theorem Trimmed.trim (h : Trimmed t) : trim t = t := by
  have hfront : t.dropWhile isBlank = t := by
    cases t with
    | nil => rfl
    | cons c rest => exact List.dropWhile_cons_of_neg (by simp [h.head c rfl])
  rw [trim_eq_rdropWhile, hfront, List.rdropWhile_eq_self_iff]
  intro hne
  rw [h.last _ (List.getLast?_eq_some_getLast hne)]
  exact Bool.false_ne_true

theorem trimmed_trim (text : List Char) : Trimmed (Text.trim text) := by
  rw [trim_eq_rdropWhile]
  refine ⟨fun c hc => ?_, fun c hc => ?_⟩
  · -- What begins the text still begins it once its end is cut off.
    obtain ⟨rest, hrest⟩ := List.head?_eq_some_iff.1 hc
    obtain ⟨more, hmore⟩ := List.rdropWhile_prefix isBlank (text.dropWhile isBlank)
    have hhead := List.head?_dropWhile_not isBlank text
    rw [← hmore, hrest] at hhead
    exact hhead
  · have hne := List.ne_nil_of_mem (List.mem_of_getLast? hc)
    obtain rfl : _ = c := Option.some.inj ((List.getLast?_eq_some_getLast hne).symm.trans hc)
    exact Bool.eq_false_iff.2 (List.rdropWhile_last_not isBlank _ hne)

theorem trims_trim (text : List Char) : Trims text (Text.trim text) := by
  refine ⟨trimmed_trim text, text.takeWhile isBlank,
    ((text.dropWhile isBlank).reverse.takeWhile isBlank).reverse, ?_, ?_, ?_⟩
  · exact fun c hc => List.mem_takeWhile_imp hc
  · exact fun c hc => List.mem_takeWhile_imp (List.mem_reverse.1 hc)
  · rw [Text.trim, List.append_assoc, ← List.reverse_append, List.takeWhile_append_dropWhile,
      List.reverse_reverse, List.takeWhile_append_dropWhile]

theorem trims_iff : Trims text t ↔ trim text = t := by
  constructor
  · rintro ⟨ht, before, after, hb, ha, rfl⟩
    rw [trim_pad hb ha, ht.trim]
  · rintro rfl
    exact trims_trim text

/-! ## Texts between commas -/

/-- The texts between the commas of a line. -/
structure Pieces (line : List Char) (pieces : List (List Char)) : Prop where
  line : line = [','].intercalate pieces
  ne_nil : pieces ≠ []
  commaFree : ∀ p ∈ pieces, ',' ∉ p

/-- The fields of a line stand between its commas, with white space around them. -/
def HasFields (line : List Char) (fs : List (List Char)) : Prop :=
  ∃ pieces, Pieces line pieces ∧ List.Forall₂ Trims pieces fs

/-- White space is added to a line around its fields. -/
def Padded (line line' : List Char) : Prop :=
  ∃ pieces pieces', Pieces line pieces ∧ Pieces line' pieces' ∧
    List.Forall₂ (fun p p' => ∃ before after, Blank before ∧ Blank after ∧
      p' = before ++ p ++ after) pieces pieces'

theorem splitCommas_eq_splitOn (line : List Char) : splitCommas line = line.splitOn ',' := by
  induction line with
  | nil => rfl
  | cons c rest ih =>
    rw [splitCommas, ih, List.splitOn, List.splitOn, List.splitOnP_cons_eq_if_modifyHead]
    by_cases hc : c = ','
    · rw [if_pos hc, if_pos (beq_iff_eq.2 hc)]
    · rw [if_neg hc, if_neg (mt beq_iff_eq.1 hc)]
      cases h : rest.splitOnP (· == ',') with
      | nil => exact absurd h (List.splitOnP_ne_nil _ _)
      | cons piece pieces => rfl

theorem comma_not_mem {p : List Char} (h : p ∈ splitCommas line) : ',' ∉ p := by
  induction line generalizing p with
  | nil => simp_all [splitCommas]
  | cons c rest ih =>
    rw [splitCommas] at h
    split at h
    · rcases List.mem_cons.1 h with rfl | h
      · exact List.not_mem_nil
      · exact ih h
    · next hc =>
      split at h
      · next hnil => exact absurd hnil (splitCommas_ne_nil rest)
      · next piece pieces heq =>
        rw [heq] at ih
        rcases List.mem_cons.1 h with rfl | h
        · exact List.not_mem_cons_of_ne_of_not_mem (Ne.symm hc) (ih List.mem_cons_self)
        · exact ih (List.mem_cons_of_mem _ h)

theorem pieces_iff : Pieces line pieces ↔ splitCommas line = pieces := by
  rw [splitCommas_eq_splitOn]
  constructor
  · rintro ⟨rfl, hne, hfree⟩
    exact List.splitOn_intercalate ',' hfree hne
  · rintro rfl
    refine ⟨(List.intercalate_splitOn ',').symm, ?_, ?_⟩
    · rw [← splitCommas_eq_splitOn]
      exact splitCommas_ne_nil line
    · rw [← splitCommas_eq_splitOn]
      exact fun p hp => comma_not_mem hp

theorem hasFields_iff : HasFields line fs ↔ fields line = fs := by
  have htrim (pieces : List (List Char)) :
      List.Forall₂ Trims pieces fs ↔ pieces.map trim = fs := by
    have heq : Trims = fun text t => trim text = t := funext₂ fun _ _ => propext trims_iff
    rw [heq, ← List.forall₂_map_left_iff, List.forall₂_eq_eq_eq]
  constructor
  · rintro ⟨pieces, hpieces, hall⟩
    rw [fields, pieces_iff.1 hpieces, ← htrim]
    exact hall
  · intro heq
    exact ⟨splitCommas line, pieces_iff.2 rfl, (htrim _).2 heq⟩

/-- White space around fields does not count. -/
theorem Padded.fields {line' : List Char} (h : Padded line line') : fields line' = fields line := by
  obtain ⟨pieces, pieces', hpieces, hpieces', hpad⟩ := h
  rw [Text.fields, Text.fields, pieces_iff.1 hpieces, pieces_iff.1 hpieces']
  clear hpieces hpieces'
  induction hpad with
  | nil => rfl
  | cons hpad hrest ih =>
    obtain ⟨before, after, hb, ha, rfl⟩ := hpad
    rw [List.map_cons, List.map_cons, trim_pad hb ha, ih]

theorem Blank.comma_not_mem (h : Blank text) : ',' ∉ text := fun hc =>
  absurd (h ',' hc) (by decide)

theorem Blank.nil : Blank [] := fun _ hc => absurd hc List.not_mem_nil

/-- White space before a line stands before its first piece. -/
theorem fields_pad_front (hb : Blank before) (line : List Char) :
    Text.fields (before ++ line) = Text.fields line := by
  cases hsplit : splitCommas line with
  | nil => exact absurd hsplit (splitCommas_ne_nil line)
  | cons p pieces =>
    obtain ⟨hline, -, hfree⟩ := pieces_iff.2 hsplit
    have hpieces : Pieces (before ++ line) ((before ++ p) :: pieces) := by
      refine ⟨?_, List.cons_ne_nil _ _, ?_⟩
      · rw [hline]
        cases pieces <;> simp
      · refine List.forall_mem_cons.2 ⟨?_, (List.forall_mem_cons.1 hfree).2⟩
        rw [List.mem_append, not_or]
        exact ⟨hb.comma_not_mem, hfree p List.mem_cons_self⟩
    have htrim : trim (before ++ p ++ []) = trim p := trim_pad hb Blank.nil
    rw [List.append_nil] at htrim
    rw [Text.fields, Text.fields, pieces_iff.1 hpieces, hsplit, List.map_cons, List.map_cons, htrim]

theorem intercalate_concat (pieces : List (List Char)) (p after : List Char) :
    [','].intercalate (pieces ++ [p ++ after]) = [','].intercalate (pieces ++ [p]) ++ after := by
  induction pieces with
  | nil => simp
  | cons q pieces ih =>
    rw [List.cons_append, List.cons_append, List.intercalate_cons_of_ne_nil (by simp), ih,
      List.intercalate_cons_of_ne_nil (by simp)]
    simp only [List.append_assoc]

/-- White space behind a line stands behind its last piece. -/
theorem fields_pad_last (ha : Blank after) (line : List Char) :
    Text.fields (line ++ after) = Text.fields line := by
  rcases List.eq_nil_or_concat (splitCommas line) with hnil | ⟨pieces, p, hsplit⟩
  · exact absurd hnil (splitCommas_ne_nil line)
  · rw [List.concat_eq_append] at hsplit
    obtain ⟨hline, -, hfree⟩ := pieces_iff.2 hsplit
    have hpieces : Pieces (line ++ after) (pieces ++ [p ++ after]) := by
      refine ⟨?_, by simp, ?_⟩
      · rw [intercalate_concat, ← hline]
      · intro q hq
        rcases List.mem_append.1 hq with hq | hq
        · exact hfree q (List.mem_append_left _ hq)
        · obtain rfl := List.mem_singleton.1 hq
          rw [List.mem_append, not_or]
          exact ⟨hfree p (by simp), ha.comma_not_mem⟩
    have htrim : trim ([] ++ p ++ after) = trim p := trim_pad Blank.nil ha
    rw [List.nil_append] at htrim
    rw [Text.fields, Text.fields, pieces_iff.1 hpieces, hsplit, List.map_append, List.map_append,
      List.map_singleton, List.map_singleton, htrim]

/-- It makes no difference whether a line is trimmed before it is split. -/
theorem fields_trim (line : List Char) : Text.fields (trim line) = Text.fields line := by
  obtain ⟨-, before, after, hb, ha, heq⟩ := trims_trim line
  conv_rhs => rw [heq, fields_pad_last ha, fields_pad_front hb]

/-- A line is split into the fields that it was made of, even if there is white space in them. -/
theorem fields_intercalate (hne : fs ≠ []) (h : ∀ f ∈ fs, Trimmed f ∧ ',' ∉ f) :
    Text.fields ([','].intercalate fs) = fs := by
  have hpieces : Pieces ([','].intercalate fs) fs := ⟨rfl, hne, fun f hf => (h f hf).2⟩
  rw [Text.fields, pieces_iff.1 hpieces]
  refine (List.map_congr_left fun f hf => ?_).trans (List.map_id' fs)
  exact (h f hf).1.trim

theorem Plain.trimmed (h : Plain text) : Trimmed text where
  head c hc := (h c (List.mem_of_head? hc)).2
  last c hc := (h c (List.mem_of_getLast? hc)).2

theorem Plain.comma_not_mem (h : Plain text) : ',' ∉ text :=
  fun hc => (h ',' hc).1 rfl

theorem fields_cons_comma (rest : List Char) :
    Text.fields (',' :: rest) = [] :: Text.fields rest := by
  rw [Text.fields, splitCommas, if_pos rfl]
  rfl

theorem trim_cons {c : Char} (hc : isBlank c = false) (rest : List Char) :
    ∃ more, trim (c :: rest) = c :: more := by
  have hc' : ¬ isBlank c := by simp [hc]
  rw [trim, List.dropWhile_cons_of_neg hc', List.reverse_cons, List.dropWhile_append]
  split
  · exact ⟨[], by rw [List.dropWhile_cons_of_neg hc']; rfl⟩
  · exact ⟨_, by rw [List.reverse_append]; rfl⟩

/-- What begins a line and is neither white space nor a comma begins its first field. -/
theorem fields_cons {c : Char} (hc : isBlank c = false) (hcomma : c ≠ ',') (rest : List Char) :
    ∃ f fs, Text.fields (c :: rest) = (c :: f) :: fs := by
  rw [Text.fields, splitCommas, if_neg hcomma]
  split
  · obtain ⟨f, hf⟩ := trim_cons hc []
    exact ⟨f, [], by rw [List.map_singleton, hf]⟩
  · next piece pieces _ =>
    obtain ⟨f, hf⟩ := trim_cons hc piece
    exact ⟨f, pieces.map trim, by rw [List.map_cons, hf]⟩

/-! ## Numbers -/

/-- A number in decimal: one or more of the ten digits, and nothing else. -/
def Decimal (text : List Char) (n : Nat) : Prop :=
  text ≠ [] ∧ (∀ c ∈ text, c.isDigit) ∧ Nat.ofDigitChars 10 text 0 = n

/-- A number of 64 bits without sign, or with a plus. -/
def Unsigned (text : List Char) (n : UInt64) : Prop :=
  ∃ digits, (text = digits ∨ text = '+' :: digits) ∧ Decimal digits n.toNat

/-- A number of 64 bits in two's complement, with or without sign. -/
def Signed (text : List Char) (n : Int64) : Prop :=
  ∃ digits k, Decimal digits k ∧
    ((text = digits ∨ text = '+' :: digits) ∧ n.toInt = k ∨ text = '-' :: digits ∧ n.toInt = -k)

theorem digits?_iff {bound n : Nat} (h : 0 < bound) :
    digits? bound text = some n ↔ Decimal text n ∧ n < bound := by
  rw [digits?_eq bound text h, Decimal, Option.ite_none_right_eq_some, Option.some_inj,
    List.all_eq_true]
  constructor
  · rintro ⟨⟨hne, hdigits, hlt⟩, rfl⟩
    exact ⟨⟨hne, hdigits, rfl⟩, hlt⟩
  · rintro ⟨⟨hne, hdigits, rfl⟩, hlt⟩
    exact ⟨⟨hne, hdigits, hlt⟩, rfl⟩

theorem Decimal.isDigit {c : Char} {rest : List Char} {n : Nat} (h : Decimal (c :: rest) n) :
    c.isDigit :=
  h.2.1 c List.mem_cons_self

theorem unsigned?_iff {bits n : Nat} : unsigned? bits text = some n ↔
    ∃ digits, (text = digits ∨ text = '+' :: digits) ∧ Decimal digits n ∧ n < Nat.pow 2 bits := by
  have hbound : 0 < Nat.pow 2 bits := Nat.pow_pos (by decide)
  unfold unsigned?
  split
  · next rest =>
    rw [digits?_iff hbound]
    constructor
    · exact fun h => ⟨rest, .inr rfl, h⟩
    · rintro ⟨digits, rfl | heq, hdec, hlt⟩
      · exact absurd hdec.isDigit (by decide)
      · obtain ⟨-, rfl⟩ := List.cons.inj heq
        exact ⟨hdec, hlt⟩
  · next hplus =>
    rw [digits?_iff hbound]
    constructor
    · exact fun h => ⟨text, .inl rfl, h⟩
    · rintro ⟨digits, rfl | heq, hdec, hlt⟩
      · exact ⟨hdec, hlt⟩
      · exact absurd heq (hplus digits)

theorem map_digits?_iff {bound : Nat} {f : Int → Int} {n : Int} (h : 0 < bound) :
    ((digits? bound text).bind fun k => some (k : Int)).map f = some n ↔
      ∃ k : Nat, Decimal text k ∧ k < bound ∧ n = f k := by
  constructor
  · intro hmap
    obtain ⟨z, hz, rfl⟩ := Option.map_eq_some_iff.1 hmap
    obtain ⟨k, hk, hkz⟩ := Option.bind_eq_some_iff.1 hz
    obtain rfl := Option.some.inj hkz
    obtain ⟨hdec, hlt⟩ := (digits?_iff h).1 hk
    exact ⟨k, hdec, hlt, rfl⟩
  · rintro ⟨k, hdec, hlt, rfl⟩
    rw [(digits?_iff h).2 ⟨hdec, hlt⟩]
    rfl

theorem signed?_iff {bits : Nat} {n : Int} : signed? bits text = some n ↔
    ∃ digits k, Decimal digits k ∧
      ((text = digits ∨ text = '+' :: digits) ∧ k < Nat.pow 2 (bits - 1) ∧ n = k ∨
        text = '-' :: digits ∧ k < Nat.pow 2 (bits - 1) + 1 ∧ n = -k) := by
  have hbound : 0 < Nat.pow 2 (bits - 1) := Nat.pow_pos (by decide)
  unfold signed?
  split
  · next rest =>
    refine (map_digits?_iff hbound).trans ?_
    constructor
    · exact fun ⟨k, hdec, h⟩ => ⟨rest, k, hdec, .inl ⟨.inr rfl, h⟩⟩
    · rintro ⟨digits, k, hdec, ⟨rfl | heq, h⟩ | ⟨heq, h⟩⟩
      · exact absurd hdec.isDigit (by decide)
      · obtain ⟨-, rfl⟩ := List.cons.inj heq
        exact ⟨k, hdec, h⟩
      · exact absurd (List.cons.inj heq).1 (by decide)
  · next rest =>
    refine (map_digits?_iff (Nat.succ_pos _)).trans ?_
    constructor
    · exact fun ⟨k, hdec, h⟩ => ⟨rest, k, hdec, .inr ⟨rfl, h⟩⟩
    · rintro ⟨digits, k, hdec, ⟨rfl | heq, h⟩ | ⟨heq, h⟩⟩
      · exact absurd hdec.isDigit (by decide)
      · exact absurd (List.cons.inj heq).1 (by decide)
      · obtain ⟨-, rfl⟩ := List.cons.inj heq
        exact ⟨k, hdec, h⟩
  · next hplus hminus =>
    refine (map_digits?_iff hbound).trans ?_
    constructor
    · exact fun ⟨k, hdec, h⟩ => ⟨text, k, hdec, .inl ⟨.inl rfl, h⟩⟩
    · rintro ⟨digits, k, hdec, ⟨rfl | heq, h⟩ | ⟨heq, h⟩⟩
      · exact ⟨k, hdec, h⟩
      · exact absurd heq (hplus digits)
      · exact absurd heq (hminus digits)

theorem word?_iff {n : UInt64} : word? text = some n ↔ Unsigned text n := by
  rw [word?, Option.map_eq_some_iff]
  constructor
  · rintro ⟨k, hk, rfl⟩
    obtain ⟨digits, htext, hdec, hlt⟩ := unsigned?_iff.1 hk
    refine ⟨digits, htext, ?_⟩
    rwa [UInt64.toNat_ofNat_of_lt' hlt]
  · rintro ⟨digits, htext, hdec⟩
    exact ⟨n.toNat, unsigned?_iff.2 ⟨digits, htext, hdec, n.toNat_lt⟩, UInt64.ofNat_toNat⟩

theorem int64?_iff {n : Int64} : int64? text = some n ↔ Signed text n := by
  have hhalf : Nat.pow 2 (64 - 1) = 9223372036854775808 := by decide
  rw [int64?, Option.map_eq_some_iff]
  constructor
  · rintro ⟨z, hz, rfl⟩
    obtain ⟨digits, k, hdec, ⟨htext, hk, rfl⟩ | ⟨htext, hk, rfl⟩⟩ := signed?_iff.1 hz
    · refine ⟨digits, k, hdec, .inl ⟨htext, Int64.toInt_ofInt_of_le ?_ ?_⟩⟩ <;> omega
    · refine ⟨digits, k, hdec, .inr ⟨htext, Int64.toInt_ofInt_of_le ?_ ?_⟩⟩ <;> omega
  · have hle := n.le_toInt
    have hlt := n.toInt_lt
    rintro ⟨digits, k, hdec, ⟨htext, hn⟩ | ⟨htext, hn⟩⟩
    · have hk : k < Nat.pow 2 (64 - 1) := by omega
      exact ⟨n.toInt, signed?_iff.2 ⟨digits, k, hdec, .inl ⟨htext, hk, hn⟩⟩, Int64.ofInt_toInt n⟩
    · have hk : k < Nat.pow 2 (64 - 1) + 1 := by omega
      exact ⟨n.toInt, signed?_iff.2 ⟨digits, k, hdec, .inr ⟨htext, hk, hn⟩⟩, Int64.ofInt_toInt n⟩

end Text

namespace Csv

/-! ## Results that depend on the fields -/

/-- Results of reading two lines: they are the same, or errors for the same reason, each with its
own line. -/
inductive Alike (line line' : List Char) {α : Type} :
    Except RecordError α → Except RecordError α → Prop
  | ok (a : α) : Alike line line' (.ok a) (.ok a)
  | error (reason : String) : Alike line line' (.error (.malformed (String.ofList line) reason))
      (.error (.malformed (String.ofList line') reason))

variable {α β : Type} {line line' : List Char}

theorem alike_expect (reason : String) (read : Option α) :
    Alike line line' (expect line reason read) (expect line' reason read) := by
  cases read with
  | none => exact .error reason
  | some a => exact .ok a

theorem Alike.bind {x y : Except RecordError α} {f g : α → Except RecordError β}
    (h : Alike line line' x y) (hf : ∀ a, Alike line line' (f a) (g a)) :
    Alike line line' (x >>= f) (y >>= g) := by
  cases h with
  | ok a => exact hf a
  | error reason => exact .error reason

theorem Alike.eq {x y : Except RecordError α} (h : Alike line line x y) : x = y := by
  cases h with
  | ok a => rfl
  | error reason => rfl

theorem expect_bind_eq_ok {reason : String} {read : Option α} {f : α → Except RecordError β}
    {b : β} : (expect line reason read >>= f) = .ok b ↔ ∃ a, read = some a ∧ f a = .ok b := by
  cases read with
  | none =>
    refine iff_of_false (fun h => ?_) (by simp)
    cases h
  | some a =>
    refine ⟨fun h => ⟨a, rfl, h⟩, ?_⟩
    rintro ⟨a', ha, h⟩
    obtain rfl := Option.some.inj ha
    exact h

theorem side?_iff {field : List Char} {s : Side} : side? field = some s ↔ field = [s.toChar] := by
  constructor
  · rcases field with _ | ⟨c, _ | ⟨d, rest⟩⟩
    · exact fun h => nomatch h
    · intro h
      rw [Side.toChar_of_ofChar? h]
    · exact fun h => nomatch h
  · rintro rfl
    exact side?_toChar s

end Csv

namespace Request

/-! ## The grammar -/

/-- The fields of a request, and what they say. -/
inductive Grammar : List (List Char) → Request → Prop
  | submit {symbol request id user price qty : List Char} {side : Side} {r i u : UInt64}
      {p q : Int64} (hrequest : Text.Unsigned request r) (hid : Text.Unsigned id i)
      (huser : Text.Unsigned user u) (hprice : Text.Signed price p) (hqty : Text.Signed qty q) :
      Grammar [['N'], symbol, request, id, user, [side.toChar], price, qty]
        { symbol := String.ofList symbol
          command :=
            { request := r
              time := 0
              action := .submit { id := i, user := u, side, price := p, qty := q } } }
  | cancel {symbol request target : List Char} {r i : UInt64} (hrequest : Text.Unsigned request r)
      (htarget : Text.Unsigned target i) :
      Grammar [['C'], symbol, request, target]
        { symbol := String.ofList symbol
          command := { request := r, time := 0, action := .cancel i } }

variable {line line' : List Char} {r : Request}

/-- Whether a line says nothing can be seen from its fields. -/
theorem isSkipped_iff_fields : isSkipped line ↔
    Text.fields line = [[]] ∨ ∃ f fs, Text.fields line = ('#' :: f) :: fs := by
  have hhead := (Text.trimmed_trim line).head
  rw [isSkipped, ← Text.fields_trim]
  cases htrim : Text.trim line with
  | nil => exact iff_of_true rfl (.inl rfl)
  | cons c rest =>
    rw [htrim] at hhead
    have hc := hhead c rfl
    show decide (c = '#') = true ↔ _
    rw [decide_eq_true_eq]
    by_cases hcomma : c = ','
    · rw [hcomma, Text.fields_cons_comma]
      refine iff_of_false (by decide) ?_
      simp [Text.fields, Text.splitCommas_ne_nil]
    · obtain ⟨f, fs, hfields⟩ := Text.fields_cons hc hcomma rest
      rw [hfields]
      simp

/-- What is read is nothing, or what the fields say. -/
theorem of_ofLine {read : Option Request} (h : ofLine line = .ok read) :
    isSkipped line ∧ read = none ∨ ∃ r, read = some r ∧ Grammar (Text.fields line) r := by
  rw [← Text.fields_trim]
  unfold ofLine at h
  split at h
  · next hskip =>
    cases h
    exact .inl ⟨hskip, rfl⟩
  · right
    dsimp only at h
    split at h
    · next rest heq =>
      rw [heq]
      split at h
      · next symbol request id user side price qty =>
        obtain ⟨r, hrequest, h⟩ := Csv.expect_bind_eq_ok.1 h
        obtain ⟨i, hid, h⟩ := Csv.expect_bind_eq_ok.1 h
        obtain ⟨u, huser, h⟩ := Csv.expect_bind_eq_ok.1 h
        obtain ⟨s, hside, h⟩ := Csv.expect_bind_eq_ok.1 h
        obtain ⟨p, hprice, h⟩ := Csv.expect_bind_eq_ok.1 h
        obtain ⟨q, hqty, h⟩ := Csv.expect_bind_eq_ok.1 h
        cases h
        rw [Csv.side?_iff.1 hside]
        exact ⟨_, rfl, .submit (Text.word?_iff.1 hrequest) (Text.word?_iff.1 hid)
          (Text.word?_iff.1 huser) (Text.int64?_iff.1 hprice) (Text.int64?_iff.1 hqty)⟩
      · cases h
    · next rest heq =>
      rw [heq]
      split at h
      · next symbol request target =>
        obtain ⟨r, hrequest, h⟩ := Csv.expect_bind_eq_ok.1 h
        obtain ⟨i, htarget, h⟩ := Csv.expect_bind_eq_ok.1 h
        cases h
        exact ⟨_, rfl, .cancel (Text.word?_iff.1 hrequest) (Text.word?_iff.1 htarget)⟩
      · cases h
    · cases h

theorem isSkipped_iff : isSkipped line ↔
    ∃ t, Text.Trims line t ∧ (t = [] ∨ ∃ rest, t = '#' :: rest) := by
  simp only [Text.trims_iff, exists_eq_left']
  rw [isSkipped]
  cases Text.trim line with
  | nil => simp
  | cons c rest => simp

theorem ofLine_eq_none : ofLine line = .ok none ↔ isSkipped line := by
  constructor
  · intro h
    rcases of_ofLine h with ⟨hskip, -⟩ | ⟨r, hr, -⟩
    · exact hskip
    · cases hr
  · intro h
    unfold ofLine
    rw [if_pos h]
    rfl

theorem ofLine_of_grammar (h : Grammar (Text.fields line) r) : ofLine line = .ok (some r) := by
  have hskip : ¬ isSkipped line := by
    rw [isSkipped_iff_fields]
    generalize Text.fields line = fs at h
    cases h <;> simp
  rw [← Text.fields_trim] at h
  generalize hfs : Text.fields (Text.trim line) = fs at h
  unfold ofLine
  rw [if_neg hskip]
  cases h with
  | submit hrequest hid huser hprice hqty =>
    simp only [hfs, Text.word?_iff.2 hrequest, Text.word?_iff.2 hid, Text.word?_iff.2 huser,
      Csv.side?_toChar, Text.int64?_iff.2 hprice, Text.int64?_iff.2 hqty, Csv.expect_some]
    rfl
  | cancel hrequest htarget =>
    simp only [hfs, Text.word?_iff.2 hrequest, Text.word?_iff.2 htarget, Csv.expect_some]
    rfl

/-- Lines with the same fields are read alike. -/
theorem alike_ofLine (h : Text.fields line' = Text.fields line) :
    Csv.Alike (Text.trim line) (Text.trim line') (ofLine line) (ofLine line') := by
  have hskip : isSkipped line' = isSkipped line := by
    rw [Bool.eq_iff_iff, isSkipped_iff_fields, isSkipped_iff_fields, h]
  unfold ofLine
  rw [hskip]
  split
  · exact .ok none
  · dsimp only
    rw [Text.fields_trim, Text.fields_trim, h]
    split
    · split
      · refine (Csv.alike_expect ..).bind fun r => ?_
        refine (Csv.alike_expect ..).bind fun i => ?_
        refine (Csv.alike_expect ..).bind fun u => ?_
        refine (Csv.alike_expect ..).bind fun s => ?_
        refine (Csv.alike_expect ..).bind fun p => ?_
        exact (Csv.alike_expect ..).bind fun q => .ok _
      · exact Csv.alike_expect ..
    · split
      · refine (Csv.alike_expect ..).bind fun r => ?_
        exact (Csv.alike_expect ..).bind fun i => .ok _
      · exact Csv.alike_expect ..
    · exact Csv.alike_expect ..

theorem ofLine_eq_some : ofLine line = .ok (some r) ↔ Grammar (Text.fields line) r := by
  refine ⟨fun h => ?_, ofLine_of_grammar⟩
  rcases of_ofLine h with ⟨-, hr⟩ | ⟨r', hr, hgrammar⟩
  · cases hr
  · obtain rfl := Option.some.inj hr
    exact hgrammar

/-- What is written of a request, if its time is zero. -/
theorem exists_grammar (htime : r.command.time = 0) : ∃ fs, Grammar fs r ∧ fs ≠ [] ∧
    ∀ f ∈ fs, f = r.symbol.toList ∨ Text.Plain f := by
  obtain ⟨symbol, request, time, action⟩ := r
  obtain rfl : time = 0 := htime
  have hword (n : UInt64) : Text.Unsigned (Csv.word n) n := Text.word?_iff.1 (Csv.word?_word n)
  have hint (n : Int64) : Text.Signed (Csv.int n) n := Text.int64?_iff.1 (Csv.int64?_int n)
  cases action with
  | submit o =>
    have h : Grammar [['N'], symbol.toList, Csv.word request, Csv.word o.id, Csv.word o.user,
        [o.side.toChar], Csv.int o.price, Csv.int o.qty] _ :=
      .submit (hword request) (hword o.id) (hword o.user) (hint o.price) (hint o.qty)
    rw [String.ofList_toList] at h
    refine ⟨_, h, List.cons_ne_nil _ _, ?_⟩
    have htag : Text.Plain ['N'] := Csv.plain_letter (by decide)
    simp [htag, Csv.plain_word, Csv.plain_int, Csv.plain_side]
  | cancel target =>
    have h : Grammar [['C'], symbol.toList, Csv.word request, Csv.word target] _ :=
      .cancel (hword request) (hword target)
    rw [String.ofList_toList] at h
    refine ⟨_, h, List.cons_ne_nil _ _, ?_⟩
    have htag : Text.Plain ['C'] := Csv.plain_letter (by decide)
    simp [htag, Csv.plain_word]

/-- A request without a time is a line if its symbol can be a field. -/
theorem exists_line (hsymbol : Text.Trimmed r.symbol.toList) (hcomma : ',' ∉ r.symbol.toList)
    (htime : r.command.time = 0) : ∃ line, ofLine line = .ok (some r) := by
  obtain ⟨fs, hgrammar, hne, hfs⟩ := exists_grammar htime
  refine ⟨[','].intercalate fs, ofLine_eq_some.2 ?_⟩
  rwa [Text.fields_intercalate hne fun f hf => ?_]
  rcases hfs f hf with rfl | hplain
  · exact ⟨hsymbol, hcomma⟩
  · exact ⟨hplain.trimmed, hplain.comma_not_mem⟩

/-- **The reader accepts its grammar and nothing else.** A line says nothing exactly if it is blank
or a comment; it is a request exactly if its fields are those of that request; and otherwise there
is an error with the line, without the white space around it. So white space around fields never
changes what is read, nor why nothing is: each error has its own line, and with white space around
the whole line only, that is the same as well. Every request without a time is some line, if its
symbol can be a field. -/
theorem ofLine_grammar :
    (∀ line, ofLine line = .ok none ↔
      ∃ t, Text.Trims line t ∧ (t = [] ∨ ∃ rest, t = '#' :: rest)) ∧
    (∀ line r, ofLine line = .ok (some r) ↔ ∃ fs, Text.HasFields line fs ∧ Grammar fs r) ∧
    (∀ line, (∃ read, ofLine line = .ok read) ∨ ∃ t reason, Text.Trims line t ∧
      ofLine line = .error (.malformed (String.ofList t) reason)) ∧
    (∀ line line', Text.Padded line line' → ∃ t t', Text.Trims line t ∧ Text.Trims line' t' ∧
      Csv.Alike t t' (ofLine line) (ofLine line')) ∧
    (∀ before line after, Text.Blank before → Text.Blank after →
      ofLine (before ++ line ++ after) = ofLine line) ∧
    ∀ r : Request, Text.Trimmed r.symbol.toList → ',' ∉ r.symbol.toList → r.command.time = 0 →
      ∃ line, ofLine line = .ok (some r) := by
  refine ⟨fun line => ?_, fun line r => ?_, fun line => ?_, fun line line' h => ?_,
    fun before line after hb ha => ?_, fun r => exists_line⟩
  · rw [ofLine_eq_none, isSkipped_iff]
  · simp only [ofLine_eq_some, Text.hasFields_iff, exists_eq_left']
  · have h := alike_ofLine (rfl : Text.fields line = Text.fields line)
    generalize ofLine line = read at h
    cases h with
    | ok read => exact .inl ⟨read, rfl⟩
    | error reason => exact .inr ⟨Text.trim line, reason, Text.trims_trim line, rfl⟩
  · exact ⟨_, _, Text.trims_trim line, Text.trims_trim line', alike_ofLine h.fields⟩
  · have hfields : Text.fields (before ++ line ++ after) = Text.fields line := by
      rw [Text.fields_pad_last ha, Text.fields_pad_front hb]
    have h := alike_ofLine hfields
    rw [Text.trim_pad hb ha] at h
    exact h.eq.symm

/-- A symbol may have spaces in it, and a number a plus sign and leading zeros. -/
example : ofLine "\u3000N, BTC USD ,+1,007,3\t,S,-5,2 ".toList = .ok (some
    { symbol := "BTC USD"
      command :=
        { request := 1
          action := .submit { id := 7, user := 3, side := .sell, price := -5, qty := 2 } } }) := by
  decide

end Request

end Bourse
