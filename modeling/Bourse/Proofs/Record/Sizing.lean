import Mathlib.Algebra.GroupWithZero.Nat
import Mathlib.Algebra.Order.BigOperators.Group.List
import Mathlib.Algebra.Order.Group.Nat
import Bourse.Proofs.Record.Codec

/-!
# How long records are

A binary record has one of two lengths. A line of text is longer or shorter with its numbers; the
longest line is that of a command to submit an order. `Format.longest` bounds both kinds of records,
so a reader that accepts as much can read whatever is written.
-/

namespace Bourse

namespace Text

/-- Each character takes up one byte. -/
def Ascii (text : List Char) : Prop :=
  ∀ c ∈ text, c.toNat < 128

theorem ascii_letter {c : Char} (h : c.toNat < 128) : Ascii [c] := by
  intro d hd
  rwa [List.mem_singleton.1 hd]

theorem ascii_ofNat (n : Nat) : Ascii (ofNat n) := by
  intro c hc
  have hdigit := (toNat_of_isDigit (isDigit_of_mem_ofNat hc)).2
  omega

theorem ascii_ofInt (n : Int) : Ascii (ofInt n) := by
  unfold ofInt
  split
  · exact List.forall_mem_cons.2 ⟨by decide, ascii_ofNat _⟩
  · exact ascii_ofNat _

theorem ascii_ofFields {l : List (List Char)} (h : ∀ f ∈ l, Ascii f) : Ascii (ofFields l) := by
  induction l with
  | nil => exact fun c hc => absurd hc List.not_mem_nil
  | cons f rest ih =>
    have hrest := ih fun g hg => h g (List.mem_cons_of_mem _ hg)
    have hf := h f List.mem_cons_self
    cases rest with
    | nil => exact hf
    | cons g rest =>
      show Ascii (f ++ ',' :: ' ' :: ofFields (g :: rest))
      refine List.forall_mem_append.2 ⟨hf, List.forall_mem_cons.2 ⟨by decide, ?_⟩⟩
      exact List.forall_mem_cons.2 ⟨by decide, hrest⟩

/-- Every field but the last one is followed by a comma and a space. -/
theorem length_ofFields {l : List (List Char)} (hne : l ≠ []) :
    (ofFields l).length + 2 = (l.map (·.length + 2)).sum := by
  induction l with
  | nil => exact absurd rfl hne
  | cons f rest ih =>
    cases rest with
    | nil => rfl
    | cons g rest =>
      show (f ++ ',' :: ' ' :: ofFields (g :: rest)).length + 2 = _
      rw [List.map_cons, List.sum_cons, ← ih (List.cons_ne_nil g rest), List.length_append,
        List.length_cons, List.length_cons]
      omega

end Text

theorem Bytes.length_ofText {text : List Char} (h : Text.Ascii text) :
    (ofText text).length = text.length := by
  induction text with
  | nil => rfl
  | cons c rest ih =>
    obtain ⟨hc, hrest⟩ := List.forall_mem_cons.1 h
    have hone : (String.utf8EncodeChar c).length = 1 := by
      rw [String.length_utf8EncodeChar, Char.utf8Size_eq_one_iff, UInt32.le_iff_toNat_le]
      exact Nat.le_of_lt_succ hc
    show (String.utf8EncodeChar c ++ ofText rest).length = _
    rw [List.length_append, hone, ih hrest, List.length_cons, Nat.add_comm]

namespace Csv

theorem length_word_le_twenty (n : UInt64) : (word n).length ≤ 20 :=
  Text.length_ofNat_le (by decide) (Nat.lt_trans n.toNat_lt (by decide))

/-- A sign takes the place of a digit. -/
theorem length_int_le_twenty (n : Int64) : (int n).length ≤ 20 := by
  have hlo := n.le_toInt
  have hhi := n.toInt_lt
  have hsmall : n.toInt.natAbs < 10000000000000000000 := by omega
  have hd : (Text.ofNat n.toInt.natAbs).length ≤ 19 := Text.length_ofNat_le (by decide) hsmall
  unfold int Text.ofInt
  split
  · exact Nat.succ_le_succ hd
  · exact Nat.le_succ_of_le hd

theorem ascii_word (n : UInt64) : Text.Ascii (word n) :=
  Text.ascii_ofNat _

theorem ascii_int (n : Int64) : Text.Ascii (int n) :=
  Text.ascii_ofInt _

theorem ascii_commandFields (seq : Seq) (c : Command) :
    ∀ f ∈ commandFields seq c, Text.Ascii f := by
  obtain ⟨request, time, action⟩ := c
  have hN : Text.Ascii ['N'] := Text.ascii_letter (by decide)
  have hC : Text.Ascii ['C'] := Text.ascii_letter (by decide)
  have hside (s : Side) : Text.Ascii [s.toChar] := Text.ascii_letter (by cases s <;> decide)
  cases action <;> simp [commandFields, hN, hC, hside, ascii_word, ascii_int]

theorem ascii_commandLine (seq : Seq) (c : Command) : Text.Ascii (commandLine seq c) :=
  Text.ascii_ofFields (ascii_commandFields seq c)

theorem ascii_eventLine (e : Event) : Text.Ascii (eventLine e) := by
  refine Text.ascii_ofFields ?_
  obtain ⟨seq, idx, request, kind⟩ := e
  have htag : Text.Ascii [tag kind] := Text.ascii_letter (by cases kind <;> (rw [tag]; decide))
  cases kind <;> simp_all [kindFields, ascii_word, ascii_int, Text.ascii_ofNat]

/-- The longest is a command to submit an order: seven numbers, two letters and what separates
them. -/
theorem length_commandLine_le (seq : Seq) (c : Command) : (commandLine seq c).length ≤ 158 := by
  obtain ⟨request, time, action⟩ := c
  have hseq := length_word_le_twenty seq
  have hrequest := length_word_le_twenty request
  have htime := length_int_le_twenty time
  cases action with
  | submit o =>
    have hline := Text.length_ofFields (l := commandFields seq ⟨request, time, .submit o⟩)
      (by simp [commandFields])
    simp only [commandFields, List.map_cons, List.map_nil, List.sum_cons, List.sum_nil,
      List.length_cons, List.length_nil] at hline
    have hid := length_word_le_twenty o.id
    have huser := length_word_le_twenty o.user
    have hprice := length_int_le_twenty o.price
    have hqty := length_int_le_twenty o.qty
    simp only [commandLine, commandFields]
    omega
  | cancel target =>
    have hline := Text.length_ofFields (l := commandFields seq ⟨request, time, .cancel target⟩)
      (by simp [commandFields])
    simp only [commandFields, List.map_cons, List.map_nil, List.sum_cons, List.sum_nil,
      List.length_cons, List.length_nil] at hline
    have htarget := length_word_le_twenty target
    simp only [commandLine, commandFields]
    omega

/-- The fields of a kind of event are at most four numbers. -/
theorem sum_kindFields_le (kind : EventKind) :
    ((kindFields kind).map (·.length + 2)).sum ≤ 4 * 22 := by
  have hfields : ∀ n ∈ (kindFields kind).map (·.length + 2), n ≤ 22 := by
    cases kind <;> simp [kindFields, length_word_le_twenty, length_int_le_twenty]
  have hcount : ((kindFields kind).map (·.length + 2)).length ≤ 4 := by
    cases kind <;> simp [kindFields]
  calc ((kindFields kind).map (·.length + 2)).sum
      ≤ ((kindFields kind).map (·.length + 2)).length * 22 :=
        List.sum_le_card_nsmul _ _ hfields
    _ ≤ 4 * 22 := Nat.mul_le_mul_right 22 hcount

theorem length_eventLine_le (e : Event) : (eventLine e).length ≤ 140 := by
  have hline := Text.length_ofFields
    (l := [[tag e.kind], word e.seq, Text.ofNat e.idx.toNat, word e.request] ++ kindFields e.kind)
    (by simp)
  rw [List.map_append, List.sum_append] at hline
  simp only [List.map_cons, List.map_nil, List.sum_cons, List.sum_nil, List.length_cons,
    List.length_nil] at hline
  have hseq := length_word_le_twenty e.seq
  have hidx : (Text.ofNat e.idx.toNat).length ≤ 5 :=
    Text.length_ofNat_le (by decide) (Nat.lt_trans e.idx.toNat_lt (by decide))
  have hrequest := length_word_le_twenty e.request
  have hkind := sum_kindFields_le e.kind
  unfold eventLine
  omega

end Csv

namespace Format

/-- No record is longer. -/
def longest : Format → Nat
  | binary => 68
  | csv => 158

theorem length_encodeCommand_le_longest (f : Format) (seq : Seq) (c : Command) :
    (f.encodeCommand seq c).length ≤ f.longest := by
  cases f with
  | binary =>
    rw [encodeCommand, Binary.length_encodeCommand]
    decide
  | csv =>
    show (Bytes.ofText (Csv.commandLine seq c)).length ≤ 158
    rw [Bytes.length_ofText (Csv.ascii_commandLine seq c)]
    exact Csv.length_commandLine_le seq c

theorem length_encodeEvent_le_longest (f : Format) (e : Event) :
    (f.encodeEvent e).length ≤ f.longest := by
  cases f with
  | binary => exact Nat.le_of_eq (Binary.length_encodeEvent e)
  | csv =>
    show (Bytes.ofText (Csv.eventLine e)).length ≤ 158
    rw [Bytes.length_ofText (Csv.ascii_eventLine e)]
    exact Nat.le_trans (Csv.length_eventLine_le e) (by decide)

end Format

/-- A command of the longest kind, with the longest numbers. -/
example :
    (Format.csv.encodeCommand (-1)
      { request := -1, time := Int64.minValue
        action := .submit
          { id := -1, user := -1, side := .buy, price := Int64.minValue,
            qty := Int64.minValue } }).length = Format.csv.longest := by
  decide +kernel

end Bourse
