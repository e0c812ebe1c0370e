import Bourse.Log.Writer
import Bourse.Proofs.Record.Fields
import Bourse.Record.Format

/-!
# Records are read back

In either format a command is read back with its sequence number and an event with its place,
whatever their fields hold. Every record is far shorter than what the header of a frame can
announce.
-/

namespace Bourse

/-! ## Binary records -/

namespace Binary

theorem ofBits_bits (n : Int64) : ofBits (bits n) = n := by
  rw [ofBits, bits, UInt64.ofNat_toNat]
  exact Int64.toInt64_toUInt64 n

theorem capacity_one : Bytes.capacity 1 = 256 := by decide

theorem capacity_two : Bytes.capacity 2 = 65536 := by decide

theorem capacity_eight : Bytes.capacity 8 = 18446744073709551616 := by decide

theorem bits_lt (n : Int64) : bits n < 18446744073709551616 :=
  UInt64.toNat_lt _

/-- A field of eight bytes holds any word. -/
theorem word_mod (n : UInt64) : n.toNat % Bytes.capacity 8 = n.toNat := by
  rw [capacity_eight]
  exact Nat.mod_eq_of_lt n.toNat_lt

theorem bits_mod (n : Int64) : bits n % Bytes.capacity 8 = bits n := by
  rw [capacity_eight]
  exact Nat.mod_eq_of_lt (bits_lt n)

theorem byte_mod (b : UInt8) : b.toNat % Bytes.capacity 1 = b.toNat := by
  rw [capacity_one]
  exact Nat.mod_eq_of_lt b.toNat_lt

theorem idx_mod (n : UInt16) : n.toNat % Bytes.capacity 2 = n.toNat := by
  rw [capacity_two]
  exact Nat.mod_eq_of_lt n.toNat_lt

/-- A record that begins with the version passes the check of its header. -/
theorem checkHeader_write (l : Layout) (values : List Nat) :
    checkHeader (1 :: l) (Layout.write (1 :: l) (version.toNat :: values)) = .ok () := by
  have hhead : (Layout.write (1 :: l) (version.toNat :: values)).head? = some version := rfl
  rw [checkHeader, Layout.length_write, if_neg (by simp), hhead, if_neg (by simp)]

theorem checkHeader_command (values : List Nat) :
    checkHeader commandLayout (commandLayout.write (version.toNat :: values)) = .ok () :=
  checkHeader_write _ values

theorem checkHeader_event (values : List Nat) :
    checkHeader eventLayout (eventLayout.write (version.toNat :: values)) = .ok () :=
  checkHeader_write _ values

/-- The values of the fields are read back when none of them is too large. -/
theorem read_write_of_fit {l : Layout} {values : List Nat} (hl : values.length = l.length)
    (hv : List.zipWith (fun w v => v % Bytes.capacity w) l values = values) :
    l.read (l.write values) = values := by
  rw [Layout.read_write hl, hv]

theorem decodeCommand_encodeCommand (seq : Seq) (c : Command) :
    decodeCommand (encodeCommand seq c) = .ok (seq, c) := by
  obtain ⟨request, time, action⟩ := c
  cases action with
  | submit o =>
    simp only [decodeCommand, encodeCommand, List.cons_append, List.nil_append]
    rw [checkHeader_command, read_write_of_fit]
    · simp [ofBits_bits, bind, Except.bind]
    · rfl
    · simp [commandLayout, word_mod, bits_mod, byte_mod]
  | cancel target =>
    simp only [decodeCommand, encodeCommand, List.cons_append, List.nil_append]
    rw [checkHeader_command, read_write_of_fit]
    · simp [ofBits_bits, bind, Except.bind]
    · rfl
    · simp [commandLayout, word_mod, bits_mod, byte_mod]

theorem decodeEvent_encodeEvent (e : Event) : decodeEvent (encodeEvent e) = .ok e := by
  obtain ⟨seq, idx, request, kind⟩ := e
  cases kind <;>
    · simp only [decodeEvent, encodeEvent, eventType, List.cons_append, List.nil_append]
      rw [checkHeader_event, read_write_of_fit]
      · simp [ofBits_bits, bind, Except.bind]
      · rfl
      · simp [eventLayout, word_mod, bits_mod, byte_mod, idx_mod]

theorem length_encodeCommand (seq : Seq) (c : Command) : (encodeCommand seq c).length = 67 :=
  Layout.length_write ..

theorem length_encodeEvent (e : Event) : (encodeEvent e).length = 68 :=
  Layout.length_write ..

end Binary

/-! ## Lines of text -/

namespace Csv

@[simp] theorem expect_some {α : Type} (line : List Char) (reason : String) (a : α) :
    expect line reason (some a) = .ok a := rfl

theorem plain_letter {c : Char} (h : c ≠ ',' ∧ Text.isBlank c = false) : Text.Plain [c] := by
  intro d hd
  rwa [List.mem_singleton.1 hd]

theorem plain_side (s : Side) : Text.Plain [s.toChar] :=
  plain_letter (by cases s <;> decide)

theorem plain_commandFields (seq : Seq) (c : Command) :
    ∀ f ∈ commandFields seq c, Text.Plain f ∧ f.length ≤ 21 := by
  obtain ⟨request, time, action⟩ := c
  have hN : Text.Plain ['N'] := plain_letter (by decide)
  have hC : Text.Plain ['C'] := plain_letter (by decide)
  cases action <;>
    simp [commandFields, hN, hC, plain_word, plain_int, plain_side, length_word_le, length_int_le]

theorem plain_eventFields (e : Event) :
    ∀ f ∈ [[tag e.kind], word e.seq, Text.ofNat e.idx.toNat, word e.request] ++ kindFields e.kind,
      Text.Plain f ∧ f.length ≤ 21 := by
  obtain ⟨seq, idx, request, kind⟩ := e
  have htag : Text.Plain [tag kind] := plain_letter (by cases kind <;> (rw [tag]; decide))
  have hidx : (Text.ofNat idx.toNat).length ≤ 21 :=
    Nat.le_trans (Text.length_ofNat_le (k := 5) (by decide)
      (Nat.lt_trans idx.toNat_lt (by decide))) (by decide)
  cases kind <;>
    simp_all [kindFields, plain_word, plain_int, Text.plain_ofNat, length_word_le, length_int_le]

theorem readCommand_commandLine (seq : Seq) (c : Command) :
    readCommand (commandLine seq c) = .ok (seq, c) := by
  have hfields : Text.fields (commandLine seq c) = commandFields seq c :=
    Text.fields_ofFields (by cases h : c.action <;> simp [commandFields, h])
      fun f hf => (plain_commandFields seq c f hf).1
  obtain ⟨request, time, action⟩ := c
  rw [readCommand, hfields]
  cases action <;> simp [commandFields, bind, Except.bind, pure, Except.pure]

theorem readKind_kindFields (line : List Char) (kind : EventKind) :
    readKind line [tag kind] (kindFields kind) = .ok kind := by
  cases kind <;> simp [readKind, tag, kindFields, bind, Except.bind, pure, Except.pure]

theorem fieldCount?_tag (kind : EventKind) :
    fieldCount? [tag kind] = some (4 + (kindFields kind).length) := by
  cases kind <;> rfl

/-- The line of an event is any line that has its fields. -/
theorem readEvent_of_fields {line : List Char} {e : Event}
    (h : Text.fields line =
      [[tag e.kind], word e.seq, Text.ofNat e.idx.toNat, word e.request] ++ kindFields e.kind) :
    readEvent line = .ok e := by
  rw [readEvent, h]
  simp [bind, Except.bind, pure, Except.pure, fieldCount?_tag, readKind_kindFields]
  omega

theorem readEvent_eventLine (e : Event) : readEvent (eventLine e) = .ok e :=
  readEvent_of_fields (Text.fields_ofFields (by simp) fun f hf => (plain_eventFields e f hf).1)

end Csv

/-! ## Either format -/

namespace Bytes

theorem length_ofText_le (text : List Char) : (ofText text).length ≤ 4 * text.length := by
  induction text with
  | nil => exact Nat.zero_le _
  | cons c rest ih =>
    have hc : (String.utf8EncodeChar c).length ≤ 4 := by
      rw [String.length_utf8EncodeChar]
      exact Char.utf8Size_le_four c
    show (String.utf8EncodeChar c ++ ofText rest).length ≤ _
    rw [List.length_append, List.length_cons]
    omega

end Bytes

namespace Format

theorem decodeCommand_encodeCommand (f : Format) (seq : Seq) (c : Command) :
    f.decodeCommand (f.encodeCommand seq c) = .ok (seq, c) := by
  cases f with
  | binary => exact Binary.decodeCommand_encodeCommand seq c
  | csv =>
    rw [decodeCommand, encodeCommand, Bytes.text?_ofText]
    exact Csv.readCommand_commandLine seq c

theorem decodeEvent_encodeEvent (f : Format) (e : Event) :
    f.decodeEvent (f.encodeEvent e) = .ok e := by
  cases f with
  | binary => exact Binary.decodeEvent_encodeEvent e
  | csv =>
    rw [decodeEvent, encodeEvent, Bytes.text?_ofText]
    exact Csv.readEvent_eventLine e

theorem length_encodeCommand_le (f : Format) (seq : Seq) (c : Command) :
    (f.encodeCommand seq c).length ≤ Log.maxLength := by
  cases f with
  | binary =>
    rw [encodeCommand, Binary.length_encodeCommand]
    decide
  | csv =>
    have htext := Bytes.length_ofText_le (Csv.commandLine seq c)
    have hline : (Csv.commandLine seq c).length ≤ (Csv.commandFields seq c).length * (21 + 2) :=
      Text.length_ofFields_le fun g hg => (Csv.plain_commandFields seq c g hg).2
    have hcount : (Csv.commandFields seq c).length ≤ 9 := by
      cases h : c.action <;> simp [Csv.commandFields, h]
    show (Bytes.ofText (Csv.commandLine seq c)).length ≤ 4294967295
    omega

theorem length_encodeEvent_le (f : Format) (e : Event) :
    (f.encodeEvent e).length ≤ Log.maxLength := by
  cases f with
  | binary =>
    rw [encodeEvent, Binary.length_encodeEvent]
    decide
  | csv =>
    have htext := Bytes.length_ofText_le (Csv.eventLine e)
    have hline := Text.length_ofFields_le fun g hg => (Csv.plain_eventFields e g hg).2
    have hcount : (Csv.kindFields e.kind).length ≤ 4 := by
      cases h : e.kind <;> simp [Csv.kindFields]
    rw [List.length_append] at hline
    show (Bytes.ofText (Csv.eventLine e)).length ≤ 4294967295
    rw [Csv.eventLine] at htext ⊢
    simp only [List.length_cons, List.length_nil] at hline
    omega

/-- Records of the binary format have a fixed length. -/
theorem length_encodeEvent_binary_le {limit : Nat} (h : 68 ≤ limit) (e : Event) :
    (binary.encodeEvent e).length ≤ limit :=
  Nat.le_trans (Nat.le_of_eq (Binary.length_encodeEvent e)) h

end Format

end Bourse
