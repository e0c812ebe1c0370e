import Bourse.Proofs.Record.Codec
import Bourse.Proofs.Record.Layout

/-!
# Binary records of one form

Every command and every event has exactly one record that is canonical, with zeros in all bytes
that its type does not use. The writer adds this record behind whatever the buffer holds. The reader
takes all records whose header, type, side and reason are sound, looks only at the bytes that the
type uses, and writing what it read keeps these bytes and clears the others.
-/

namespace Bourse

/-! ## Numbers in a string of bytes -/

namespace Bytes

/-- The number in the `width` bytes from an offset on. -/
def getNat (b : Bytes) (offset width : Nat) : Nat :=
  value ((b.drop offset).take width)

theorem capacity_le {k width : Nat} (h : k ≤ width) : capacity k ≤ capacity width := by
  induction h with
  | refl => exact Nat.le_refl _
  | step _ ih =>
    rw [capacity]
    omega

theorem getNat_lt (b : Bytes) (offset width : Nat) : b.getNat offset width < capacity width :=
  Nat.lt_of_lt_of_le (value_lt _) (capacity_le (List.length_take_le ..))

theorem getElem?_range_map {size i : Nat} {uses : Nat → Bool} {used : Bool} :
    ((List.range size).map uses)[i]? = some used ↔ i < size ∧ uses i = used := by
  rw [List.getElem?_map, Option.map_eq_some_iff]
  constructor
  · rintro ⟨j, hj, hused⟩
    obtain ⟨hlt, rfl⟩ := List.getElem?_eq_some_iff.1 hj
    rw [List.getElem_range] at hused
    exact ⟨by rwa [List.length_range] at hlt, hused⟩
  · rintro ⟨hi, hused⟩
    exact ⟨i, List.getElem?_range hi, hused⟩

/-- The bytes that are used are kept. -/
theorem getElem?_keep_range {size i : Nat} {uses : Nat → Bool} {b : Bytes}
    (hlen : b.length = size) (h : uses i) :
    (b.keep ((List.range size).map uses))[i]? = b[i]? := by
  rcases Nat.lt_or_ge i size with hi | hi
  · exact getElem?_keep_of_used (getElem?_range_map.2 ⟨hi, h⟩)
  · have hkeep : (b.keep ((List.range size).map uses)).length = size := by simp [keep, hlen]
    rw [List.getElem?_eq_none (by rw [hkeep]; exact hi),
      List.getElem?_eq_none (by rw [hlen]; exact hi)]

/-- Nothing is lost exactly if the bytes that are not used are zero. -/
theorem keep_range_eq_iff {size : Nat} {uses : Nat → Bool} {b : Bytes} (hlen : b.length = size) :
    b.keep ((List.range size).map uses) = b ↔ ∀ i < size, uses i = false → b[i]? = some 0 := by
  rw [keep_eq_iff (by rw [List.length_map, List.length_range, hlen])]
  simp only [getElem?_range_map, and_imp]

end Bytes

namespace Binary

/-! ## Fields put one by one -/

/-- What the buffer holds is not touched. -/
theorem fill_eq (buffer : Bytes) (l : Layout) (entries : List Entry) :
    fill buffer l entries = buffer ++ fill [] l entries := by
  have h : ∀ b : Bytes,
      entries.foldl (fun b e => b.putNat (buffer.length + e.offset) e.width e.value) (buffer ++ b) =
      buffer ++ entries.foldl (fun b e => b.putNat (0 + e.offset) e.width e.value) b := by
    induction entries with
    | nil => exact fun b => rfl
    | cons entry rest ih =>
      intro b
      rw [List.foldl_cons, List.foldl_cons, Bytes.putNat_append, ih, Nat.zero_add]
  exact h _

/-- A number to be put in the place of a field. -/
def Entry.ofField (l : Layout) (i n : Nat) : Entry :=
  { offset := Layout.size (l.take i), width := l.getD i 0, value := n }

/-- Fields put in any order, each at its offset, are the record written from their values. A field
is given by its place in the layout. -/
theorem fill_fields (l : Layout) (fields : List (Nat × Nat)) (h : ∀ f ∈ fields, f.1 < l.length) :
    fill [] l (fields.map fun f => .ofField l f.1 f.2) =
      l.write (fields.foldl (fun values f => values.set f.1 f.2) (List.replicate l.length 0)) := by
  have hfold : ∀ values : List Nat, values.length = l.length →
      (fields.map fun f => Entry.ofField l f.1 f.2).foldl
        (fun b e => b.putNat (0 + e.offset) e.width e.value) (l.write values) =
      l.write (fields.foldl (fun values f => values.set f.1 f.2) values) := by
    induction fields with
    | nil => exact fun values _ => rfl
    | cons field rest ih =>
      intro values hv
      have hi : field.1 < l.length := h field List.mem_cons_self
      have hput : (l.write values).putNat (0 + Layout.size (l.take field.1)) (l.getD field.1 0)
          field.2 = l.write (values.set field.1 field.2) := by
        rw [Nat.zero_add, Layout.putNat_write l hv hi]
      rw [List.map_cons, List.foldl_cons, List.foldl_cons, Entry.ofField, hput]
      exact ih (fun f hf => h f (List.mem_cons_of_mem _ hf)) _ (by rw [List.length_set, hv])
  have hstart := hfold (List.replicate l.length 0) List.length_replicate
  rw [Layout.write_zeros] at hstart
  exact hstart

theorem appendCommand_eq (buffer : Bytes) (seq : Seq) (c : Command) :
    appendCommand buffer seq c = buffer ++ encodeCommand seq c := by
  rw [appendCommand, fill_eq]
  congr 1
  obtain ⟨request, time, action⟩ := c
  cases action with
  | submit o =>
    exact fill_fields commandLayout
      [(0, version.toNat), (2, seq.toNat), (3, request.toNat), (4, bits time),
        (1, CommandType.submit.toByte.toNat), (5, o.id.toNat), (6, o.user.toNat),
        (7, o.side.toByte.toNat), (8, bits o.price), (9, bits o.qty)]
      (by simp [commandLayout])
  | cancel target =>
    exact fill_fields commandLayout
      [(0, version.toNat), (2, seq.toNat), (3, request.toNat), (4, bits time),
        (1, CommandType.cancel.toByte.toNat), (10, target.toNat)]
      (by simp [commandLayout])

theorem appendEvent_eq (buffer : Bytes) (e : Event) :
    appendEvent buffer e = buffer ++ encodeEvent e := by
  rw [appendEvent, fill_eq]
  congr 1
  obtain ⟨seq, idx, request, kind⟩ := e
  cases kind with
  | accepted order user =>
    exact fill_fields eventLayout
      [(0, version.toNat), (2, seq.toNat), (3, idx.toNat), (4, request.toNat),
        (5, order.toNat), (6, user.toNat), (1, EventType.accepted.toByte.toNat)]
      (by simp [eventLayout])
  | rejected order user reason =>
    exact fill_fields eventLayout
      [(0, version.toNat), (2, seq.toNat), (3, idx.toNat), (4, request.toNat),
        (5, order.toNat), (6, user.toNat), (7, reason.code.toNat),
        (1, EventType.rejected.toByte.toNat)]
      (by simp [eventLayout])
  | added order user =>
    exact fill_fields eventLayout
      [(0, version.toNat), (2, seq.toNat), (3, idx.toNat), (4, request.toNat),
        (5, order.toNat), (6, user.toNat), (1, EventType.added.toByte.toNat)]
      (by simp [eventLayout])
  | cancelled order =>
    exact fill_fields eventLayout
      [(0, version.toNat), (2, seq.toNat), (3, idx.toNat), (4, request.toNat),
        (5, order.toNat), (1, EventType.cancelled.toByte.toNat)]
      (by simp [eventLayout])
  | traded t =>
    exact fill_fields eventLayout
      [(0, version.toNat), (2, seq.toNat), (3, idx.toNat), (4, request.toNat),
        (7, t.maker.toNat), (8, t.taker.toNat), (9, bits t.price), (10, bits t.qty),
        (1, EventType.traded.toByte.toNat)]
      (by simp [eventLayout])
  | commandEnd =>
    exact fill_fields eventLayout
      [(0, version.toNat), (2, seq.toNat), (3, idx.toNat), (4, request.toNat),
        (1, EventType.commandEnd.toByte.toNat)]
      (by simp [eventLayout])

/-! ## What the reader takes -/

/-- The byte at an offset. -/
def byte (b : Bytes) (offset : Nat) : UInt8 :=
  UInt8.ofNat (b.getNat offset 1)

/-- The number in the two bytes from an offset on. -/
def short (b : Bytes) (offset : Nat) : UInt16 :=
  UInt16.ofNat (b.getNat offset 2)

/-- The number in the eight bytes from an offset on. -/
def word (b : Bytes) (offset : Nat) : UInt64 :=
  UInt64.ofNat (b.getNat offset 8)

/-- The signed number in the eight bytes from an offset on. -/
def signed (b : Bytes) (offset : Nat) : Int64 :=
  ofBits (b.getNat offset 8)

@[simp] theorem toNat_byte (b : Bytes) (offset : Nat) :
    (byte b offset).toNat = b.getNat offset 1 := by
  rw [byte, UInt8.toNat_ofNat']
  exact Nat.mod_eq_of_lt (Bytes.getNat_lt b offset 1)

@[simp] theorem toNat_short (b : Bytes) (offset : Nat) :
    (short b offset).toNat = b.getNat offset 2 := by
  rw [short, UInt16.toNat_ofNat']
  exact Nat.mod_eq_of_lt (Bytes.getNat_lt b offset 2)

@[simp] theorem toNat_word (b : Bytes) (offset : Nat) :
    (word b offset).toNat = b.getNat offset 8 := by
  rw [word, UInt64.toNat_ofNat']
  exact Nat.mod_eq_of_lt (Bytes.getNat_lt b offset 8)

@[simp] theorem bits_signed (b : Bytes) (offset : Nat) :
    bits (signed b offset) = b.getNat offset 8 := by
  rw [signed, ofBits, bits, UInt64.toUInt64_toInt64]
  exact toNat_word b offset

theorem checkHeader_eq_ok_iff {l : Layout} {b : Bytes} :
    checkHeader l b = .ok () ↔ b.length = l.size ∧ b.getNat 0 1 = 1 := by
  have hversion : b.head? = some version ↔ b.getNat 0 1 = 1 := by
    cases b with
    | nil => decide
    | cons x rest => simp [Bytes.getNat, Bytes.value, version, ← UInt8.toNat_inj]
  by_cases hl : b.length = l.size
  · by_cases hv : b.head? = some version <;> simp [checkHeader, hl, hv, ← hversion]
  · simp [checkHeader, hl]

theorem CommandType.ofByte?_eq_some_iff {x : UInt8} {t : CommandType} :
    ofByte? x = some t ↔ x.toNat = t.toByte.toNat := by
  rw [UInt8.toNat_inj]
  constructor
  · intro h
    simpa [eq_comm] using List.find?_some h
  · rintro rfl
    exact ofByte?_toByte t

theorem EventType.ofByte?_eq_some_iff {x : UInt8} {t : EventType} :
    ofByte? x = some t ↔ x.toNat = t.toByte.toNat := by
  rw [UInt8.toNat_inj]
  constructor
  · intro h
    simpa [eq_comm] using List.find?_some h
  · rintro rfl
    exact ofByte?_toByte t

theorem exists_side_iff {x : UInt8} :
    (∃ s, Side.ofByte? x = some s) ↔ x.toNat = 1 ∨ x.toNat = 2 := by
  have h1 : x.toNat = 1 ↔ x = 1 := UInt8.toNat_inj (b := 1)
  have h2 : x.toNat = 2 ↔ x = 2 := UInt8.toNat_inj (b := 2)
  rw [h1, h2, Side.ofByte?]
  split
  · next h => simp [h]
  · next h => split <;> simp_all

theorem exists_reason_iff {n : UInt64} :
    (∃ r, RejectReason.ofCode? n = some r) ↔ 1 ≤ n.toNat ∧ n.toNat ≤ 5 := by
  constructor
  · rintro ⟨r, hr⟩
    have hn : r.code = n := by simpa using List.find?_some hr
    rw [← hn]
    cases r <;> decide
  · rintro ⟨h1, h5⟩
    obtain ⟨r, hr⟩ : ∃ r : RejectReason, r.code.toNat = n.toNat := by
      obtain h | h | h | h | h : n.toNat = 1 ∨ n.toNat = 2 ∨ n.toNat = 3 ∨ n.toNat = 4 ∨
        n.toNat = 5 := by omega
      · exact ⟨.badSubmit, h.symm⟩
      · exact ⟨.badCancel, h.symm⟩
      · exact ⟨.orderNotFound, h.symm⟩
      · exact ⟨.duplicateOrderId, h.symm⟩
      · exact ⟨.bookFull, h.symm⟩
    rw [← UInt64.toNat_inj.1 hr]
    exact ⟨r, RejectReason.ofCode?_code r⟩

/-- A command's fields, each at its offset. -/
theorem read_command (b : Bytes) : commandLayout.read b =
    [b.getNat 0 1, b.getNat 1 1, b.getNat 2 8, b.getNat 10 8, b.getNat 18 8, b.getNat 26 8,
      b.getNat 34 8, b.getNat 42 1, b.getNat 43 8, b.getNat 51 8, b.getNat 59 8] := by
  simp [commandLayout, Layout.read, Bytes.getNat]

/-- An event's fields, each at its offset. -/
theorem read_event (b : Bytes) : eventLayout.read b =
    [b.getNat 0 1, b.getNat 1 1, b.getNat 2 8, b.getNat 10 2, b.getNat 12 8, b.getNat 20 8,
      b.getNat 28 8, b.getNat 36 8, b.getNat 44 8, b.getNat 52 8, b.getNat 60 8] := by
  simp [eventLayout, Layout.read, Bytes.getNat]

/-- What a record of some type asks for, if its side is one. -/
def action? (b : Bytes) : CommandType → Option Action
  | .submit => (Side.ofByte? (byte b 42)).map fun side =>
    .submit { id := word b 26, user := word b 34, side, price := signed b 43, qty := signed b 51 }
  | .cancel => some (.cancel (word b 59))

/-- What a record of some type says, if its reason is one. -/
def kind? (b : Bytes) : EventType → Option EventKind
  | .accepted => some (.accepted (word b 20) (word b 28))
  | .rejected => (RejectReason.ofCode? (word b 36)).map (.rejected (word b 20) (word b 28))
  | .added => some (.added (word b 20) (word b 28))
  | .cancelled => some (.cancelled (word b 20))
  | .traded => some <| .traded
    { maker := word b 36, taker := word b 44, price := signed b 52, qty := signed b 60 }
  | .commandEnd => some .commandEnd

theorem exists_action_iff {b : Bytes} {t : CommandType} :
    (∃ a, action? b t = some a) ↔ (t = .submit → b.getNat 42 1 = 1 ∨ b.getNat 42 1 = 2) := by
  cases t with
  | submit =>
    rw [← toNat_byte, ← exists_side_iff]
    cases h : Side.ofByte? (byte b 42) <;> simp [action?, h]
  | cancel => simp [action?]

theorem exists_kind_iff {b : Bytes} {t : EventType} :
    (∃ k, kind? b t = some k) ↔ (t = .rejected → 1 ≤ b.getNat 36 8 ∧ b.getNat 36 8 ≤ 5) := by
  cases t with
  | rejected =>
    rw [← toNat_word, ← exists_reason_iff]
    cases h : RejectReason.ofCode? (word b 36) <;> simp [kind?, h]
  | _ => simp [kind?]

theorem decodeCommand_eq_ok_iff {b : Bytes} {seq : Seq} {c : Command} :
    decodeCommand b = .ok (seq, c) ↔
      checkHeader commandLayout b = .ok () ∧ seq = word b 2 ∧ c.request = word b 10 ∧
        c.time = signed b 18 ∧
        ∃ t, CommandType.ofByte? (byte b 1) = some t ∧ action? b t = some c.action := by
  rw [decodeCommand]
  cases hh : checkHeader commandLayout b with
  | error e => simp [bind, Except.bind]
  | ok _ =>
    have hbyte : ∀ i, UInt8.ofNat (b.getNat i 1) = byte b i := fun _ => rfl
    rw [read_command]
    simp only [bind, Except.bind, hbyte, true_and]
    obtain ⟨request, time, action⟩ := c
    cases ht : CommandType.ofByte? (byte b 1) with
    | none => simp
    | some t =>
      simp only [Option.some.injEq, exists_eq_left']
      cases t with
      | cancel =>
        simp only [action?]
        grind [word, signed]
      | submit =>
        cases hs : Side.ofByte? (byte b 42) <;> simp only [action?, hs] <;> grind [word, signed]

theorem decodeEvent_eq_ok_iff {b : Bytes} {e : Event} :
    decodeEvent b = .ok e ↔
      checkHeader eventLayout b = .ok () ∧ e.seq = word b 2 ∧
        e.idx = short b 10 ∧ e.request = word b 12 ∧
        ∃ t, EventType.ofByte? (byte b 1) = some t ∧ kind? b t = some e.kind := by
  rw [decodeEvent]
  cases hh : checkHeader eventLayout b with
  | error e => simp [bind, Except.bind]
  | ok _ =>
    have hbyte : ∀ i, UInt8.ofNat (b.getNat i 1) = byte b i := fun _ => rfl
    have hword : ∀ i, UInt64.ofNat (b.getNat i 8) = word b i := fun _ => rfl
    rw [read_event]
    simp only [bind, Except.bind, hbyte, hword, true_and]
    obtain ⟨seq, idx, request, kind⟩ := e
    cases ht : EventType.ofByte? (byte b 1) with
    | none => simp
    | some t =>
      simp only [Option.some.injEq, exists_eq_left']
      cases t with
      | rejected =>
        cases hr : RejectReason.ofCode? (word b 36) <;> simp only [kind?, hr] <;> grind [short]
      | _ =>
        simp only [kind?]
        grind [short, signed]

/-- What a string of bytes must have to be read as a command. -/
structure SoundCommand (b : Bytes) : Prop where
  length : b.length = 67
  version : b.getNat 0 1 = 1
  type : b.getNat 1 1 = 1 ∨ b.getNat 1 1 = 2
  side : b.getNat 1 1 = 1 → b.getNat 42 1 = 1 ∨ b.getNat 42 1 = 2

/-- What a string of bytes must have to be read as an event. -/
structure SoundEvent (b : Bytes) : Prop where
  length : b.length = 68
  version : b.getNat 0 1 = 1
  type : b.getNat 1 1 ∈ [1, 2, 3, 4, 5, 250]
  reason : b.getNat 1 1 = 2 → 1 ≤ b.getNat 36 8 ∧ b.getNat 36 8 ≤ 5

/-- Exactly the sound records are read as commands. -/
theorem exists_decodeCommand_iff {b : Bytes} :
    (∃ r, decodeCommand b = .ok r) ↔ SoundCommand b := by
  constructor
  · rintro ⟨⟨seq, c⟩, h⟩
    obtain ⟨hh, -, -, -, t, ht, ha⟩ := decodeCommand_eq_ok_iff.1 h
    obtain ⟨hlen, hversion⟩ := checkHeader_eq_ok_iff.1 hh
    have hside := exists_action_iff.1 ⟨_, ha⟩
    rw [CommandType.ofByte?_eq_some_iff, toNat_byte] at ht
    cases t with
    | submit => exact ⟨hlen, hversion, .inl ht, fun _ => hside rfl⟩
    | cancel => exact ⟨hlen, hversion, .inr ht, fun h => by rw [ht] at h; cases h⟩
  · rintro ⟨hlen, hversion, htype, hside⟩
    obtain ⟨t, ht, haction⟩ : ∃ t : CommandType, b.getNat 1 1 = t.toByte.toNat ∧
        ∃ a, action? b t = some a := by
      obtain h | h := htype
      · exact ⟨.submit, h, exists_action_iff.2 fun _ => hside h⟩
      · exact ⟨.cancel, h, _, rfl⟩
    obtain ⟨a, ha⟩ := haction
    rw [← toNat_byte, ← CommandType.ofByte?_eq_some_iff] at ht
    exact ⟨(word b 2, ⟨word b 10, signed b 18, a⟩), decodeCommand_eq_ok_iff.2
      ⟨checkHeader_eq_ok_iff.2 ⟨hlen, hversion⟩, rfl, rfl, rfl, t, ht, ha⟩⟩

/-- Exactly the sound records are read as events. -/
theorem exists_decodeEvent_iff {b : Bytes} :
    (∃ e, decodeEvent b = .ok e) ↔ SoundEvent b := by
  constructor
  · rintro ⟨e, h⟩
    obtain ⟨hh, -, -, -, t, ht, hk⟩ := decodeEvent_eq_ok_iff.1 h
    obtain ⟨hlen, hversion⟩ := checkHeader_eq_ok_iff.1 hh
    have hreason := exists_kind_iff.1 ⟨_, hk⟩
    rw [EventType.ofByte?_eq_some_iff, toNat_byte] at ht
    refine ⟨hlen, hversion, ?_, fun h => hreason ?_⟩
    · rw [ht]
      cases t <;> decide
    · rw [ht] at h
      cases t <;> first | rfl | exact absurd h (by decide)
  · rintro ⟨hlen, hversion, htype, hreason⟩
    obtain ⟨t, -, ht⟩ : ∃ t ∈ [EventType.accepted, .rejected, .added, .cancelled, .traded,
        .commandEnd], t.toByte.toNat = b.getNat 1 1 := List.mem_map.1 htype
    obtain ⟨k, hk⟩ : ∃ k, kind? b t = some k := by
      refine exists_kind_iff.2 ?_
      rintro rfl
      exact hreason ht.symm
    rw [eq_comm, ← toNat_byte, ← EventType.ofByte?_eq_some_iff] at ht
    exact ⟨⟨word b 2, short b 10, word b 12, k⟩, decodeEvent_eq_ok_iff.2
      ⟨checkHeader_eq_ok_iff.2 ⟨hlen, hversion⟩, rfl, rfl, rfl, t, ht, hk⟩⟩

/-! ## What the writer makes of it -/

/-- Whether the record of a command uses the byte at an offset. -/
def commandUses (c : Command) (i : Nat) : Bool :=
  match c.action with
  | .submit _ => i < 59
  | .cancel _ => i < 26 || 59 ≤ i

/-- Whether the record of an event uses the byte at an offset. -/
def eventUses (e : Event) (i : Nat) : Bool :=
  match e.kind with
  | .accepted .. | .added .. => i < 36
  | .rejected .. => i < 44
  | .cancelled _ => i < 28
  | .traded _ => i < 20 || 36 ≤ i
  | .commandEnd => i < 20

/-- The fields of a command's record that its type uses. -/
def commandMarks (c : Command) : List Bool :=
  match c.action with
  | .submit _ => List.replicate 10 true ++ [false]
  | .cancel _ => List.replicate 5 true ++ List.replicate 5 false ++ [true]

/-- The fields of an event's record that its type uses. -/
def eventMarks (e : Event) : List Bool :=
  List.replicate 5 true ++ match e.kind with
  | .accepted .. | .added .. => [true, true, false, false, false, false]
  | .rejected .. => [true, true, true, false, false, false]
  | .cancelled _ => [true, false, false, false, false, false]
  | .traded _ => [false, false, true, true, true, true]
  | .commandEnd => List.replicate 6 false

theorem mask_command (c : Command) :
    commandLayout.mask (commandMarks c) = (List.range 67).map (commandUses c) := by
  obtain ⟨request, time, action⟩ := c
  cases action <;> rfl

theorem mask_event (e : Event) :
    eventLayout.mask (eventMarks e) = (List.range 68).map (eventUses e) := by
  obtain ⟨seq, idx, request, kind⟩ := e
  cases kind <;> rfl

theorem toByte_of_ofByte? {x : UInt8} {s : Side} (h : Side.ofByte? x = some s) : s.toByte = x := by
  rw [Side.ofByte?] at h
  split at h
  · next hx => cases h; exact hx.symm
  · split at h
    · next hx => cases h; exact hx.symm
    · cases h

theorem encodeCommand_of_decodeCommand {b : Bytes} {seq : Seq} {c : Command}
    (h : decodeCommand b = .ok (seq, c)) :
    encodeCommand seq c = b.keep ((List.range 67).map (commandUses c)) := by
  obtain ⟨hh, hseq, hrequest, htime, t, ht, ha⟩ := decodeCommand_eq_ok_iff.1 h
  obtain ⟨hlen, hversion⟩ := checkHeader_eq_ok_iff.1 hh
  rw [CommandType.ofByte?_eq_some_iff, toNat_byte] at ht
  obtain ⟨request, time, action⟩ := c
  subst hseq hrequest htime
  rw [← mask_command, ← Layout.write_marked_read (by cases action <;> rfl) hlen, read_command, hversion,
    ht, encodeCommand]
  cases t with
  | submit =>
    obtain ⟨side, hs, rfl⟩ := Option.map_eq_some_iff.1 ha
    have hside : side.toByte.toNat = b.getNat 42 1 := by rw [toByte_of_ofByte? hs, toNat_byte]
    simp [commandMarks, Layout.marked, hside, version]
  | cancel =>
    cases ha
    simp [commandMarks, Layout.marked, version]

theorem encodeEvent_of_decodeEvent {b : Bytes} {e : Event} (h : decodeEvent b = .ok e) :
    encodeEvent e = b.keep ((List.range 68).map (eventUses e)) := by
  obtain ⟨hh, hseq, hidx, hrequest, t, ht, hk⟩ := decodeEvent_eq_ok_iff.1 h
  obtain ⟨hlen, hversion⟩ := checkHeader_eq_ok_iff.1 hh
  rw [EventType.ofByte?_eq_some_iff, toNat_byte] at ht
  obtain ⟨seq, idx, request, kind⟩ := e
  subst hseq hidx hrequest
  rw [← mask_event, ← Layout.write_marked_read (by cases kind <;> rfl) hlen, read_event, hversion, ht,
    encodeEvent]
  cases t with
  | rejected =>
    obtain ⟨reason, hr, rfl⟩ := Option.map_eq_some_iff.1 hk
    have hcode : reason.code = word b 36 := by simpa using List.find?_some hr
    simp [eventMarks, Layout.marked, hcode, version, eventType]
  | _ =>
    cases hk
    simp [eventMarks, Layout.marked, version, eventType]

end Binary

/-! ## Both kinds of record -/

/-- What the writer and the reader of a kind of record owe each other. `sound` is what the reader
asks of a record, and `uses` are the offsets of the bytes that the type of a record uses. -/
structure Canonical {α : Type} (size : Nat) (append : Bytes → α → Bytes)
    (decode : Bytes → Except RecordError α) (sound : Bytes → Prop) (uses : α → Nat → Bool) :
    Prop where
  /-- The buffer is kept, and what is added to it is a record that is read back. -/
  written : ∀ buffer a, ∃ record, append buffer a = buffer ++ record ∧ record.length = size ∧
    decode record = .ok a
  /-- Exactly the sound records are read. -/
  taken : ∀ b, (∃ a, decode b = .ok a) ↔ sound b
  /-- What was read is written back as it was, as far as its type uses the bytes. -/
  rewritten : ∀ b a, decode b = .ok a → ∀ i, uses a i → (append [] a)[i]? = b[i]?
  /-- Nothing else is lost exactly if the bytes that are not used are zero. -/
  exact : ∀ b a, decode b = .ok a →
    (append [] a = b ↔ ∀ i < size, uses a i = false → b[i]? = some 0)

/-- If writing what was read clears the bytes that are not used and no others, then writer and
reader owe each other nothing more. -/
theorem Canonical.of_keep {α : Type} {size : Nat} {append : Bytes → α → Bytes} {encode : α → Bytes}
    {decode : Bytes → Except RecordError α} {sound : Bytes → Prop} {uses : α → Nat → Bool}
    (happend : ∀ buffer a, append buffer a = buffer ++ encode a)
    (hsize : ∀ a, (encode a).length = size)
    (hdecode : ∀ a, decode (encode a) = .ok a)
    (htaken : ∀ b, (∃ a, decode b = .ok a) ↔ sound b)
    (hlength : ∀ b, sound b → b.length = size)
    (hkeep : ∀ b a, decode b = .ok a → encode a = b.keep ((List.range size).map (uses a))) :
    Canonical size append decode sound uses where
  written buffer a := ⟨encode a, happend buffer a, hsize a, hdecode a⟩
  taken := htaken
  rewritten b a h i hi := by
    have hlen := hlength b ((htaken b).1 ⟨a, h⟩)
    rw [happend, List.nil_append, hkeep b a h]
    exact Bytes.getElem?_keep_range hlen hi
  exact b a h := by
    have hlen := hlength b ((htaken b).1 ⟨a, h⟩)
    rw [happend, List.nil_append, hkeep b a h]
    exact Bytes.keep_range_eq_iff hlen

/-- Binary commands and events are read back from what is written behind any buffer; what is not a
record is refused; and of all records that are read as the same command or event, exactly the one
with zeros in the bytes that its type does not use is what the writer writes. -/
theorem Binary.canonical :
    Canonical 67 (fun buffer (a : Seq × Command) => appendCommand buffer a.1 a.2) decodeCommand
        SoundCommand (fun a => commandUses a.2) ∧
      Canonical 68 appendEvent decodeEvent SoundEvent eventUses :=
  ⟨.of_keep (fun buffer a => appendCommand_eq buffer a.1 a.2)
      (fun a => length_encodeCommand a.1 a.2) (fun a => decodeCommand_encodeCommand a.1 a.2)
      (fun _ => exists_decodeCommand_iff) (fun _ h => h.length)
      (fun _ _ h => encodeCommand_of_decodeCommand h),
    .of_keep appendEvent_eq length_encodeEvent decodeEvent_encodeEvent
      (fun _ => exists_decodeEvent_iff) (fun _ h => h.length)
      (fun _ _ h => encodeEvent_of_decodeEvent h)⟩

end Bourse
