import Bourse.Bytes
import Bourse.Text.Quoted

/-!
# Records

A record of fixed size has a `Layout`, which lists the widths of its fields in bytes. Such a record
is written from the values of its fields and read back into them; both go field by field.

A `RecordError` says why a record, of fixed size or not, cannot be read.
-/

namespace Bourse

/-- Why a record cannot be read. -/
inductive RecordError where
  /-- A binary record has the wrong size. -/
  | badLength (got expected : Nat)
  /-- A binary record has another version than the one that is understood. -/
  | versionMismatch (got expected : UInt8)
  | unknownCommandType (byte : UInt8)
  | unknownEventType (byte : UInt8)
  /-- A field of a binary record holds a value without meaning, or a text record is not text. -/
  | invalidField (name : String)
  /-- A line of text does not have the form of a record. -/
  | malformed (line reason : String)
deriving DecidableEq, Repr, Inhabited

/-- Wording of the error. -/
def RecordError.message : RecordError → String
  | badLength got expected =>
    "bad record length: got " ++ toString got ++ ", expected " ++ toString expected
  | versionMismatch got expected =>
    "record version mismatch: got " ++ toString got ++ ", expected " ++ toString expected
  | unknownCommandType byte => "unknown command type: " ++ toString byte
  | unknownEventType byte => "unknown event type: " ++ toString byte
  | invalidField name => "invalid field: " ++ name
  | malformed line reason => "malformed csv record " ++ Text.quoted line ++ ": " ++ reason

/-! ## Records of fixed size -/

/-- The widths of a record's fields, in bytes. -/
abbrev Layout := List Nat

namespace Layout

/-- Number of bytes of a record. -/
def size (l : Layout) : Nat :=
  l.foldr (· + ·) 0

/-- Writes the values of the fields. A field without a value is zero. -/
def write : Layout → List Nat → Bytes
  | [], _ => []
  | w :: l, [] => Bytes.ofNat w 0 ++ write l []
  | w :: l, v :: values => Bytes.ofNat w v ++ write l values

/-- Reads the values of the fields. -/
def read : Layout → Bytes → List Nat
  | [], _ => []
  | w :: l, b => Bytes.value (b.take w) :: read l (b.drop w)

@[simp] theorem length_write (l : Layout) (values : List Nat) :
    (l.write values).length = l.size := by
  induction l generalizing values with
  | nil => rfl
  | cons w l ih => cases values <;> simp_all [write, size]

/-- What was written is read back, as far as it fits the fields. -/
theorem read_write {l : Layout} {values : List Nat} (h : values.length = l.length) :
    l.read (l.write values) = List.zipWith (fun w v => v % Bytes.capacity w) l values := by
  induction l generalizing values with
  | nil => simp [read]
  | cons w l ih =>
    cases values with
    | nil => simp at h
    | cons v values =>
      simp only [List.length_cons, Nat.add_right_cancel_iff] at h
      simp [read, write, Bytes.value_ofNat, ih h]

end Layout

end Bourse
