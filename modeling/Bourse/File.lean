import Bourse.Bytes

/-!
# Files

A `File` is what stands at a path: nothing, a directory, or a regular file. `File.bytes` is what
it holds, and every operation is described by what it does to those bytes. At some paths nothing
can ever stand, because names have a limited length.
-/

namespace Bourse

/-- What stands at a path. -/
inductive File where
  | absent
  /-- A directory has a length, though no bytes. -/
  | directory (length : Nat)
  /-- The name is longer than any name can be. -/
  | unnameable
  | regular (content : ByteArray)
deriving Inhabited

/-- The `n` bytes of an array from `start` on, before `rest`. -/
def segment (content : ByteArray) (start : Nat) : (n : Nat) → (rest : Bytes) → Bytes
  | 0, rest => rest
  | n + 1, rest => segment content start n (content.get! (start + n) :: rest)

theorem get!_eq_getElem_data (content : ByteArray) (i : Nat) (h : i < content.data.size) :
    content.get! i = content.data[i] := by
  change content.data[i]! = _
  exact getElem!_pos content.data i h

theorem segment_eq (content : ByteArray) (start n : Nat) (rest : Bytes)
    (h : start + n ≤ content.size) :
    segment content start n rest = (content.data.toList.drop start).take n ++ rest := by
  induction n generalizing rest with
  | zero => simp [segment]
  | succ n ih =>
    have hi : start + n < content.data.size := h
    rw [segment, ih _ (by omega), get!_eq_getElem_data content _ hi, List.take_add_one]
    simp [List.getElem?_drop, Array.getElem?_eq_getElem hi]

/-- Why a file could not be used. -/
inductive FileError where
  | notFound
  | isDirectory
  | nameTooLong
  /-- The position is beyond that of any byte. -/
  | badPosition
  | other (reason : String)
deriving DecidableEq, Repr, Inhabited

/-- Wording of the error. -/
def FileError.message : FileError → String
  | notFound => "No such file or directory (os error 2)"
  | isDirectory => "Is a directory (os error 21)"
  | nameTooLong => "File name too long (os error 36)"
  | badPosition => "Invalid argument (os error 22)"
  | other reason => reason

namespace File

/-- Most bytes that a name can have. -/
def maxName : Nat := 255

/-- The last position. -/
def maxPosition : Nat := 9223372036854775807

/-- What stands at a name before anything is put there. -/
def vacant (name : String) : File :=
  if maxName < name.utf8ByteSize then unnameable else absent

/-- A regular file of these bytes. -/
def ofBytes (b : Bytes) : File :=
  regular b.toByteArray

/-- The bytes of a file; there are none where there is no regular file. -/
def bytes : File → Bytes
  | regular content => segment content 0 content.size []
  | _ => []

/-- Number of bytes. -/
def size : File → Nat
  | regular content => content.size
  | _ => 0

/-- The length of what stands at a path. -/
def length? : File → Option Nat
  | absent | unnameable => none
  | directory length => some length
  | regular content => some content.size

/-- Up to `n` bytes from a position on. -/
def slice (f : File) (position n : Nat) : Bytes :=
  match f with
  | regular content => segment content position (min n (content.size - position)) []
  | _ => []

/-- Whether there is a regular file. -/
def isRegular : File → Bool
  | regular _ => true
  | _ => false

/-- Whether there is a directory. -/
def isDirectory : File → Bool
  | directory _ => true
  | _ => false

/-- Why a file cannot be opened for reading at a position. A directory can be opened, though not
read. -/
def obstacle? (f : File) (position : Nat) : Option FileError :=
  match f with
  | absent => some .notFound
  | unnameable => some .nameTooLong
  | _ => if maxPosition < position then some .badPosition else none

/-- Why `n` bytes cannot be fetched from a position. Beyond the end of a file there are none to
fetch, but even there the place after them has to be a position. -/
def fetchObstacle? (f : File) (position n : Nat) : Option FileError :=
  match f with
  | directory _ => some .isDirectory
  | _ => if f.size < position ∧ maxPosition < position + n then some .badPosition else none

/-- Opens a file for writing: it is created where there is nothing. -/
def create : File → Except FileError File
  | absent => .ok (ofBytes [])
  | directory _ => .error .isDirectory
  | unnameable => .error .nameTooLong
  | regular content => .ok (regular content)

/-- Adds bytes at the end of a regular file. -/
def append (f : File) (more : ByteArray) : File :=
  match f with
  | regular content => regular (content ++ more)
  | other => other

/-- Cuts a regular file back to its first `n` bytes. -/
def truncate (f : File) (n : Nat) : File :=
  match f with
  | regular content => regular (content.extract 0 n)
  | other => other

theorem isDirectory_of_isRegular {f : File} (h : f.isRegular) : f.isDirectory = false := by
  cases f with
  | regular => rfl
  | _ => cases h

@[simp] theorem isDirectory_append (f : File) (more : ByteArray) :
    (f.append more).isDirectory = f.isDirectory := by
  cases f <;> rfl

theorem fetchObstacle?_eq_none {f : File} (h : f.isDirectory = false) {position : Nat}
    (hp : position ≤ f.size) (n : Nat) : f.fetchObstacle? position n = none := by
  cases f with
  | directory => cases h
  | _ => exact if_neg fun hn => Nat.not_lt_of_le hp hn.1

theorem bytes_regular (content : ByteArray) : (regular content).bytes = content.data.toList := by
  rw [bytes, segment_eq content 0 content.size [] (by omega)]
  simp [List.take_of_length_le]

@[simp] theorem bytes_ofBytes (b : Bytes) : (ofBytes b).bytes = b := by
  simp [ofBytes, bytes_regular]

@[simp] theorem length_bytes (f : File) : f.bytes.length = f.size := by
  cases f with
  | regular content => simp [bytes_regular, size]
  | _ => rfl

@[simp] theorem slice_eq (f : File) (position n : Nat) :
    f.slice position n = (f.bytes.drop position).take n := by
  cases f with
  | regular content =>
    have hl : (content.data.toList.drop position).length = content.size - position := by simp
    rw [bytes_regular, slice]
    by_cases h : position ≤ content.size
    · rw [segment_eq content position _ [] (by omega), List.append_nil, ← hl]
      rcases Nat.le_total n (content.data.toList.drop position).length with hn | hn
      · rw [Nat.min_eq_left hn]
      · rw [Nat.min_eq_right hn, List.take_length, List.take_of_length_le hn]
    · rw [Nat.sub_eq_zero_of_le (by omega), Nat.min_zero, segment]
      rw [List.drop_eq_nil_of_le (by simp; omega), List.take_nil]
  | _ => simp [slice, bytes]

@[simp] theorem bytes_append (content more : ByteArray) :
    ((regular content).append more).bytes = (regular content).bytes ++ more.data.toList := by
  simp [append, bytes_regular]

@[simp] theorem bytes_truncate (f : File) (n : Nat) : (f.truncate n).bytes = f.bytes.take n := by
  cases f with
  | regular content => simp [truncate, bytes_regular]
  | _ => simp [truncate, bytes]

end File

end Bourse
