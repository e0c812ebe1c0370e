import Bourse.File

/-!
# Stored cursors

A cursor is an offset into a log, kept in a file of its own as eight bytes. It is replaced as a
whole, so the file never holds part of a cursor unless someone else wrote it.
-/

namespace Bourse

/-- Why a cursor could not be read. -/
inductive CursorError where
  | file (error : FileError)
  /-- The file holds fewer bytes than a cursor has. -/
  | tooShort (size : Nat)
deriving DecidableEq, Repr, Inhabited

/-- Wording of the error, for the cursor at `path`. -/
def CursorError.message (path : String) : CursorError → String
  | file error => error.message
  | tooShort size => "cursor file " ++ path ++ " holds " ++ toString size ++ " bytes"

namespace Cursor

/-- Number of bytes of a cursor. -/
def size : Nat := 8

/-- The bytes of a cursor. -/
def encode (offset : Nat) : Bytes :=
  Bytes.ofNat size offset

/-- Reads a cursor. Where there is no file it is zero; bytes beyond the eighth are ignored. -/
def load (f : File) : Except CursorError Nat :=
  match f with
  | .absent => .ok 0
  | .directory _ => .error (.file .isDirectory)
  | .unnameable => .error (.file .nameTooLong)
  | .regular content =>
    if content.size < size then .error (.tooShort content.size)
    else .ok (Bytes.value (f.slice 0 size))

/-- Replaces a cursor. A directory cannot be replaced. -/
def store (f : File) (offset : Nat) : Except FileError File :=
  match f with
  | .directory _ => .error .isDirectory
  | .unnameable => .error .nameTooLong
  | _ => .ok (.ofBytes (encode offset))

theorem load_store {f g : File} {offset : Nat} (h : store f offset = .ok g) :
    load g = .ok (offset % Bytes.capacity size) := by
  unfold store at h
  split at h
  · cases h
  · cases h
  · injection h with h
    subst h
    simp [load, encode, File.ofBytes, File.bytes_regular, Bytes.value_ofNat, List.take_of_length_le]

end Cursor

end Bourse
