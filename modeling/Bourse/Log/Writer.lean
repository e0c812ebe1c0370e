import Bourse.Attempt
import Bourse.Log.Error
import Bourse.Log.Frame

/-!
# Writing a log

A `Writer` adds records at the end of a file. It collects them in a buffer, so a batch of
records can be made durable at once by `Writer.flush`; what does not fit the buffer is written
earlier.
-/

namespace Bourse.Log

/-- Number of bytes that writers collect unless told otherwise. -/
def defaultWriteBuffer : Nat := 1048576

/-- Longest payload whose length fits the header. -/
def maxLength : Nat := 4294967295

/-- The end of a log, to which records are added. -/
structure Writer where
  capacity : Nat
  /-- Size that the log has with everything that was added. -/
  offset : Nat
  /-- Added and not yet written to the file. -/
  pending : ByteArray := .empty
deriving Inhabited

namespace Writer

/-- Number of bytes that a writer collects when it is told to. Zero stands for the default. -/
def bufferSize (buffer : Nat) : Nat :=
  if buffer = 0 then defaultWriteBuffer else buffer

/-- Opens a file for adding records and creates it if there is none. -/
def open? (f : File) (buffer : Nat) : Attempt File LogError Writer :=
  match f.create with
  | .error e => (f, .error (.file e))
  | .ok f => (f, .ok { capacity := bufferSize buffer, offset := f.size })

/-- Writes what is pending to the file. -/
def flush (w : Writer) (f : File) : Writer × File :=
  ({ w with pending := .empty }, f.append w.pending)

/-- Passes bytes through the buffer. If they do not fit beside what is pending, that is written
first; if they do not fit the buffer at all, they are written at once. -/
def put (w : Writer) (f : File) (b : ByteArray) : Writer × File :=
  let room := w.capacity - w.pending.size
  if b.size < room then ({ w with pending := w.pending ++ b }, f)
  else
    let (w, f) := if room < b.size then w.flush f else (w, f)
    if w.capacity ≤ b.size then (w, f.append b) else ({ w with pending := w.pending ++ b }, f)

/-- Adds a record. -/
def append (w : Writer) (f : File) (payload : Bytes) : Except LogError (Writer × File) :=
  if maxLength < payload.length then
    .error (.payloadTooLarge w.offset payload.length maxLength)
  else
    let (w, f) := w.put f ((frame payload).take headerSize).toByteArray
    let (w, f) := w.put f payload.toByteArray
    .ok ({ w with offset := w.offset + headerSize + payload.length }, f)

end Writer

end Bourse.Log
