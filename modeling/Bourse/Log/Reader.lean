import Bourse.Log.Error
import Bourse.Log.Frame

/-!
# Reading a log record by record

A `Reader` hands out the records of a file one after the other, from a given record boundary on.
A record that the end of the file cuts short, a torn record, is an error or, for a tolerant
reader, the end of the records; either way `lastGood` is where the file should be cut.

A reader fetches bytes ahead in large pieces, so it may have seen more of the file than it has
handed out; what the file grows by later is still read.
-/

namespace Bourse.Log

/-- The bytes that a reader takes from a file: those fetched and not yet handed out, and the
position up to which the file was fetched. -/
structure Source where
  /-- Number of bytes fetched at once. -/
  capacity : Nat
  /-- Position in the file of the next byte to fetch. -/
  position : Nat
  /-- Fetched and not handed out. -/
  ahead : Bytes := []
deriving Repr, Inhabited

namespace Source

/-- The bytes that are still to be handed out. -/
def unread (s : Source) (f : File) : Bytes :=
  s.ahead ++ f.bytes.drop s.position

/-- Up to `n` of the bytes that will be handed out after the next `k`. -/
def peek (f : File) (s : Source) (k n : Nat) : Bytes :=
  let held := (s.ahead.drop k).take n
  if held.length = n then held
  else held ++ f.slice (s.position + (k - s.ahead.length)) (n - held.length)

/-- Number of bytes fetched when some are missing: as many as fit the buffer, or as are missing if
that is more. -/
def demand (s : Source) (missing : Nat) : Nat :=
  max s.capacity missing

/-- Why the next `n` bytes cannot be handed out. -/
def obstacle? (f : File) (s : Source) (n : Nat) : Option FileError :=
  let held := s.ahead.take n
  if held.length = n then none
  else f.fetchObstacle? s.position (s.demand (n - held.length))

/-- Hands out up to `n` bytes, for which more are fetched when those fetched do not suffice. -/
def skip (f : File) (s : Source) (n : Nat) : Source :=
  let held := s.ahead.take n
  if held.length = n then { s with ahead := s.ahead.drop n }
  else
    let missing := n - held.length
    let wanted := s.demand missing
    { s with
      position := s.position + min wanted (f.size - s.position)
      ahead := f.slice (s.position + missing) (wanted - missing) }

/-- What stands where the source stands. No more of the file is looked at than needed. -/
def find (limit : Nat) (f : File) (s : Source) : Frame :=
  let header := s.peek f 0 headerSize
  Frame.judge limit header (s.peek f headerSize (min (Frame.announced header) limit)) []

/-- Within a file nothing stands in the way. -/
theorem obstacle?_eq_none {s : Source} {f : File} (h : f.isDirectory = false)
    (hp : s.position ≤ f.size) (n : Nat) : s.obstacle? f n = none := by
  unfold obstacle?
  dsimp only
  split
  · rfl
  · exact File.fetchObstacle?_eq_none h hp _

theorem peek_eq (s : Source) (f : File) (k n : Nat) :
    s.peek f k n = ((s.unread f).drop k).take n := by
  simp only [peek, unread, File.slice_eq, List.drop_append, List.take_append, List.length_take,
    List.length_drop, List.drop_drop]
  split
  · next h =>
    rw [Nat.sub_eq_zero_of_le (by omega : n ≤ s.ahead.length - k), List.take_zero, List.append_nil]
  · congr 2
    omega

theorem find_eq (s : Source) (limit : Nat) (f : File) :
    s.find limit f = (Frame.parse limit (s.unread f)).alone := by
  rw [find, peek_eq, peek_eq, List.drop_zero, Frame.judge_eq_alone]

/-- Finds what stands at an offset of a file. -/
def findAt (limit : Nat) (f : File) (offset : Nat) : Frame :=
  find limit f { capacity := 0, position := offset }

theorem findAt_eq (limit : Nat) (f : File) (offset : Nat) :
    findAt limit f offset = (Frame.parse limit (f.bytes.drop offset)).alone := by
  rw [findAt, find_eq]
  rfl

theorem le_size_of_findAt {limit : Nat} {f : File} {offset : Nat} {payload rest : Bytes}
    (h : findAt limit f offset = .record payload rest) :
    offset + headerSize + payload.length ≤ f.size := by
  rw [findAt_eq] at h
  cases hp : Frame.parse limit (f.bytes.drop offset) with
  | record p r =>
    rw [hp] at h
    injection h with h _
    have := (Frame.rest_of_parse hp).1
    rw [List.length_drop, File.length_bytes] at this
    subst h
    simp only [headerSize] at this ⊢
    omega
  | _ => rw [hp] at h; cases h

/-- Skipping hands out the first bytes of what is unread and no others. -/
theorem unread_skip (s : Source) (f : File) (n : Nat) :
    (s.skip f n).unread f = (s.unread f).drop n := by
  unfold skip demand
  simp only [List.length_take, File.slice_eq]
  split
  · next h => simp only [unread, List.drop_append_of_le_length (by omega : n ≤ s.ahead.length)]
  · next h =>
    simp only [unread]
    have hm : n - min n s.ahead.length = n - s.ahead.length := by omega
    rw [hm]
    have hle : n - s.ahead.length ≤ max s.capacity (n - s.ahead.length) := Nat.le_max_right ..
    generalize max s.capacity (n - s.ahead.length) = k at hle
    rw [List.drop_append, List.drop_eq_nil_of_le (by omega : s.ahead.length ≤ n), List.nil_append]
    generalize n - s.ahead.length = m at hle
    have hd : (f.bytes.drop s.position).length = f.size - s.position := by simp
    rw [← List.drop_drop, ← List.drop_drop, ← hd]
    generalize f.bytes.drop s.position = d
    have hp : d.drop (min k d.length) = d.drop k := by
      rcases Nat.le_total k d.length with h1 | h1
      · rw [Nat.min_eq_left h1]
      · rw [Nat.min_eq_right h1, List.drop_length, List.drop_eq_nil_of_le h1]
    rw [hp]
    conv => rhs; rw [← List.take_append_drop (k - m) (d.drop m)]
    rw [List.drop_drop, Nat.add_sub_cancel' hle]

end Source

/-- How a log is to be read. Zero stands for the default. -/
structure ReadOptions where
  /-- Longest payload accepted. -/
  maxPayload : Nat := 0
  /-- Number of bytes fetched at once. -/
  buffer : Nat := 0
  /-- Whether a torn record ends the log without an error. -/
  tolerant : Bool := false
deriving Repr, Inhabited

/-- Number of bytes that readers fetch at once unless told otherwise. -/
def defaultReadBuffer : Nat := 1048576

/-- The longest payload accepted. -/
def ReadOptions.limit (o : ReadOptions) : Nat :=
  if o.maxPayload = 0 then defaultLimit else o.maxPayload

/-- A place in a log from which records are read. -/
structure Reader where
  source : Source
  limit : Nat
  tolerant : Bool
  /-- Offset of the next record. -/
  offset : Nat
  /-- End of the last record handed out. -/
  lastGood : Nat
  /-- A torn record was seen. -/
  torn : Bool := false
deriving Repr, Inhabited

/-- A record of a log: its payload and the offset of the byte after it. -/
structure Record where
  payload : Bytes
  stop : Nat
deriving DecidableEq, Repr, Inhabited

namespace Reader

/-- Opens a file at a record boundary. A directory can be opened, though not read. -/
def open? (f : File) (offset : Nat) (o : ReadOptions) : Except LogError Reader :=
  match f.obstacle? offset with
  | some e => .error (.file e)
  | none =>
    let capacity := if o.buffer = 0 then defaultReadBuffer else o.buffer
    .ok
      { source := { capacity, position := offset }, limit := o.limit, tolerant := o.tolerant,
        offset, lastGood := offset }

/-- Notes a torn record, and reports it unless it is tolerated. -/
def tear (r : Reader) (e : LogError) : Reader × Except LogError (Option Record) :=
  ({ r with torn := true }, if r.tolerant then .ok none else .error e)

/-- What comes of looking at the place in the log: `found` stands there, and `source` is behind
what was looked at. -/
def after (r : Reader) (found : Frame) (source : Source) :
    Reader × Except LogError (Option Record) :=
  let r := { r with source }
  match found with
  | .nothing => (r, .ok none)
  | .shortHeader => r.tear (.truncatedHeader r.offset)
  | .tooLarge length => (r, .error (.payloadTooLarge r.offset length r.limit))
  | .shortPayload _ => r.tear (.truncatedPayload r.offset)
  | .corrupt _ => (r, .error (.checksumMismatch r.offset))
  | .record payload _ =>
    let stop := r.offset + headerSize + payload.length
    ({ r with offset := stop, lastGood := stop }, .ok (some { payload, stop }))

/-- The next record, or `none` at the end of the log. After an error the offset stays where it
was, but what was looked at does not come again. -/
def next (r : Reader) (f : File) : Reader × Except LogError (Option Record) :=
  match r.source.obstacle? f headerSize with
  | some e => (r, .error (.file e))
  | none =>
    let found := r.source.find r.limit f
    r.after found (found.requests.foldl (Source.skip f) r.source)

/-- What is handed out depends only on the bytes that are unread. -/
theorem next_eq (r : Reader) (f : File) (h : r.source.obstacle? f headerSize = none) :
    r.next f =
      r.after (Frame.parse r.limit (r.source.unread f))
        ((Frame.parse r.limit (r.source.unread f)).requests.foldl (Source.skip f) r.source) := by
  rw [next, h]
  simp only [Source.find_eq]
  cases Frame.parse r.limit (r.source.unread f) <;> rfl

end Reader

end Bourse.Log
