import Bourse.Message
import Bourse.Record.Layout

/-!
# Binary records

Commands take 67 bytes and events 68. Both begin with a version and a type; the other fields
are the same for all types, and a type leaves those it does not use at zero. Signed numbers are
written in two's complement.
-/

namespace Bourse.Binary

/-- The version of both kinds of record. -/
def version : UInt8 := 1

/-- Kinds of command that a record can hold. -/
inductive CommandType where
  | submit
  | cancel
deriving DecidableEq, Repr, Inhabited

namespace CommandType

/-- The byte of a type. -/
def toByte : CommandType → UInt8
  | submit => 1
  | cancel => 2

/-- Reads the byte of a type. -/
def ofByte? (b : UInt8) : Option CommandType :=
  [submit, cancel].find? (·.toByte = b)

@[simp] theorem ofByte?_toByte (t : CommandType) : ofByte? t.toByte = some t := by
  cases t <;> decide

end CommandType

/-- Kinds of event that a record can hold. -/
inductive EventType where
  | accepted
  | rejected
  | added
  | cancelled
  | traded
  | commandEnd
deriving DecidableEq, Repr, Inhabited

namespace EventType

/-- The byte of a type. -/
def toByte : EventType → UInt8
  | accepted => 1
  | rejected => 2
  | added => 3
  | cancelled => 4
  | traded => 5
  | commandEnd => 250

/-- Reads the byte of a type. -/
def ofByte? (b : UInt8) : Option EventType :=
  [accepted, rejected, added, cancelled, traded, commandEnd].find? (·.toByte = b)

@[simp] theorem ofByte?_toByte (t : EventType) : ofByte? t.toByte = some t := by
  cases t <;> decide

end EventType

/-! ## Fields -/

/-- Version, type, sequence number, request, time, order, user, side, price, quantity and the
order to cancel. -/
def commandLayout : Layout :=
  [1, 1, 8, 8, 8, 8, 8, 1, 8, 8, 8]

/-- Version, type, sequence number, position, request, order, user, maker, taker, price and
quantity. A rejection has its reason in place of the maker. -/
def eventLayout : Layout :=
  [1, 1, 8, 2, 8, 8, 8, 8, 8, 8, 8]

/-- A signed number as the unsigned one with the same bits. -/
def bits (n : Int64) : Nat :=
  n.toUInt64.toNat

/-- The signed number with these bits. -/
def ofBits (n : Nat) : Int64 :=
  (UInt64.ofNat n).toInt64

/-! ## Commands -/

/-- Writes a command and its sequence number. -/
def encodeCommand (seq : Seq) (c : Command) : Bytes :=
  let first (t : CommandType) :=
    [version.toNat, t.toByte.toNat, seq.toNat, c.request.toNat, bits c.time]
  commandLayout.write <| match c.action with
    | .submit o => first .submit ++
      [o.id.toNat, o.user.toNat, o.side.toByte.toNat, bits o.price, bits o.qty, 0]
    | .cancel target => first .cancel ++ [0, 0, 0, 0, 0, target.toNat]

/-- A number to be put into a record. -/
structure Entry where
  offset : Nat
  width : Nat
  value : Nat
deriving DecidableEq, Repr, Inhabited

/-- Adds a record to a buffer: room for it is made, filled with zeros, and then each number is put at
its offset. -/
def fill (buffer : Bytes) (l : Layout) (entries : List Entry) : Bytes :=
  entries.foldl (fun b e => b.putNat (buffer.length + e.offset) e.width e.value)
    (buffer ++ List.replicate l.size 0)

/-- Adds the record of a command to a buffer. -/
def appendCommand (buffer : Bytes) (seq : Seq) (c : Command) : Bytes :=
  let first : List Entry := [⟨0, 1, version.toNat⟩, ⟨2, 8, seq.toNat⟩, ⟨10, 8, c.request.toNat⟩,
    ⟨18, 8, bits c.time⟩]
  fill buffer commandLayout <| first ++ match c.action with
    | .submit o =>
      [⟨1, 1, CommandType.submit.toByte.toNat⟩, ⟨26, 8, o.id.toNat⟩, ⟨34, 8, o.user.toNat⟩,
        ⟨42, 1, o.side.toByte.toNat⟩, ⟨43, 8, bits o.price⟩, ⟨51, 8, bits o.qty⟩]
    | .cancel target => [⟨1, 1, CommandType.cancel.toByte.toNat⟩, ⟨59, 8, target.toNat⟩]

/-- Checks the size of a record, then its version. -/
def checkHeader (l : Layout) (b : Bytes) : Except RecordError Unit :=
  if b.length ≠ l.size then .error (.badLength b.length l.size)
  else if b.head? ≠ some version then .error (.versionMismatch (b.headD 0) version)
  else .ok ()

/-- Reads a command and its sequence number. -/
def decodeCommand (b : Bytes) : Except RecordError (Seq × Command) := do
  checkHeader commandLayout b
  match commandLayout.read b with
  | [_, type, seq, request, time, id, user, side, price, qty, target] =>
    let seq := UInt64.ofNat seq
    let request := UInt64.ofNat request
    let time := ofBits time
    match CommandType.ofByte? (UInt8.ofNat type) with
    | none => .error (.unknownCommandType (UInt8.ofNat type))
    | some .submit =>
      match Side.ofByte? (UInt8.ofNat side) with
      | none => .error (.invalidField "side")
      | some side =>
        let order : Order :=
          { id := UInt64.ofNat id, user := UInt64.ofNat user, side,
            price := ofBits price, qty := ofBits qty }
        .ok (seq, { request, time, action := .submit order })
    | some .cancel => .ok (seq, { request, time, action := .cancel (UInt64.ofNat target) })
  | _ => .error (.badLength b.length commandLayout.size)

/-! ## Events -/

/-- Type of a kind of event. -/
def eventType : EventKind → EventType
  | .accepted .. => .accepted
  | .rejected .. => .rejected
  | .added .. => .added
  | .cancelled .. => .cancelled
  | .traded .. => .traded
  | .commandEnd => .commandEnd

/-- Writes an event. -/
def encodeEvent (e : Event) : Bytes :=
  eventLayout.write <|
    [version.toNat, (eventType e.kind).toByte.toNat, e.seq.toNat, e.idx.toNat, e.request.toNat] ++
    match e.kind with
    | .accepted order user => [order.toNat, user.toNat, 0, 0, 0, 0]
    | .rejected order user reason => [order.toNat, user.toNat, reason.code.toNat, 0, 0, 0]
    | .added order user => [order.toNat, user.toNat, 0, 0, 0, 0]
    | .cancelled order => [order.toNat, 0, 0, 0, 0, 0]
    | .traded t => [0, 0, t.maker.toNat, t.taker.toNat, bits t.price, bits t.qty]
    | .commandEnd => [0, 0, 0, 0, 0, 0]

/-- Adds the record of an event to a buffer. -/
def appendEvent (buffer : Bytes) (e : Event) : Bytes :=
  let first : List Entry := [⟨0, 1, version.toNat⟩, ⟨2, 8, e.seq.toNat⟩, ⟨10, 2, e.idx.toNat⟩,
    ⟨12, 8, e.request.toNat⟩]
  let kind : List Entry := match e.kind with
    | .accepted order user => [⟨20, 8, order.toNat⟩, ⟨28, 8, user.toNat⟩]
    | .rejected order user reason =>
      [⟨20, 8, order.toNat⟩, ⟨28, 8, user.toNat⟩, ⟨36, 8, reason.code.toNat⟩]
    | .added order user => [⟨20, 8, order.toNat⟩, ⟨28, 8, user.toNat⟩]
    | .cancelled order => [⟨20, 8, order.toNat⟩]
    | .traded t =>
      [⟨36, 8, t.maker.toNat⟩, ⟨44, 8, t.taker.toNat⟩, ⟨52, 8, bits t.price⟩, ⟨60, 8, bits t.qty⟩]
    | .commandEnd => []
  fill buffer eventLayout (first ++ kind ++ [⟨1, 1, (eventType e.kind).toByte.toNat⟩])

/-- Reads an event. -/
def decodeEvent (b : Bytes) : Except RecordError Event := do
  checkHeader eventLayout b
  match eventLayout.read b with
  | [_, type, seq, idx, request, order, user, maker, taker, price, qty] =>
    let done (kind : EventKind) : Except RecordError Event :=
      .ok { seq := UInt64.ofNat seq, idx := UInt16.ofNat idx, request := UInt64.ofNat request, kind }
    let order := UInt64.ofNat order
    let user := UInt64.ofNat user
    let maker := UInt64.ofNat maker
    match EventType.ofByte? (UInt8.ofNat type) with
    | none => .error (.unknownEventType (UInt8.ofNat type))
    | some .accepted => done (.accepted order user)
    | some .rejected =>
      match RejectReason.ofCode? maker with
      | none => .error (.invalidField "reject reason")
      | some reason => done (.rejected order user reason)
    | some .added => done (.added order user)
    | some .cancelled => done (.cancelled order)
    | some .traded =>
      done (.traded
        { maker, taker := UInt64.ofNat taker, price := ofBits price, qty := ofBits qty })
    | some .commandEnd => done .commandEnd
  | _ => .error (.badLength b.length eventLayout.size)

end Bourse.Binary
