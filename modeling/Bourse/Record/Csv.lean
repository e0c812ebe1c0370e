import Bourse.Message
import Bourse.Record.Layout
import Bourse.Text.Field
import Bourse.Text.Number

/-!
# Records as lines of text

The readable form of a record is one line of fields. The first field is a letter that says what
kind of record it is and so how many fields follow; numbers are in decimal.
-/

namespace Bourse.Csv

/-- Passes on what was read, or says what is wrong with the line. -/
def expect {α : Type} (line : List Char) (reason : String) (read : Option α) :
    Except RecordError α :=
  match read with
  | some a => .ok a
  | none => .error (.malformed (String.ofList line) reason)

/-- An unsigned number as a field. -/
def word (n : UInt64) : List Char :=
  Text.ofNat n.toNat

/-- A signed number as a field. -/
def int (n : Int64) : List Char :=
  Text.ofInt n.toInt

/-- Reads the letter of a side. -/
def side? (field : List Char) : Option Side :=
  match field with
  | [c] => Side.ofChar? c
  | _ => none

/-! ## Commands -/

/-- The fields of a command: `N`, sequence number, request, time, order, user, side, price and
quantity, or `C`, sequence number, request, time and order. -/
def commandFields (seq : Seq) (c : Command) : List (List Char) :=
  match c.action with
  | .submit o =>
    [['N'], word seq, word c.request, int c.time, word o.id, word o.user, [o.side.toChar],
      int o.price, int o.qty]
  | .cancel target => [['C'], word seq, word c.request, int c.time, word target]

/-- A command and its sequence number as a line. -/
def commandLine (seq : Seq) (c : Command) : List Char :=
  Text.ofFields (commandFields seq c)

/-- Reads the line of a command. -/
def readCommand (line : List Char) : Except RecordError (Seq × Command) := do
  let fail {α : Type} (reason : String) : Except RecordError α := expect line reason none
  match Text.fields line with
  | ['N'] :: rest =>
    match rest with
    | [seq, request, time, id, user, side, price, qty] =>
      let seq ← expect line "seq" (Text.word? seq)
      let request ← expect line "req id" (Text.word? request)
      let time ← expect line "client ts" (Text.int64? time)
      let id ← expect line "order id" (Text.word? id)
      let user ← expect line "user id" (Text.word? user)
      let side ← expect line "side" (side? side)
      let price ← expect line "price" (Text.int64? price)
      let qty ← expect line "qty" (Text.int64? qty)
      return (seq, { request, time, action := .submit { id, user, side, price, qty } })
    | _ => fail "expected 9 fields"
  | ['C'] :: rest =>
    match rest with
    | [seq, request, time, target] =>
      let seq ← expect line "seq" (Text.word? seq)
      let request ← expect line "req id" (Text.word? request)
      let time ← expect line "client ts" (Text.int64? time)
      let target ← expect line "order id" (Text.word? target)
      return (seq, { request, time, action := .cancel target })
    | _ => fail "expected 5 fields"
  | _ => fail "unknown command tag"

/-! ## Events -/

/-- The letter of a kind of event. -/
def tag : EventKind → Char
  | .accepted .. => 'A'
  | .rejected .. => 'R'
  | .added .. => 'D'
  | .cancelled .. => 'X'
  | .traded .. => 'T'
  | .commandEnd => 'E'

/-- Number of fields of the line that begins with a letter, if any does. -/
def fieldCount? : List Char → Option Nat
  | ['A'] => some 6
  | ['R'] => some 7
  | ['D'] => some 6
  | ['X'] => some 5
  | ['T'] => some 8
  | ['E'] => some 4
  | _ => none

/-- The fields of a kind of event. -/
def kindFields : EventKind → List (List Char)
  | .accepted order user => [word order, word user]
  | .rejected order user reason => [word order, word user, word reason.code]
  | .added order user => [word order, word user]
  | .cancelled order => [word order]
  | .traded t => [word t.maker, word t.taker, int t.price, int t.qty]
  | .commandEnd => []

/-- An event as a line: its letter, sequence number, position and request, and then the fields
of its kind. -/
def eventLine (e : Event) : List Char :=
  Text.ofFields
    ([[tag e.kind], word e.seq, Text.ofNat e.idx.toNat, word e.request] ++ kindFields e.kind)

/-- Reads the fields of a kind of event. -/
def readKind (line letter : List Char) (rest : List (List Char)) :
    Except RecordError EventKind := do
  let number (name : String) (field : List Char) := expect line name (Text.word? field)
  match letter, rest with
  | ['A'], [order, user] => return .accepted (← number "order id" order) (← number "user id" user)
  | ['R'], [order, user, reason] =>
    let order ← number "order id" order
    let user ← number "user id" user
    let code ← number "reason" reason
    return .rejected order user (← expect line "reason" (RejectReason.ofCode? code))
  | ['D'], [order, user] => return .added (← number "order id" order) (← number "user id" user)
  | ['X'], [order] => return .cancelled (← number "order id" order)
  | ['T'], [maker, taker, price, qty] =>
    let maker ← number "maker id" maker
    let taker ← number "taker id" taker
    let price ← expect line "price" (Text.int64? price)
    let qty ← expect line "qty" (Text.int64? qty)
    return .traded { maker, taker, price, qty }
  | _, _ => return .commandEnd

/-- Reads the line of an event. -/
def readEvent (line : List Char) : Except RecordError Event := do
  let fields := Text.fields line
  let count ← expect line "unknown event tag" (fields.head?.bind fieldCount?)
  match fields with
  | letter :: seq :: idx :: request :: rest =>
    if fields.length ≠ count then expect line "wrong field count" none
    else
      let seq ← expect line "seq" (Text.word? seq)
      let idx ← expect line "idx" (Text.unsigned? 16 idx)
      let request ← expect line "req id" (Text.word? request)
      return { seq, idx := UInt16.ofNat idx, request, kind := ← readKind line letter rest }
  | _ => expect line "wrong field count" none

end Bourse.Csv
