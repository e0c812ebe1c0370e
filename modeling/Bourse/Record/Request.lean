import Bourse.Record.Csv

/-!
# Requests and publications

A `Request` is a command for a symbol, a `Publication` an event of a symbol. Clients write
requests as lines of text and are told of events in lines of text.
-/

namespace Bourse

/-- A command for the book of a symbol. -/
structure Request where
  symbol : String
  command : Command
deriving DecidableEq, Repr, Inhabited

/-- An event of the book of a symbol. -/
structure Publication where
  symbol : String
  event : Event
deriving DecidableEq, Repr, Inhabited

namespace Publication

/-- What tells publications apart: a publication that is repeated has the same key. -/
def key (p : Publication) : String × Seq × UInt16 :=
  (p.symbol, p.event.seq, p.event.idx)

/-- Publications without repetitions, where those with the same key stand side by side; the
last of them stays. -/
def distinct (l : List Publication) : List Publication :=
  (l.splitBy fun a b => a.key = b.key).filterMap List.getLast?

/-- What a subscriber makes of the publications of a symbol, some of which may have been
repeated: every event once, in the order of commands and of the events of each command. The sort
is stable, so it is what was published last that stays. -/
def settle (l : List Publication) : List Publication :=
  distinct <| l.mergeSort fun a b =>
    a.event.seq < b.event.seq || a.event.seq = b.event.seq && a.event.idx ≤ b.event.idx

/-- A publication as a line: the symbol before the fields of the event. -/
def line (p : Publication) : List Char :=
  p.symbol.toList ++ ',' :: ' ' :: Csv.eventLine p.event

end Publication

namespace Request

/-- Whether a line says nothing: it is blank or a comment. -/
def isSkipped (line : List Char) : Bool :=
  match Text.trim line with
  | [] => true
  | c :: _ => c = '#'

/-- Reads a request, `none` for a line that says nothing. The fields are `N`, symbol, request,
order, user, side, price and quantity, or `C`, symbol, request and order. -/
def ofLine (line : List Char) : Except RecordError (Option Request) := do
  if isSkipped line then return none
  let line := Text.trim line
  let fail {α : Type} (reason : String) : Except RecordError α := Csv.expect line reason none
  match Text.fields line with
  | ['N'] :: rest =>
    match rest with
    | [symbol, request, id, user, side, price, qty] =>
      let request ← Csv.expect line "req id" (Text.word? request)
      let id ← Csv.expect line "order id" (Text.word? id)
      let user ← Csv.expect line "user id" (Text.word? user)
      let side ← Csv.expect line "side" (Csv.side? side)
      let price ← Csv.expect line "price" (Text.int64? price)
      let qty ← Csv.expect line "qty" (Text.int64? qty)
      let order : Order := { id, user, side, price, qty }
      return some { symbol := String.ofList symbol, command := { request, action := .submit order } }
    | _ => fail "expected 8 fields"
  | ['C'] :: rest =>
    match rest with
    | [symbol, request, target] =>
      let request ← Csv.expect line "req id" (Text.word? request)
      let target ← Csv.expect line "order id" (Text.word? target)
      return some { symbol := String.ofList symbol, command := { request, action := .cancel target } }
    | _ => fail "expected 4 fields"
  | _ => fail "unknown command tag"

end Request

end Bourse
