import Bourse.Order

/-!
# Commands and events

A `Command` is what a client asks of a symbol's book; an `Event` is what came of it. Events of
one command share its sequence number and are numbered from zero, and a closing event marks
that the command is complete.
-/

namespace Bourse

/-- Sequence number of a logged command; the first one is `1`. -/
abbrev Seq := UInt64

/-- What a client asks for. -/
inductive Action where
  /-- Trade against the book and leave the remainder resting. -/
  | submit (order : Order)
  /-- Take a resting order off the book. -/
  | cancel (target : OrderId)
deriving DecidableEq, Repr, Inhabited

/-- A request with the client's own number and time stamp, which are carried along and never
interpreted. -/
structure Command where
  request : UInt64 := 0
  time : Int64 := 0
  action : Action
deriving DecidableEq, Repr, Inhabited

/-- Whether the command submits an order. -/
def Command.isSubmit (c : Command) : Bool :=
  match c.action with
  | .submit _ => true
  | .cancel _ => false

/-- Whether the command cancels an order. -/
def Command.isCancel (c : Command) : Bool :=
  !c.isSubmit

/-- Why a command was refused. -/
inductive RejectReason where
  /-- The order has no id, or its price or quantity is not positive. -/
  | badSubmit
  /-- No order was named. -/
  | badCancel
  /-- The named order does not rest in the book. -/
  | orderNotFound
  /-- An order with the same id still rests in the book. -/
  | duplicateOrderId
  /-- The book cannot hold another order. -/
  | bookFull
deriving DecidableEq, Repr, Inhabited

namespace RejectReason

/-- Number of the reason in records. -/
def code : RejectReason → UInt64
  | badSubmit => 1
  | badCancel => 2
  | orderNotFound => 3
  | duplicateOrderId => 4
  | bookFull => 5

/-- Reads the number of a reason. -/
def ofCode? (n : UInt64) : Option RejectReason :=
  [badSubmit, badCancel, orderNotFound, duplicateOrderId, bookFull].find? (·.code = n)

/-- Wording of the reason. -/
def text : RejectReason → String
  | badSubmit => "bad submit"
  | badCancel => "bad cancel"
  | orderNotFound => "order not found"
  | duplicateOrderId => "duplicate order id"
  | bookFull => "book full"

@[simp] theorem ofCode?_code (r : RejectReason) : ofCode? r.code = some r := by
  cases r <;> decide

end RejectReason

/-- What happened to a command. -/
inductive EventKind where
  | accepted (order : OrderId) (user : UserId)
  | rejected (order : OrderId) (user : UserId) (reason : RejectReason)
  /-- The remainder of a submitted order now rests in the book. -/
  | added (order : OrderId) (user : UserId)
  | cancelled (order : OrderId)
  | traded (trade : Trade)
  /-- Closes a command: all of its events have been recorded. -/
  | commandEnd
deriving DecidableEq, Repr, Inhabited

/-- An event with its place: `seq` is the number of the command it came from, `idx` its
position among that command's events. -/
structure Event where
  seq : Seq
  idx : UInt16
  request : UInt64
  kind : EventKind
deriving DecidableEq, Repr, Inhabited

/-- Gives the events of one command their places, counted from zero. -/
def Event.number (seq : Seq) (request : UInt64) (kinds : List EventKind) : List Event :=
  kinds.zipIdx.map fun (kind, i) => { seq, idx := UInt16.ofNat i, request, kind }

/-- Whether the event closes its command. -/
def Event.isCommandEnd (e : Event) : Bool :=
  match e.kind with
  | .commandEnd => true
  | _ => false

end Bourse
