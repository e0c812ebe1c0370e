import Bourse.Book.Matching
import Bourse.Message

/-!
# Executing commands

`Book.execute` is the only way by which commands reach a book, while trading as well as when a
log is replayed, so a replayed command has exactly the events that it had, or would have had,
the first time. A command that `Command.fault?` objects to never reaches the book.
-/

namespace Bourse

/-- Why a command makes no sense to any book. -/
def Command.fault? (c : Command) : Option RejectReason :=
  match c.action with
  | .submit o => if o.id = 0 || o.price ≤ 0 || o.qty ≤ 0 then some .badSubmit else none
  | .cancel target => if target = 0 then some .badCancel else none

/-- The event that refuses a command for what it says, whatever the book. -/
def Command.rejection (c : Command) (reason : RejectReason) : EventKind :=
  match c.action with
  | .submit o => .rejected o.id o.user reason
  | .cancel _ => .rejected 0 0 reason

namespace Book

/-- Submits an order: it is accepted, trades, and what is left of it rests. Refused if its id is
taken or the book is full; the second is asked before trading, so that what is left of an
accepted order always finds room. -/
def enter (b : Book) (o : Order) : Book × List EventKind :=
  if b.contains o.id then (b, [.rejected o.id o.user .duplicateOrderId])
  else if b.isFull then (b, [.rejected o.id o.user .bookFull])
  else
    let s := b.trade o
    let events := .accepted o.id o.user :: s.trades.toList.map .traded
    match s.book.add? s.taker with
    | some book => (book, events ++ [.added o.id o.user])
    | none => (s.book, events)

/-- Cancels a resting order. -/
def withdraw (b : Book) (id : OrderId) : Book × List EventKind :=
  match b.cancel? id with
  | some book => (book, [.cancelled id])
  | none => (b, [.rejected id 0 .orderNotFound])

/-- Applies a command and reports its events, without the one that closes it. -/
def execute (b : Book) (c : Command) : Book × List EventKind :=
  match c.fault? with
  | some reason => (b, [c.rejection reason])
  | none =>
    match c.action with
    | .submit o => b.enter o
    | .cancel target => b.withdraw target

end Book

end Bourse
