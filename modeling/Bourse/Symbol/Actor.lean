import Bourse.Book.Execution
import Bourse.Symbol.Storage

/-!
# Actors

An `Actor` owns the book of a symbol and its logs. It takes queued commands in batches: all
commands of a batch are logged and made durable before the first of them is executed, then each
is executed and its events are recorded. When a log fails the actor stops at once; what it
leaves behind can be recovered.

Commands wait for an actor in a `Mailbox` of limited size. Nobody waits for room: a command that
finds none is refused.
-/

namespace Bourse

/-! ## Mailboxes -/

/-- Commands that wait for an actor, the earliest first. -/
structure Mailbox where
  /-- Most commands that can wait; at least one always can. -/
  capacity : Nat
  queue : List Command := []
deriving Inhabited

namespace Mailbox

/-- Queues a command if there is room. -/
def send? (m : Mailbox) (c : Command) : Option Mailbox :=
  if m.queue.length < max m.capacity 1 then some { m with queue := m.queue ++ [c] } else none

end Mailbox

/-! ## Actors -/

/-- Why an actor had to stop. -/
inductive ActorError where
  | commandAppend (cause : LogError)
  | commandFlush (cause : LogError)
  | outboxAppend (cause : LogError)
  | outboxFlush (cause : LogError)
deriving DecidableEq, Repr, Inhabited

/-- Wording of the error. -/
def ActorError.message : ActorError → String
  | commandAppend cause => "command log append failed: " ++ cause.message
  | commandFlush cause => "command log flush failed: " ++ cause.message
  | outboxAppend cause => "outbox append failed: " ++ cause.message
  | outboxFlush cause => "outbox flush failed: " ++ cause.message

/-- Why an actor stopped when nothing failed. -/
inductive ActorExit where
  /-- Nothing is queued and nobody can queue more. -/
  | mailboxClosed
  /-- The actor was asked to stop. -/
  | cancelled
deriving DecidableEq, Repr, Inhabited

/-- The book and the logs of a symbol, with the means to execute commands. -/
structure Actor (σ : Type) where
  storage : Storage σ
  format : Format
  /-- Most commands that are logged together; never less than one. -/
  batchMax : Nat
  logs : σ
  book : Book
  /-- Sequence number of the last command that was made durable. -/
  lastSeq : Seq := 0
  /-- Number of commands executed with all their events durable. -/
  commands : Nat := 0
  /-- Number of batches of such commands. -/
  batches : Nat := 0

namespace Actor

variable {σ : Type}

/-- Carries out an operation on the logs. -/
def perform (a : Actor σ) (op : LogOp) (ofLog : LogError → ActorError) :
    Attempt (Actor σ) ActorError Unit :=
  ((a.storage.perform op a.logs).orFail ofLog).within fun logs => { a with logs }

/-- Appends a command to the log under a sequence number. -/
def log (a : Actor σ) (entry : Seq × Command) : Attempt (Actor σ) ActorError Unit :=
  a.perform (.appendCommand (a.format.encodeCommand entry.1 entry.2)) .commandAppend

/-- Executes a command that was logged under a sequence number and records its events. The book
is ahead of the outbox if that fails. -/
def apply (a : Actor σ) (entry : Seq × Command) : Attempt (Actor σ) ActorError Unit :=
  let (book, kinds) := a.book.execute entry.2
  let put : Sink σ := fun logs e => a.storage.perform (.appendEvent e) logs
  let (logs, result) := Emitter.record put a.logs entry.1 entry.2.request kinds
  ({ a with book, logs }, (result.mapError .outboxAppend).map fun _ => ())

/-- Gives commands the sequence numbers after `last`. -/
def number (last : Seq) : List Command → List (Seq × Command)
  | [] => []
  | c :: rest => (last + 1, c) :: number (last + 1) rest

/-- Logs a batch of commands, makes it durable, and executes it. -/
def commit (a : Actor σ) (batch : List Command) : Attempt (Actor σ) ActorError Unit :=
  let entries := number a.lastSeq batch
  let logged := (Attempt.forEach log a entries).andThen fun a _ =>
    a.perform .flushCommands .commandFlush
  let applied := logged.andThen fun a _ =>
    Attempt.forEach apply { a with lastSeq := a.lastSeq + UInt64.ofNat batch.length } entries
  let flushed := applied.andThen fun a _ => a.perform .flushEvents .outboxFlush
  flushed.andThen fun a _ =>
    ({ a with commands := a.commands + batch.length, batches := a.batches + 1 }, .ok ())

/-- Makes everything durable before the actor stops. -/
def stop (a : Actor σ) (exit : ActorExit) : Attempt (Actor σ) ActorError ActorExit :=
  let flushed := (a.perform .flushCommands .commandFlush).andThen fun a _ =>
    a.perform .flushEvents .outboxFlush
  flushed.andThen fun a _ => (a, .ok exit)

/-- Number of commands taken at once. -/
def batchSize (a : Actor σ) : Nat :=
  max a.batchMax 1

/-- Executes the commands that are queued and those that arrive: `arrivals` lists what is queued
in addition each time the actor looks for commands. -/
def run (a : Actor σ) (queue : List Command) (arrivals : List (List Command)) :
    Attempt (Actor σ) ActorError ActorExit :=
  if a.storage.cancelled a.logs then a.stop .cancelled
  else
    match queue with
    | [] =>
      match arrivals with
      | [] => a.stop .mailboxClosed
      | more :: arrivals => run a more arrivals
    | c :: rest =>
      match a.commit ((c :: rest).take a.batchSize) with
      | (a', .error e) => (a', .error e)
      | (a', .ok ()) =>
        run a' (rest.drop (a.batchSize - 1) ++ arrivals.headD []) arrivals.tail
termination_by (arrivals.length, queue.length)
decreasing_by
  · exact Prod.Lex.left _ _ (by simp)
  · cases arrivals with
    | nil =>
      refine Prod.Lex.right _ ?_
      simp only [List.headD_nil, List.append_nil, List.length_drop, List.length_cons]
      omega
    | cons more arrivals => exact Prod.Lex.left _ _ (by simp)

end Actor

end Bourse
