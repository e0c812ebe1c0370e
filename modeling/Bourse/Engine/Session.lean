import Bourse.Engine.Basic

/-!
# Sessions

A session configures an engine by variables, feeds it requests line by line, and shuts it down.
Lines that are no requests and requests that are refused leave no trace. Every symbol has an
unbounded book, and logs are binary.

What the configuration gives a size is set aside when it is made, so a size that is too large shows
then and not when the room fills up. Either it is no size at all, or it is one, but the memory of
the machine does not have so many bytes. Queues are different: their places get room as they are
taken, and only the number of places has a bound. The engine and what it is made of know nothing of
this: a session that finds no room for something ends at once, whatever it was doing, and its files
are left as they are then.
-/

namespace Bourse

/-! ## Setting aside room -/

/-- Why there is no room for something. -/
inductive Shortage where
  /-- A queue is to have more places than can be counted. -/
  | places (count : Nat)
  /-- The number of bytes is larger than any size. -/
  | size (bytes : Nat)
  /-- The number of bytes is larger than memory. -/
  | memory (bytes : Nat)
deriving DecidableEq, Repr, Inhabited

namespace Shortage

/-- Most places that a queue can have. -/
def maxPlaces : Nat := 2305843009213693951

/-- The largest size in bytes. -/
def maxSize : Nat := 9223372036854775807

/-- Number of bytes set aside for a command of a batch. -/
def commandRoom : Nat := 56

/-- What stands in the way of a queue with so many places. -/
def ofPlaces? (count : Nat) : Option Shortage :=
  if maxPlaces < count then some (.places count) else none

/-- What stands in the way of setting aside so many bytes on a machine with `memory` bytes. -/
def ofBytes? (memory bytes : Nat) : Option Shortage :=
  if maxSize < bytes then some (.size bytes)
  else if memory ≤ bytes then some (.memory bytes)
  else none

/-- Wording of the error. -/
def message : Shortage → String
  | places count => "no queue has " ++ toString count ++ " places"
  | size bytes => "nothing has a size of " ++ toString bytes ++ " bytes"
  | memory bytes => "memory does not have " ++ toString bytes ++ " bytes"

end Shortage

/-- What stands in the way of a recovered symbol: the buffer of its log is set aside first, then its
mailbox and the room for a batch. -/
def Config.shortage? (c : Config) (memory : Nat) : Option Shortage :=
  (Shortage.ofBytes? memory (Log.Writer.bufferSize c.logBuffer)).or <|
    (Shortage.ofPlaces? c.mailboxSize).or <|
      Shortage.ofBytes? memory (Shortage.commandRoom * c.batchMax)

/-- What there is no room for when a symbol is taken up, and the files that it has then. The buffer
of the outbox is set aside as soon as the outbox is repaired and there is a file for it. -/
def Engine.shortage? (e : Engine) (memory : Nat) (symbol : String) (fresh : Book) :
    Option (SymbolFiles × Shortage) :=
  let files := e.directory.filesOf symbol
  match Recovery.repair e.format e.config.maxPayload files.outbox with
  | (_, .error _) => none
  | (outbox, .ok _) =>
    match Log.Writer.open? outbox e.config.outboxBuffer with
    | (_, .error _) => none
    | (outbox, .ok writer) =>
      match Shortage.ofBytes? memory writer.capacity with
      | some cause => some ({ files with outbox }, cause)
      | none =>
        match Recovery.recover e.config.options e.format files fresh with
        | (_, .error _) => none
        | ((files, _), .ok _) => (e.config.shortage? memory).map fun cause => (files, cause)

/-! ## Errors -/

/-- Why a session ended before its input. -/
inductive SessionError where
  | config (cause : ConfigError)
  /-- There was no room for something. -/
  | exhausted (cause : Shortage)
deriving DecidableEq, Repr, Inhabited

namespace SessionError

/-- Wording of the error. -/
def message : SessionError → String
  | config cause => "Error: reading engine configuration\n\nCaused by:\n    " ++ cause.message
  | exhausted cause => cause.message

/-- The exit code of a program that meets the error. There is none when memory does not suffice:
the program is stopped and does not exit by itself. -/
def exitCode : SessionError → Option UInt32
  | config _ => some 1
  | exhausted (.memory _) => none
  | exhausted _ => some 101

end SessionError

/-! ## Sessions -/

namespace Session

/-- An engine as a session begins with it. -/
def start (lookup : String → Option String) (directory : Directory) :
    Except SessionError Engine :=
  match Config.ofVariables lookup with
  | .error cause => .error (.config cause)
  | .ok config =>
    match Shortage.ofPlaces? config.busSize with
    | some cause => .error (.exhausted cause)
    | none => .ok { config, format := .binary, fresh := fun _ => some {}, directory }

/-- The symbol that a line of input names if it is a request. -/
def symbol? (line : List Char) : Option String :=
  match Request.ofLine line with
  | .ok (some r) => some r.symbol
  | _ => none

/-- What a session runs out of when a request names a symbol. Only a symbol that is not in use is
taken up, and no symbol goes without a name. -/
def shortage? (memory : Nat) (e : Engine) (symbol : String) : Option (SymbolFiles × Shortage) :=
  if symbol.isEmpty || e.closed || e.running.contains symbol then none
  else (e.fresh symbol).bind (e.shortage? memory symbol)

/-- Serves one line of input. The actor of the symbol works at once. -/
def serve (memory : Nat) (e : Engine) (line : List Char) : Attempt Engine SessionError Unit :=
  match Request.ofLine line with
  | .ok (some r) =>
    match shortage? memory e r.symbol with
    | some (files, cause) =>
      ({ e with directory := e.directory.setFiles r.symbol files }, .error (.exhausted cause))
    | none =>
      let (e, _) :=
        if r.command.isSubmit then e.submit r.symbol r.command else e.cancel r.symbol r.command
      (e.wake r.symbol 1, .ok ())
  | _ => (e, .ok ())

/-- Shuts the engine down and returns what was published, symbol by symbol. -/
def close (e : Engine) : Engine × List Publication :=
  let (e, closings) := e.shutdown
  (e, closings.flatMap Closing.publications)

/-- A whole session over some input on a machine with `memory` bytes: the files that it leaves, and
what was published. -/
def run (memory : Nat) (lookup : String → Option String) (directory : Directory)
    (input : List Char) : Attempt Directory SessionError (List Publication) :=
  match start lookup directory with
  | .error cause => (directory, .error cause)
  | .ok e =>
    let served := (Attempt.forEach (serve memory) e (Text.lines input)).andThen fun e _ =>
      let (e, published) := close e
      (e, .ok published)
    served.within Engine.directory

/-- The exit code of a program that has run a session, if it has one. -/
def exitCode (result : Except SessionError (List Publication)) : Option UInt32 :=
  match result with
  | .ok _ => some 0
  | .error cause => cause.exitCode

end Session

end Bourse
