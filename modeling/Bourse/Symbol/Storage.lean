import Bourse.Log.Writer
import Bourse.Outbox.Emitter
import Bourse.Record.Format
import Bourse.Symbol.Files

/-!
# Where an actor keeps its logs

An actor reaches its two logs through four operations only, so whatever carries them out can
take the place of files. `SymbolLogs` is the ordinary storage: two writers at the end of two
files. A writer keeps the file that it has opened when someone removes it from its path.
-/

namespace Bourse

/-- The operations of an actor on its logs. -/
inductive LogOp where
  | appendCommand (payload : Bytes)
  /-- Makes all commands durable that were appended so far. -/
  | flushCommands
  | appendEvent (event : Event)
  /-- Makes all events durable that were appended so far. -/
  | flushEvents
deriving DecidableEq, Repr, Inhabited

/-- A way of carrying out the operations of an actor. -/
structure Storage (σ : Type) where
  perform : LogOp → σ → Attempt σ LogError Unit
  /-- Whether the actor is asked to stop. -/
  cancelled : σ → Bool

/-- The logs of a symbol, open for appending. -/
structure SymbolLogs where
  files : SymbolFiles
  log : Log.Writer
  outbox : Log.Writer
  /-- Whether the log that is written to is no longer at its path. -/
  logGone : Bool := false
  /-- Whether the outbox that is written to is no longer at its path. -/
  outboxGone : Bool := false
deriving Inhabited

namespace SymbolLogs

/-- Appends a record to the log of commands. -/
def appendCommand (s : SymbolLogs) (payload : Bytes) : Attempt SymbolLogs LogError Unit :=
  match s.log.append s.files.log payload with
  | .error e => (s, .error e)
  | .ok (w, file) => ({ s with log := w, files := { s.files with log := file } }, .ok ())

/-- Appends a record to the outbox. -/
def appendEvent (s : SymbolLogs) (payload : Bytes) : Attempt SymbolLogs LogError Unit :=
  match s.outbox.append s.files.outbox payload with
  | .error e => (s, .error e)
  | .ok (w, file) => ({ s with outbox := w, files := { s.files with outbox := file } }, .ok ())

/-- Writes pending commands to their file. -/
def flushCommands (s : SymbolLogs) : SymbolLogs :=
  let (w, file) := s.log.flush s.files.log
  { s with log := w, files := { s.files with log := file } }

/-- Writes pending events to their file. -/
def flushEvents (s : SymbolLogs) : SymbolLogs :=
  let (w, file) := s.outbox.flush s.files.outbox
  { s with outbox := w, files := { s.files with outbox := file } }

/-- The logs when `files` is what stands at the paths of the symbol. -/
def refresh (s : SymbolLogs) (files : SymbolFiles) : SymbolLogs :=
  let log := if s.logGone then s.files.log else files.log
  let outbox := if s.outboxGone then s.files.outbox else files.outbox
  { s with files := { files with log, outbox } }

/-- What stands at the paths of the symbol, where it was `files`, once the logs were written to. -/
def save (s : SymbolLogs) (files : SymbolFiles) : SymbolFiles :=
  let log := if s.logGone then files.log else s.files.log
  let outbox := if s.outboxGone then files.outbox else s.files.outbox
  { files with log, outbox }

/-- Closes both logs. What is pending reaches the files. -/
def close (s : SymbolLogs) (files : SymbolFiles) : SymbolFiles :=
  s.flushCommands.flushEvents.save files

/-- Whether a file was removed. One that was rewritten is still the same. -/
def isRemoved (before after : File) : Bool :=
  before.isRegular && !after.isRegular

/-- The logs when someone else has replaced what stands at the paths of the symbol. -/
def follow (s : SymbolLogs) (before after : SymbolFiles) : SymbolLogs :=
  let s := s.refresh before
  { s with
    logGone := s.logGone || isRemoved before.log after.log
    outboxGone := s.outboxGone || isRemoved before.outbox after.outbox }

/-- Files as the storage of an actor that nobody asks to stop. -/
def storage (f : Format) : Storage SymbolLogs where
  perform
    | .appendCommand payload, s => s.appendCommand payload
    | .flushCommands, s => (s.flushCommands, .ok ())
    | .appendEvent event, s => s.appendEvent (f.encodeEvent event)
    | .flushEvents, s => (s.flushEvents, .ok ())
  cancelled _ := false

end SymbolLogs

end Bourse
