import Bourse.Engine.Config
import Bourse.Outbox.Publisher
import Bourse.Record.Request
import Bourse.Recovery.Basic
import Bourse.Symbol.Actor

/-!
# The engine

An `Engine` keeps an actor and a mailbox for each symbol in use. A symbol is recovered from its
files when it is first used; commands for it then wait in its mailbox until the actor is given
the opportunity to work, by `Engine.wake`. `Engine.shutdown` lets all actors finish what waits
and then publishes what the outboxes hold.
-/

namespace Bourse

/-! ## Refusals -/

/-- Why an engine does not take a command. -/
inductive SubmitError where
  /-- Too many commands wait for the symbol. -/
  | busy
  | unknownSymbol
  /-- The command is not of the kind that it is said to be. -/
  | badCommand
  /-- The symbol could not be recovered. -/
  | recovery (cause : RecoveryError)
  /-- The engine is closed, or the symbol's actor has stopped. -/
  | halted
deriving DecidableEq, Repr, Inhabited

namespace SubmitError

/-- Wording of the error. -/
def message : SubmitError → String
  | busy => "engine busy: mailbox full"
  | unknownSymbol => "unknown symbol"
  | badCommand => "bad command"
  | recovery cause => "symbol recovery failed: " ++ cause.message
  | halted => "symbol halted"

end SubmitError

/-- How an engine recovers its symbols. -/
def Config.options (c : Config) : Recovery.Options :=
  { maxPayload := c.maxPayload, logBuffer := c.logBuffer, outboxBuffer := c.outboxBuffer }

/-! ## Symbols in use -/

/-- A symbol in use. -/
structure RunningSymbol where
  actor : Actor SymbolLogs
  mailbox : Mailbox
  /-- Number of commands refused because too many were waiting. -/
  refused : Nat := 0
  /-- Whether the actor has stopped. -/
  halted : Bool := false
  /-- Where publishing goes on, if that is known. -/
  progress : Option Publisher.Progress := none

/-- The actor of a symbol when `files` is what stands at the paths of the symbol. -/
def RunningSymbol.actorOn (r : RunningSymbol) (files : SymbolFiles) : Actor SymbolLogs :=
  { r.actor with logs := r.actor.logs.refresh files }

/-- Symbols in use, and what is needed to take up others. -/
structure Engine where
  config : Config
  format : Format
  /-- The book that a symbol begins with; symbols without one are not traded. -/
  fresh : String → Option Book
  directory : Directory := ∅
  running : Std.TreeMap String RunningSymbol := ∅
  closed : Bool := false

/-- What became of a symbol until the engine was shut down. -/
structure Closing where
  symbol : String
  /-- Number of commands executed. -/
  commands : Nat
  batches : Nat
  /-- Sequence number of the last logged command. -/
  lastSeq : Seq
  /-- Number of commands refused because too many were waiting. -/
  refused : Nat
  book : Book
  published : List Event

/-- What was published, in the order of publication. -/
def Closing.publications (c : Closing) : List Publication :=
  c.published.map fun event => { symbol := c.symbol, event }

/-- The files of a symbol while its outbox is drained, with what was published, the latest
first. -/
structure Drain where
  files : SymbolFiles
  published : List Event := []

/-- A bus that takes every event, and a request to stop when the outbox is drained. -/
def Drain.outlet : Publisher.Outlet Drain where
  outbox d := d.files.outbox
  cursor d := d.files.cursor
  cancelled _ := true
  publish d e := ({ d with published := e :: d.published }, true)
  store d offset :=
    let (files, stored) := d.files.storeCursor offset
    ({ d with files }, stored)

namespace Engine

/-- Recovers a symbol and makes it ready for commands. -/
def start (e : Engine) (symbol : String) : Attempt Engine SubmitError RunningSymbol :=
  match e.fresh symbol with
  | none => (e, .error .unknownSymbol)
  | some book =>
    match Recovery.recover e.config.options e.format (e.directory.filesOf symbol) book with
    | ((files, _), .error cause) =>
      ({ e with directory := e.directory.setFiles symbol files }, .error (.recovery cause))
    | ((files, book), .ok recovered) =>
      let (progress, files) :=
        if e.config.publishing then
          match Publisher.start Drain.outlet { files } with
          | some (progress, drain) => (some progress, drain.files)
          | none => (none, files)
        else (none, files)
      let actor : Actor SymbolLogs :=
        { storage := SymbolLogs.storage e.format, format := e.format, book,
          batchMax := e.config.batchMax, logs := recovered.logs, lastSeq := recovered.lastSeq }
      let symbolState : RunningSymbol :=
        { actor, mailbox := { capacity := e.config.mailboxSize }, progress }
      ({ e with directory := e.directory.setFiles symbol files }, .ok symbolState)

/-- Queues a command for a symbol in use. -/
def post (e : Engine) (symbol : String) (r : RunningSymbol) (c : Command) :
    Attempt Engine SubmitError Unit :=
  if r.halted then (e, .error .halted)
  else
    match r.mailbox.send? c with
    | some mailbox => ({ e with running := e.running.insert symbol { r with mailbox } }, .ok ())
    | none =>
      let r := { r with refused := r.refused + 1 }
      ({ e with running := e.running.insert symbol r }, .error .busy)

/-- Queues a command for a symbol, which is taken up if it was not in use. -/
def enqueue (e : Engine) (symbol : String) (c : Command) : Attempt Engine SubmitError Unit :=
  if symbol.isEmpty then (e, .error .unknownSymbol)
  else if e.closed then (e, .error .halted)
  else
    match e.running[symbol]? with
    | some r => e.post symbol r c
    | none => (e.start symbol).andThen fun e r => e.post symbol r c

/-- Takes a command that submits an order. -/
def submit (e : Engine) (symbol : String) (c : Command) : Attempt Engine SubmitError Unit :=
  if c.isSubmit then e.enqueue symbol c else (e, .error .badCommand)

/-- Takes a command that cancels an order. -/
def cancel (e : Engine) (symbol : String) (c : Command) : Attempt Engine SubmitError Unit :=
  if c.isCancel then e.enqueue symbol c else (e, .error .badCommand)

/-- Replaces the files of a symbol from outside. An actor that has one of them open keeps it, also
when it is no longer at its path. -/
def replaceFiles (e : Engine) (symbol : String) (files : SymbolFiles) : Engine :=
  let before := e.directory.filesOf symbol
  let follow (other : String) (r : RunningSymbol) : RunningSymbol :=
    if fileStem other = fileStem symbol then
      { r with actor := { r.actor with logs := r.actor.logs.follow before files } }
    else r
  { e with directory := e.directory.setFiles symbol files, running := e.running.map follow }

/-- Lets the actor of a symbol work on one batch of what waits for it. It takes one command at least,
and then up to `most` in all as far as a batch can have so many: clients may be sending meanwhile, so
it can find nothing more after any of them. -/
def wake (e : Engine) (symbol : String) (most : Nat) : Engine :=
  match e.running[symbol]? with
  | none => e
  | some r =>
    if r.halted || r.mailbox.queue.isEmpty then e
    else
      let files := e.directory.filesOf symbol
      let actor := r.actorOn files
      let size := max 1 (min most actor.batchSize)
      let mailbox := { r.mailbox with queue := r.mailbox.queue.drop size }
      match actor.commit (r.mailbox.queue.take size) with
      | (actor, .ok ()) =>
        { e with
          directory := e.directory.setFiles symbol (actor.logs.save files)
          running := e.running.insert symbol { r with actor, mailbox } }
      | (actor, .error _) =>
        { e with
          directory := e.directory.setFiles symbol (actor.logs.close files)
          running := e.running.insert symbol { r with actor, mailbox, halted := true } }

/-- Symbols in use, in order. -/
def symbols (e : Engine) : List String :=
  e.running.keys

/-- Number of commands refused because too many were waiting. -/
def refused (e : Engine) : Nat :=
  e.running.values.foldr (·.refused + ·) 0

/-- Lets an actor execute everything that waits for it, and closes its logs. -/
def finish (e : Engine) (symbol : String) (r : RunningSymbol) : Engine × RunningSymbol :=
  if r.halted then (e, r)
  else
    let files := e.directory.filesOf symbol
    let (actor, _) := (r.actorOn files).run r.mailbox.queue []
    ({ e with directory := e.directory.setFiles symbol (actor.logs.close files) },
      { r with actor, halted := true })

/-- Publishes what the outbox of a symbol holds beyond the cursor. -/
def drain (e : Engine) (symbol : String) (r : RunningSymbol) : Engine × Closing :=
  let files := e.directory.filesOf symbol
  let drained :=
    if e.config.publishing then
      (Publisher.run Drain.outlet e.format e.config.maxPayload (files.outbox.size + 2) r.progress
        { files }).1
    else { files }
  ({ e with directory := e.directory.setFiles symbol drained.files },
    { symbol, commands := r.actor.commands, batches := r.actor.batches
      lastSeq := r.actor.lastSeq, refused := r.refused, book := r.actor.book
      published := drained.published.reverse })

/-- Closes the engine: all actors finish what waits for them, and then all outboxes are
published. -/
def shutdown (e : Engine) : Engine × List Closing :=
  let step {α β : Type} (f : Engine → String → α → Engine × β) (state : Engine × List (String × β))
      (entry : String × α) : Engine × List (String × β) :=
    let (e, b) := f state.1 entry.1 entry.2
    (e, state.2 ++ [(entry.1, b)])
  let closed := { e with running := ∅, closed := true }
  let (e, finished) := e.running.toList.foldl (step finish) (closed, [])
  let (e, closings) := finished.foldl (step drain) (e, [])
  (e, closings.map (·.2))

end Engine

end Bourse
