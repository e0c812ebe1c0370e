import Bourse.Outbox.Publisher
import Bourse.Proofs.Recovery.Recovering
import Mathlib.Logic.Relation

/-!
# The life of a symbol

A `World` is a symbol with its files, in a session or between two of them, and with what its
subscribers have got so far. `Step` is what may happen to it: a recovery succeeds, fails or is
interrupted by a crash, the actor commits a batch, the publisher takes a turn, bytes that are
pending reach a file, or the session ends. Between any two operations of the actor the publisher may
take turns, any operation may fail, and an end may cut the files. A clean stop is an end before
which all pending bytes have reached the files. A crash takes nothing from the log that is `kept`:
what the actor has flushed and, in a `secure` life, what a recovery has read.
-/

namespace Bourse

/-! ## Sessions -/

/-- What becomes of the attempt to replace the stored cursor. -/
inductive Replacement where
  | done
  | refused
  /-- The cursor is replaced, and reported as not replaced. -/
  | unsure
deriving DecidableEq, Repr, Inhabited

/-- How a turn of the publisher goes. -/
structure Turn where
  /-- Which events are taken, one after the other. When the list is used up, events are refused. -/
  taken : List Bool := []
  stored : Replacement := .done
  /-- Whether the publisher is asked to stop. -/
  asked : Bool := false
deriving Inhabited

/-- What happens at an operation of the actor. -/
structure Fate where
  /-- The turns of the publisher before it. -/
  turns : List Turn := []
  /-- Whether it is reported as failed. It may have been carried out in part or as a whole. -/
  fails : Bool := false
deriving Inhabited

/-- What actor and publisher of a symbol share in a session. -/
structure Site where
  logs : SymbolLogs
  /-- Number of bytes that no crash takes from the log. -/
  kept : Nat
  /-- The events that subscribers have taken, in order. -/
  published : List Event
  /-- Longest payload that the publisher accepts. -/
  maxPayload : Nat
  /-- How far the publisher came, unless it has yet to begin at the stored cursor. -/
  progress : Option Publisher.Progress := none
  turn : Turn := {}
  /-- What happens at the next operations of the actor. -/
  fates : List Fate := []

/-- Whether both logs, with what is pending, are within the range of positions. -/
def SymbolLogs.inRange (s : SymbolLogs) : Bool :=
  s.files.log.size + s.log.pending.size ≤ File.maxPosition &&
    s.files.outbox.size + s.outbox.pending.size ≤ File.maxPosition

/-- Some of the pending bytes reach the file. -/
def Log.Writer.spill (w : Writer) (f : File) (n : Nat) : Writer × File :=
  ({ w with pending := w.pending.extract n w.pending.size }, f.append (w.pending.extract 0 n))

namespace Site

/-- The site with another cursor file, and another scratch file. -/
def withCursor (s : Site) (cursor scratch : File) : Site :=
  { s with logs := { s.logs with files := { s.logs.files with cursor, scratch } } }

/-- The surroundings of the publisher. -/
def outlet : Publisher.Outlet Site where
  outbox s := s.logs.files.outbox
  cursor s := s.logs.files.cursor
  cancelled s := s.turn.asked
  publish s e :=
    match s.turn.taken with
    | [] => (s, false)
    | false :: rest => ({ s with turn := { s.turn with taken := rest } }, false)
    | true :: rest =>
      ({ s with turn := { s.turn with taken := rest }, published := s.published ++ [e] }, true)
  store s offset :=
    let (files, replaced) := s.logs.files.storeCursor offset
    match s.turn.stored with
    | .done => (s.withCursor files.cursor files.scratch, replaced)
    | .refused => (s, false)
    | .unsure => (s.withCursor files.cursor files.scratch, false)

/-- A turn of the publisher, or its beginning. -/
def advance (f : Format) (s : Site) (t : Turn) : Site :=
  match s.progress with
  | none =>
    match Publisher.start outlet { s with turn := t } with
    | none => s
    | some (p, s) => { s with progress := some p }
  | some p =>
    let (p, s, stops) :=
      Publisher.turn outlet f s.maxPayload p { s with turn := t }
    { s with progress := if stops then none else some p }

/-- What happens at the next operation of the actor. -/
def fate (s : Site) : Fate :=
  s.fates.headD {}

/-- The site after the turns that the publisher takes before the next operation of the actor. -/
def interlude (f : Format) (s : Site) : Site :=
  s.fate.turns.foldl (advance f) { s with fates := s.fates.tail }

/-- Carries out an operation of the actor. A flush of the log that succeeds secures it. -/
def perform (f : Format) (op : LogOp) (s : Site) : Attempt Site LogError Unit :=
  let fails := s.fate.fails
  let s := s.interlude f
  let (logs, result) := (SymbolLogs.storage f).perform op s.logs
  if logs.inRange then
    if fails then ({ s with logs }, .error (.file (.other "failed")))
    else
      ({ s with logs, kept := if op = .flushCommands then logs.files.log.size else s.kept }, result)
  else (s, .error (.file (.other "File too large (os error 27)")))

/-- The site as the storage of an actor. -/
def storage (f : Format) : Storage Site where
  perform := perform f
  cancelled _ := false

/-- Some of the bytes that are pending reach the files. -/
def spill (s : Site) (i j : Nat) : Site :=
  let (log, logFile) := s.logs.log.spill s.logs.files.log i
  let (outbox, outboxFile) := s.logs.outbox.spill s.logs.files.outbox j
  { s with
    logs := { s.logs with
      log, outbox, files := { s.logs.files with log := logFile, outbox := outboxFile } } }

end Site

/-- The actor of a symbol that was recovered. -/
def Service.actorAt (sv : Service) (o : Recovery.Options) (book : Book) (r : Recovery.Recovered)
    (kept : Nat) (published : List Event) : Actor Site :=
  { storage := Site.storage sv.format, format := sv.format, batchMax := sv.batchMax,
    logs := { logs := r.logs, kept, published, maxPayload := o.maxPayload }, book,
    lastSeq := r.lastSeq }

/-! ## Worlds and their steps -/

/-- A symbol between two sessions, or in one. An actor that failed does not run any more. -/
inductive World where
  | down (files : SymbolFiles) (kept : Nat) (published : List Event)
  | up (actor : Actor Site) (running : Bool)

namespace World

/-- The symbol before its first session. -/
def fresh : World :=
  down {} 0 []

def files : World → SymbolFiles
  | down files _ _ => files
  | up a _ => a.logs.logs.files

/-- The log of commands, with what is pending. -/
def log : World → Bytes
  | down files _ _ => files.log.bytes
  | up a _ => a.logs.logs.log.contents a.logs.logs.files.log

/-- The outbox, with what is pending. -/
def outbox : World → Bytes
  | down files _ _ => files.outbox.bytes
  | up a _ => a.logs.logs.outbox.contents a.logs.logs.files.outbox

def kept : World → Nat
  | down _ kept _ => kept
  | up a _ => a.logs.kept

def published : World → List Event
  | down _ _ published => published
  | up a _ => a.logs.published

/-- Files that may be found when the session has ended, by whatever. The log is cut behind what is
kept, the outbox anywhere, and the cursor is what it was. -/
structure Leaves (w : World) (files : SymbolFiles) : Prop where
  logUsable : files.log.Usable
  log : files.log.bytes <+: w.log
  kept : w.kept ≤ files.log.size
  outboxUsable : files.outbox.Usable
  outbox : files.outbox.bytes <+: w.outbox
  cursor : files.cursor = w.files.cursor

end World

/-- Commands of which none has too many events and every record is within the limit of the reader
that recovers the symbol. -/
structure Service.Admits (sv : Service) (b : Book) (last : Seq) (batch : List Command) : Prop where
  modest : b.Modest batch
  commands : ∀ p ∈ Journal.payloads sv.format (Actor.number last batch),
    p.length ≤ sv.options.limit
  events : ∀ e ∈ Journal.events b (Actor.number last batch),
    (sv.format.encodeEvent e).length ≤ sv.options.limit

/-- What may happen to a symbol. The options of a recovery and of the session that follows may be
others than those of the service. In a life that is `secure` no crash takes from the log what a
recovery has read; in one that is `tame` the actor gets only batches that the service admits. -/
inductive Step (sv : Service) (secure tame : Bool) : World → World → Prop where
  | recover {o : Recovery.Options} {files files' : SymbolFiles} {kept : Nat}
      {published : List Event} {book : Book} {r : Recovery.Recovered}
      (ok : Recovery.recover o sv.format files sv.fresh = ((files', book), .ok r))
      (room : files'.outbox.size ≤ File.maxPosition) :
      Step sv secure tame (.down files kept published)
        (.up (sv.actorAt o book r (if secure then files'.log.size else kept) published) true)
  /-- A recovery that fails, or that a crash interrupts after it has written this much of the
  outbox. -/
  | interrupted {o : Recovery.Options} {files files' : SymbolFiles} {kept : Nat}
      {published : List Event} {book : Book} {result : Except RecoveryError Recovery.Recovered}
      {log outbox : File} (done : Recovery.recover o sv.format files sv.fresh = ((files', book), result))
      (logUsable : log.Usable) (logCut : log.bytes <+: files.log.bytes)
      (logKept : (if secure then files'.log.size else kept) ≤ log.size)
      (outboxUsable : outbox.Usable) (outboxCut : outbox.bytes <+: files'.outbox.bytes) :
      Step sv secure tame (.down files kept published)
        (.down { files with log, outbox } (if secure then files'.log.size else kept) published)
  | batch {a a' : Actor Site} {fates : List Fate} {batch : List Command}
      {result : Except ActorError Unit} (admitted : tame = true → sv.Admits a.book a.lastSeq batch)
      (commit : (a.withLogs { a.logs with fates }).commit batch = (a', result)) :
      Step sv secure tame (.up a true) (.up a' result.isOk)
  | publish {a : Actor Site} {running : Bool} (t : Turn) :
      Step sv secure tame (.up a running) (.up (a.withLogs (a.logs.advance sv.format t)) running)
  | spill {a : Actor Site} {running : Bool} (i j : Nat) :
      Step sv secure tame (.up a running) (.up (a.withLogs (a.logs.spill i j)) running)
  /-- The session ends, or a recovery is interrupted before it has changed anything. -/
  | ends {w : World} {files : SymbolFiles} (leaves : w.Leaves files) :
      Step sv secure tame w (.down files w.kept w.published)

/-- What may come of a symbol in any number of steps. -/
abbrev Reaches (sv : Service) (secure tame : Bool) : World → World → Prop :=
  Relation.ReflTransGen (Step sv secure tame)

end Bourse
