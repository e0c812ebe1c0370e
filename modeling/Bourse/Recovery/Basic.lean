import Bourse.Recovery.Repair
import Bourse.Symbol.Actor

/-!
# Recovering a symbol

A symbol is rebuilt from its two logs. The outbox is cut back to its last closed command; then
the logged commands are executed on a fresh book, silently as far as their events are in the
outbox, and after that with their events written again. A record that the end of the log of
commands cuts short is removed; any other fault of that log is an error, and the log stays as it
is.

A `Service` is what stays the same about a symbol from one session to the next: how its logs are
read and written, and the book that it begins with. In a session the symbol is recovered from its
files, its actor executes the commands that are queued and that arrive, and the logs are closed.
-/

namespace Bourse

namespace Recovery

/-- How the logs of a symbol are read and written. Zero stands for the default. -/
structure Options where
  maxPayload : Nat := 0
  logBuffer : Nat := 0
  outboxBuffer : Nat := 0
deriving DecidableEq, Repr, Inhabited

/-- A symbol half-way through its commands. -/
structure Rebuild where
  book : Book
  outbox : Log.Writer × File
  lastSeq : Seq
  replayed : Nat := 0
  backfilled : Nat := 0

namespace Rebuild

/-- Writes an event to the outbox. -/
def put (f : Format) : Sink (Log.Writer × File) := fun (w, file) e =>
  match w.append file (f.encodeEvent e) with
  | .ok done => (done, .ok ())
  | .error failure => ((w, file), .error failure)

/-- Executes one logged command. Its events are written unless `complete`, the last command that
the outbox holds completely, is this one or a later one. -/
def step (f : Format) (complete : Seq) (s : Rebuild) (r : Log.Record) :
    Attempt Rebuild RecoveryError Unit :=
  match f.decodeCommand r.payload with
  | .error cause => (s, .error (.undecodable .commands r.stop cause))
  | .ok (seq, c) =>
    let (book, kinds) := s.book.execute c
    let done (s : Rebuild) : Rebuild :=
      { s with replayed := s.replayed + 1, lastSeq := max s.lastSeq seq }
    if seq ≤ complete then (done { s with book }, .ok ())
    else
      match Emitter.record (put f) s.outbox seq c.request kinds with
      | (outbox, .error e) => ({ s with book, outbox }, .error (.log e))
      | (outbox, .ok _) =>
        (done { s with book, outbox, backfilled := s.backfilled + 1 }, .ok ())

end Rebuild

/-- A recovered symbol, apart from its book: its logs, open for appending, and what was done. -/
structure Recovered where
  logs : SymbolLogs
  /-- The highest sequence number that either log holds. -/
  lastSeq : Seq
  repair : Repair
  /-- Number of commands executed. -/
  replayed : Nat
  /-- Number of commands whose events were written again. -/
  backfilled : Nat
  /-- Number of bytes cut off the log of commands. -/
  cut : Nat

/-- Rebuilds a symbol from its files on a fresh book. When that fails, the files and the book are
left as far as it got; events written until then are in the outbox. -/
def recover (o : Options) (f : Format) (files : SymbolFiles) (book : Book) :
    Attempt (SymbolFiles × Book) RecoveryError Recovered :=
  match repair f o.maxPayload files.outbox with
  | (outbox, .error e) => (({ files with outbox }, book), .error e)
  | (outbox, .ok repair) =>
    match Log.Writer.open? outbox o.outboxBuffer with
    | (outbox, .error e) => (({ files with outbox }, book), .error (.log e))
    | (outbox, .ok writer) =>
      let start : Rebuild := { book, outbox := (writer, outbox), lastSeq := repair.lastSeq }
      let replayed := Log.replay { maxPayload := o.maxPayload, tolerant := true } files.log .log
        (Rebuild.step f repair.lastSeq) start
      let rebuilt := replayed.1
      let (outboxWriter, outbox) := rebuilt.outbox.1.flush rebuilt.outbox.2
      let files := { files with outbox }
      match replayed.2 with
      | .error e => ((files, rebuilt.book), .error e)
      | .ok stats =>
        let cut := if stats.torn then files.log.size - stats.lastGood else 0
        let log := if stats.torn then files.log.truncate stats.lastGood else files.log
        match Log.Writer.open? log o.logBuffer with
        | (log, .error e) => (({ files with log }, rebuilt.book), .error (.log e))
        | (log, .ok logWriter) =>
          let files := { files with log }
          ((files, rebuilt.book),
            .ok
              { logs := { files, log := logWriter, outbox := outboxWriter }
                lastSeq := rebuilt.lastSeq, repair, replayed := rebuilt.replayed,
                backfilled := rebuilt.backfilled, cut })

end Recovery

/-! ## Sessions of a symbol -/

/-- How a symbol is served. -/
structure Service where
  options : Recovery.Options
  format : Format
  /-- Most commands that are logged together. -/
  batchMax : Nat
  /-- The book before the first command. -/
  fresh : Book

/-- Why a session ended early. -/
inductive ServiceError where
  | recovery (cause : RecoveryError)
  | actor (cause : ActorError)
deriving DecidableEq, Repr, Inhabited

namespace Service

/-- The actor of a recovered symbol. -/
def actor (s : Service) (book : Book) (r : Recovery.Recovered) : Actor SymbolLogs :=
  { storage := SymbolLogs.storage s.format, format := s.format, batchMax := s.batchMax,
    logs := r.logs, book, lastSeq := r.lastSeq }

/-- One session on the files of a symbol. Whatever ends it, the logs are closed. -/
def session (s : Service) (files : SymbolFiles) (queue : List Command)
    (arrivals : List (List Command)) : Attempt SymbolFiles ServiceError (Actor SymbolLogs) :=
  match Recovery.recover s.options s.format files s.fresh with
  | ((files, _), .error e) => (files, .error (.recovery e))
  | ((files, book), .ok r) =>
    match (s.actor book r).run queue arrivals with
    | (a, .error e) => (a.logs.close files, .error (.actor e))
    | (a, .ok _) => (a.logs.close files, .ok a)

end Service

end Bourse
