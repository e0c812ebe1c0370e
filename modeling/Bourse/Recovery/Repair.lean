import Bourse.Log.Replay
import Bourse.Record.Format

/-!
# Repairing an outbox

After a crash an outbox may end with events of a command that was not closed, or within a
record. `repair` cuts it back to the end of the last closed command. It cuts nothing that it
cannot read: a damaged record or one that is no event is reported, and the file stays as it is.
-/

namespace Bourse

/-! ## Why a symbol cannot be recovered -/

/-- The two logs of a symbol. -/
inductive LogName where
  | commands
  | outbox
deriving DecidableEq, Repr, Inhabited

/-- What messages call a log. -/
def LogName.text : LogName → String
  | commands => "command wal"
  | outbox => "outbox"

/-- Why a symbol cannot be recovered. -/
inductive RecoveryError where
  | log (error : LogError)
  /-- A sound record of a log, ending at `stop`, is not one that the log should hold. -/
  | undecodable (log : LogName) (stop : Nat) (cause : RecordError)
deriving DecidableEq, Repr, Inhabited

namespace RecoveryError

/-- Whether a log was damaged, and not only cut short. -/
def isCorruption : RecoveryError → Bool
  | log (.checksumMismatch _) => true
  | undecodable .. => true
  | _ => false

/-- Wording of the error. -/
def message : RecoveryError → String
  | log error => error.message
  | undecodable name stop cause =>
    "undecodable record ending at offset " ++ toString stop ++ " in " ++ name.text ++ ": " ++
      cause.message

end RecoveryError

namespace Recovery

/-! ## Repairs -/

/-- What a repair found and did. -/
structure Repair where
  /-- Sequence number of the last closed command. -/
  lastSeq : Seq := 0
  /-- Offset at which that command ends, and with it the file. -/
  boundary : Nat := 0
  /-- Number of records read. -/
  records : Nat := 0
  /-- Number of bytes cut off. -/
  cut : Nat := 0
deriving DecidableEq, Repr, Inhabited

/-- Takes note of one record. -/
def Repair.note (f : Format) (s : Repair) (r : Log.Record) : Attempt Repair RecoveryError Unit :=
  match f.decodeEvent r.payload with
  | .error cause => (s, .error (.undecodable .outbox r.stop cause))
  | .ok e =>
    let s := if e.isCommandEnd then { s with lastSeq := e.seq, boundary := r.stop } else s
    ({ s with records := s.records + 1 }, .ok ())

/-- Cuts an outbox back to the end of its last closed command. -/
def repair (f : Format) (maxPayload : Nat) (outbox : File) : Attempt File RecoveryError Repair :=
  match Log.replay { maxPayload, tolerant := true } outbox .log (Repair.note f) {} with
  | (_, .error e) => (outbox, .error e)
  | (found, .ok _) =>
    (outbox.truncate found.boundary, .ok { found with cut := outbox.size - found.boundary })

end Recovery

end Bourse
