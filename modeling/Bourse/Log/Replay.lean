import Bourse.Attempt
import Bourse.Log.Reader

/-!
# Reading a log from end to end

`scan` finds all records of a file, up to its end or to the first place where there is none.
`replay` hands them to a visitor, which may call a halt; a log without a file has no records.
-/

namespace Bourse.Log

/-- The records of a log and how they end: with an error, or with the end of the file, which may
be torn. -/
structure Scan where
  records : List Record
  ending : Except LogError Bool

/-- Finds the records of a file from `offset` on, after those in `found`. -/
def scanFrom (o : ReadOptions) (f : File) (offset : Nat) (found : Array Record) : Scan :=
  let stopped (ending : Except LogError Bool) : Scan := { records := found.toList, ending }
  let torn (e : LogError) := stopped (if o.tolerant then .ok true else .error e)
  match _h : Source.findAt o.limit f offset with
  | .nothing => stopped (.ok false)
  | .shortHeader => torn (.truncatedHeader offset)
  | .tooLarge length => stopped (.error (.payloadTooLarge offset length o.limit))
  | .shortPayload _ => torn (.truncatedPayload offset)
  | .corrupt _ => stopped (.error (.checksumMismatch offset))
  | .record payload _ =>
    let stop := offset + headerSize + payload.length
    scanFrom o f stop (found.push { payload, stop })
termination_by f.size - offset
decreasing_by
  have := Source.le_size_of_findAt (by assumption)
  simp only [headerSize] at this ⊢
  omega

/-- The records of a file. -/
def scan (o : ReadOptions) : File → Scan
  | .absent => { records := [], ending := .ok false }
  | .directory _ => { records := [], ending := .error (.file .isDirectory) }
  | .unnameable => { records := [], ending := .error (.file .nameTooLong) }
  | file => scanFrom o file 0 #[]

/-- What a replay saw. -/
structure ReplayStats where
  /-- Number of records that the visitor took. -/
  records : Nat := 0
  /-- End of the last of them. -/
  lastGood : Nat := 0
  /-- Whether a torn record followed. -/
  torn : Bool := false
deriving DecidableEq, Repr, Inhabited

/-- Hands the records of a file to a visitor. Its error ends the replay; an error of the log does
so after the records before it were visited. -/
def replay {σ ε : Type} (o : ReadOptions) (file : File) (ofLog : LogError → ε)
    (f : σ → Record → Attempt σ ε Unit) (s : σ) : Attempt σ ε ReplayStats :=
  let found := scan o file
  (Attempt.forEach f s found.records).andThen fun s _ =>
    match found.ending with
    | .error e => (s, .error (ofLog e))
    | .ok torn =>
      let lastGood := (found.records.getLast?.map Record.stop).getD 0
      (s, .ok { records := found.records.length, lastGood, torn })

end Bourse.Log
