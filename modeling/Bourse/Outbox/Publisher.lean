import Bourse.Attempt
import Bourse.Log.Reader
import Bourse.Outbox.Cursor
import Bourse.Record.Format

/-!
# Publishing an outbox

A publisher reads the events of an outbox and hands them on. It remembers in a stored cursor how
far it came, but only at the ends of commands: whatever fails, it goes back to the last end of a
command that it reached, so every event is handed on at least once and none is left out.

The publisher works in turns; a turn reads a chunk of records, publishes them and stores the
cursor. Everything around it, the outbox that may grow, the subscribers that may refuse an
event, the cursor file and the request to stop, is an `Outlet`.
-/

namespace Bourse.Publisher

/-- The surroundings of a publisher, as far as it can see or change them. -/
structure Outlet (σ : Type) where
  outbox : σ → File
  cursor : σ → File
  /-- Whether the publisher is asked to stop once the outbox is drained. -/
  cancelled : σ → Bool
  /-- Hands an event on, and says whether it was taken. -/
  publish : σ → Event → σ × Bool
  /-- Replaces the stored cursor, and says whether that succeeded. -/
  store : σ → Nat → σ × Bool

/-- How far a publisher came. -/
structure Progress where
  /-- End of the last command of which all events were published. -/
  committed : Nat
  /-- The committed offset that was stored last. -/
  stored : Nat
  /-- End of the last record that was dealt with. -/
  offset : Nat
  /-- The place where reading goes on, when there is more to read. -/
  reader : Option Log.Reader := none
deriving Inhabited

variable {σ : Type}

/-- Most records that a turn reads. -/
def chunkSize : Nat := 256

/-- Number of bytes that the publisher's reader fetches at once. -/
def readBuffer : Nat := 65536

/-- How a chunk of records ended. -/
inductive ChunkEnd where
  /-- The chunk is full; there may be more. -/
  | more
  /-- There is nothing more for now; a torn record may become whole. -/
  | idle
  /-- The next record cannot be read. -/
  | failed
deriving DecidableEq, Repr, Inhabited

/-- Reads up to `n` records. -/
def readChunk (outbox : File) : Nat → Log.Reader → Log.Reader × List Log.Record × ChunkEnd
  | 0, r => (r, [], .more)
  | n + 1, r =>
    match r.next outbox with
    | (r, .ok (some found)) =>
      let (r, records, ending) := readChunk outbox n r
      (r, found :: records, ending)
    | (r, .ok none) => (r, [], .idle)
    | (r, .error e) => (r, [], if e.isTruncation then .idle else .failed)

/-- Where publishing begins: at the stored cursor, or at the end of the outbox if that is before
it. There is no place to begin when the cursor cannot be read. -/
def start (o : Outlet σ) (s : σ) : Option (Progress × σ) :=
  match Cursor.load (o.cursor s) with
  | .error _ => none
  | .ok cursor =>
    let length := (o.outbox s).length?.getD cursor
    let offset := min cursor length
    some ({ committed := offset, stored := offset, offset },
      if offset < cursor then (o.store s offset).1 else s)

/-- Deals with one record: an event is published, the end of a command commits what was published
before it. Fails when the record is no event or the event is refused. -/
def handle (o : Outlet σ) (f : Format) (state : Progress × σ) (r : Log.Record) :
    Attempt (Progress × σ) Unit Unit :=
  let (p, s) := state
  match f.decodeEvent r.payload with
  | .error _ => ((p, s), .error ())
  | .ok e =>
    if e.isCommandEnd then (({ p with committed := r.stop, offset := r.stop }, s), .ok ())
    else
      let (s, taken) := o.publish s e
      if taken then (({ p with offset := r.stop }, s), .ok ()) else ((p, s), .error ())

/-- Stores the committed offset, unless it is stored already. -/
def save (o : Outlet σ) (p : Progress) (s : σ) : Progress × σ :=
  if p.committed = p.stored then (p, s)
  else
    let (s, saved) := o.store s p.committed
    (if saved then { p with stored := p.committed } else p, s)

/-- One turn. The last component says whether the publisher stops after it: it does when it was
asked to before the turn and nothing is left to read, or what is left cannot be dealt with. -/
def turn (o : Outlet σ) (f : Format) (maxPayload : Nat) (p : Progress) (s : σ) :
    Progress × σ × Bool :=
  let draining := o.cancelled s
  let opened : Except LogError Log.Reader := match p.reader with
    | some r => .ok r
    | none => Log.Reader.open? (o.outbox s) p.offset { maxPayload, buffer := readBuffer }
  match opened with
  | .error _ => (p, s, draining)
  | .ok r =>
    let (r, records, ending) := readChunk (o.outbox s) chunkSize r
    let ((p, s), handled) := Attempt.forEach (handle o f) (p, s) records
    let (p, s) := save o p s
    match handled, ending with
    | .ok (), .more => ({ p with reader := some r }, s, false)
    | .ok (), .idle => ({ p with reader := none }, s, draining)
    | _, _ => ({ p with reader := none, offset := p.committed }, s, draining)

/-- Runs a publisher for a number of turns. The result is the committed offset if it stopped
within them. A publisher that cannot read its cursor tries again, and stops without publishing
anything when it is asked to. -/
def run (o : Outlet σ) (f : Format) (maxPayload : Nat) :
    (turns : Nat) → Option Progress → σ → σ × Option Nat
  | 0, _, s => (s, none)
  | n + 1, none, s =>
    match start o s with
    | some (p, s) => run o f maxPayload n (some p) s
    | none => if o.cancelled s then (s, some 0) else run o f maxPayload n none s
  | n + 1, some p, s =>
    match turn o f maxPayload p s with
    | (p, s, false) => run o f maxPayload n (some p) s
    | (p, s, true) => (s, some p.committed)

end Bourse.Publisher
