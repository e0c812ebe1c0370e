import Bourse.Attempt
import Bourse.Log.Error
import Bourse.Message

/-!
# Recording the events of a command

An `Emitter` gives the events of one command their places and puts them somewhere, and in the end
closes the command. It goes on after a failure without putting anything more, so that whoever
executes the command need not care; the first failure is reported in the end, and then the
command stays open.
-/

namespace Bourse

/-- How an event is put somewhere. -/
abbrev Sink (σ : Type) := σ → Event → Attempt σ LogError Unit

/-- Most events that a command can have besides the closing one. -/
def maxEvents : Nat := 65535

/-- The events of one command on their way. -/
structure Emitter (σ : Type) where
  sink : σ
  seq : Seq
  request : UInt64
  /-- Number of events so far; one that could not be put counts. -/
  count : Nat := 0
  /-- The first failure. -/
  failure : Option LogError := none

namespace Emitter

variable {σ : Type}

/-- Puts one more event, unless something failed before. -/
def emit (put : Sink σ) (e : Emitter σ) (kind : EventKind) : Emitter σ :=
  if e.failure.isSome then e
  else if maxEvents ≤ e.count then { e with failure := some .tooManyEvents }
  else
    let event := { seq := e.seq, idx := UInt16.ofNat e.count, request := e.request, kind }
    match put e.sink event with
    | (sink, .ok ()) => { e with sink, count := e.count + 1 }
    | (sink, .error failure) => { e with sink, count := e.count + 1, failure := some failure }

/-- Closes the command and returns the number of its events, or reports what failed. -/
def finish (put : Sink σ) (e : Emitter σ) : Attempt σ LogError Nat :=
  match e.failure with
  | some failure => (e.sink, .error failure)
  | none =>
    let event :=
      { seq := e.seq, idx := UInt16.ofNat e.count, request := e.request, kind := .commandEnd }
    (put e.sink event).andThen fun sink _ => (sink, .ok e.count)

/-- Puts all events of a command and closes it. -/
def record (put : Sink σ) (sink : σ) (seq : Seq) (request : UInt64) (kinds : List EventKind) :
    Attempt σ LogError Nat :=
  (kinds.foldl (emit put) { sink, seq, request }).finish put

end Emitter

end Bourse
