import Bourse.Record.Request

/-!
# The bus for publications

A `Bus` is a queue of limited size between publishers and one subscriber. It holds what is
published until the subscriber takes it, also before anyone has subscribed; once the subscriber
is gone the bus is closed.
-/

namespace Bourse

/-- Whether the receiving end of a bus was taken. -/
inductive Subscription where
  | available
  | taken
  | dropped
deriving DecidableEq, Repr, Inhabited

/-- A queue of publications. -/
structure Bus where
  capacity : Nat
  queue : List Publication := []
  subscription : Subscription := .available
  /-- Number of publications that were lost because nobody waited for room. -/
  dropped : Nat := 0
deriving Inhabited

namespace Bus

/-- What becomes of a publication that waits for room only for a moment. -/
inductive Offer where
  | taken
  /-- There is no room. -/
  | pending
  | closed
deriving DecidableEq, Repr, Inhabited

/-- Wording of the refusal by a closed bus. -/
def closedMessage : String := "event bus closed"

/-- A bus for at least one publication. -/
def ofCapacity (capacity : Nat) : Bus :=
  { capacity := max capacity 1 }

/-- Takes the receiving end; only the first subscriber gets it. -/
def subscribe (b : Bus) : Bus × Bool :=
  if b.subscription = .available then ({ b with subscription := .taken }, true) else (b, false)

/-- Offers a publication. -/
def publish (b : Bus) (p : Publication) : Bus × Offer :=
  if b.subscription = .dropped then (b, .closed)
  else if b.capacity ≤ b.queue.length then (b, .pending)
  else ({ b with queue := b.queue ++ [p] }, .taken)

/-- Publishes without waiting; a publication that is not taken is lost and counted. -/
def tryPublish (b : Bus) (p : Publication) : Bus × Bool :=
  match b.publish p with
  | (b, .taken) => (b, true)
  | (b, _) => ({ b with dropped := b.dropped + 1 }, false)

/-- Takes the earliest publication; `none` if the bus is empty. -/
def receive (b : Bus) : Bus × Option Publication :=
  match b.queue with
  | [] => (b, none)
  | p :: queue => ({ b with queue }, some p)

/-- Closes the bus; what was not received is gone. -/
def dropReceiver (b : Bus) : Bus :=
  if b.subscription = .taken then { b with subscription := .dropped, queue := [] } else b

end Bus

end Bourse
