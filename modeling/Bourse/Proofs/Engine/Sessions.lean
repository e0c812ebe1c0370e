import Bourse.Engine.Basic

/-!
# Sessions of an engine

In a session clients send commands, actors work on what waits for them, and publishers take turns,
in any order; then the engine is shut down, and the next session begins with the files that it
leaves. What clients are answered, what is published, and what the shutdown tells of each symbol is
the `Report` of a session.
-/

namespace Bourse

/-- Number of bytes of an outbox that its publisher has seen. -/
def Publisher.Progress.reach (p : Progress) : Nat :=
  match p.reader with
  | none => p.offset
  | some r => max p.offset r.source.position

/-- A turn of the publisher of a symbol, or its beginning. It goes on beside the actor, so it may see
as little of the outbox as the first `seen` bytes, though never less than what it has seen before. -/
def Publisher.advance (f : Format) (maxPayload seen : Nat) (progress : Option Progress)
    (files : SymbolFiles) : Option Progress × Drain :=
  match progress with
  | none =>
    match start Drain.outlet ({ files } : Drain) with
    | none => (none, { files })
    | some (p, drain) => (some p, drain)
  | some p =>
    let view := { files with outbox := files.outbox.truncate (max p.reach seen) }
    let (p, drain, _) := turn Drain.outlet f maxPayload p { files := view }
    (some p, { drain with files := { drain.files with outbox := files.outbox } })

/-- What may happen to a symbol. -/
inductive Deed where
  /-- A client asks to submit an order. -/
  | submit (c : Command)
  /-- A client asks to cancel an order. -/
  | cancel (c : Command)
  /-- The actor works on a batch of at most so many commands, and of one at least. -/
  | work (most : Nat)
  /-- The publisher takes a turn and sees the first `seen` bytes of the outbox. -/
  | publish (seen : Nat)

/-- The command that a client sends. -/
def Deed.command? : Deed → Option Command
  | submit c | cancel c => some c
  | work _ | publish _ => none

/-- Whether a client asks for what its command is. -/
def Deed.proper : Deed → Bool
  | submit c => c.isSubmit
  | cancel c => c.isCancel
  | work _ | publish _ => true

/-- What happens to a symbol of an engine. -/
structure Act where
  symbol : String
  deed : Deed

/-- How a client was answered, and what was published. -/
structure Reply where
  answer : Except SubmitError Unit := .ok ()
  published : List Event := []

namespace Engine

/-- Lets the publisher of a symbol take a turn, and says what was published. -/
def publish (e : Engine) (symbol : String) (seen : Nat) : Engine × List Event :=
  match e.running[symbol]? with
  | none => (e, [])
  | some r =>
    if e.config.publishing then
      let (progress, drain) := Publisher.advance e.format e.config.maxPayload seen r.progress
        (e.directory.filesOf symbol)
      ({ e with
          directory := e.directory.setFiles symbol drain.files
          running := e.running.insert symbol { r with progress } },
        drain.published.reverse)
    else (e, [])

/-- Lets something happen to a symbol. -/
def act (e : Engine) (a : Act) : Engine × Reply :=
  match a.deed with
  | .submit c =>
    let (e, answer) := e.submit a.symbol c
    (e, { answer })
  | .cancel c =>
    let (e, answer) := e.cancel a.symbol c
    (e, { answer })
  | .work most => (e.wake a.symbol most, {})
  | .publish seen =>
    let (e, published) := e.publish a.symbol seen
    (e, { published })

/-- Lets one thing happen after the other. -/
def acts (e : Engine) : List Act → Engine × List (String × Reply)
  | [] => (e, [])
  | a :: rest =>
    let (e, reply) := e.act a
    let (e, replies) := e.acts rest
    (e, (a.symbol, reply) :: replies)

theorem acts_cons (e : Engine) (a : Act) (rest : List Act) :
    e.acts (a :: rest) =
      (((e.act a).1.acts rest).1, (a.symbol, (e.act a).2) :: ((e.act a).1.acts rest).2) :=
  rfl

/-- Does something to one symbol after the other. -/
def each {α β : Type} (f : Engine → String → α → Engine × β) (e : Engine) :
    List (String × α) → Engine × List (String × β)
  | [] => (e, [])
  | (symbol, a) :: rest =>
    let (e, b) := f e symbol a
    let (e, more) := each f e rest
    (e, (symbol, b) :: more)

theorem each_cons {α β : Type} (f : Engine → String → α → Engine × β) (e : Engine)
    (symbol : String) (a : α) (rest : List (String × α)) :
    each f e ((symbol, a) :: rest) =
      ((each f (f e symbol a).1 rest).1,
        (symbol, (f e symbol a).2) :: (each f (f e symbol a).1 rest).2) :=
  rfl

/-- A shutdown goes through the symbols in use twice. -/
theorem shutdown_eq (e : Engine) :
    e.shutdown =
      let finished := each finish { e with running := ∅, closed := true } e.running.toList
      let drained := each drain finished.1 finished.2
      (drained.1, drained.2.map (·.2)) := by
  have hfold {α β : Type} (f : Engine → String → α → Engine × β) (l : List (String × α))
      (e : Engine) (done : List (String × β)) :
      l.foldl (fun state entry => ((f state.1 entry.1 entry.2).1,
          state.2 ++ [(entry.1, (f state.1 entry.1 entry.2).2)])) (e, done) =
        ((each f e l).1, done ++ (each f e l).2) := by
    induction l generalizing e done with
    | nil => rw [List.foldl_nil, each, List.append_nil]
    | cons entry rest ih =>
      rw [List.foldl_cons, ih, each]
      simp only [List.append_assoc, List.singleton_append]
  unfold shutdown
  dsimp only
  rw [hfold, hfold]
  rfl

/-- What an engine is configured to be, and what happens until it is shut down. -/
structure Session where
  config : Config := {}
  acts : List Act

/-- What clients learn of a session. -/
structure Report where
  replies : List (String × Reply)
  closings : List Closing

namespace Report

/-- The part of a report that is about a symbol. -/
def about (r : Report) (symbol : String) : Report where
  replies := r.replies.filter (·.1 = symbol)
  closings := r.closings.filter (·.symbol = symbol)

/-- The events of a symbol in the order of their publication. -/
def published (r : Report) (symbol : String) : List Event :=
  (r.about symbol).replies.flatMap (·.2.published) ++
    (r.about symbol).closings.flatMap (·.published)

end Report

namespace Session

/-- The commands that are sent for a symbol. -/
def commands (s : Session) (symbol : String) : List Command :=
  (s.acts.filter (·.symbol = symbol)).filterMap (·.deed.command?)

/-- The session when nothing happens to a symbol. -/
def without (s : Session) (symbol : String) : Session :=
  { s with acts := s.acts.filter (·.symbol ≠ symbol) }

/-- An engine when a session begins. -/
def opening (s : Session) (f : Format) (fresh : String → Option Book) (directory : Directory) :
    Engine :=
  { config := s.config, format := f, fresh, directory }

/-- A session on the files of a directory, from the opening of the engine to its shutdown. -/
def run (f : Format) (fresh : String → Option Book) (directory : Directory) (s : Session) :
    Directory × Report :=
  let (e, replies) := (s.opening f fresh directory).acts s.acts
  let (e, closings) := e.shutdown
  (e.directory, { replies, closings })

theorem run_eq (f : Format) (fresh : String → Option Book) (directory : Directory) (s : Session) :
    s.run f fresh directory =
      let acted := (s.opening f fresh directory).acts s.acts
      (acted.1.shutdown.1.directory, { replies := acted.2, closings := acted.1.shutdown.2 }) :=
  rfl

end Session

/-- Sessions one after the other. -/
def sessions (f : Format) (fresh : String → Option Book) (directory : Directory) :
    List Session → Directory × List Report
  | [] => (directory, [])
  | s :: rest =>
    let (directory, report) := s.run f fresh directory
    let (directory, reports) := sessions f fresh directory rest
    (directory, report :: reports)

@[simp] theorem sessions_nil (f : Format) (fresh : String → Option Book) (directory : Directory) :
    sessions f fresh directory [] = (directory, []) :=
  rfl

@[simp] theorem sessions_cons (f : Format) (fresh : String → Option Book) (directory : Directory)
    (s : Session) (rest : List Session) :
    sessions f fresh directory (s :: rest) =
      ((sessions f fresh (s.run f fresh directory).1 rest).1,
        (s.run f fresh directory).2 :: (sessions f fresh (s.run f fresh directory).1 rest).2) :=
  rfl

end Engine

end Bourse
