import Bourse.Engine.Session
import Bourse.Proofs.Engine.Admitting

/-!
# Sessions over lines of input

A session over lines does what an engine does whose clients send what the lines ask for, one after
the other, and whose actors work on each command at once: `run_eq`. All that is proved of sessions of
an engine therefore holds of it, from the order in which commands are logged to what becomes of the
files after a restart. The machine must have room for what the configuration gives a size; it is only
for want of that, or of a configuration, that a session ends before its input.
-/

namespace Bourse

/-- A machine with `memory` bytes has room for all that a configuration gives a size. -/
structure Config.HasRoom (c : Config) (memory : Nat) : Prop where
  bus : Shortage.ofPlaces? c.busSize = none
  outbox : Shortage.ofBytes? memory (Log.Writer.bufferSize c.outboxBuffer) = none
  symbol : c.shortage? memory = none

/-- The default configuration gives each buffer a mebibyte. -/
example : ({} : Config).HasRoom 2097152 :=
  ⟨rfl, rfl, rfl⟩

namespace Engine

variable {e : Engine} {memory : Nat}

theorem shortage?_eq_none (h : e.config.HasRoom memory) (symbol : String) (fresh : Book) :
    e.shortage? memory symbol fresh = none := by
  unfold shortage?
  dsimp only
  split
  · rfl
  · split
    · rfl
    · next writer hopen =>
      have hcapacity : writer.capacity = Log.Writer.bufferSize e.config.outboxBuffer :=
        Log.Writer.capacity_open? hopen
      rw [hcapacity, h.outbox, h.symbol]
      dsimp only
      split <;> rfl

theorem acts_append (e : Engine) (acts more : List Act) :
    (e.acts (acts ++ more)).1 = ((e.acts acts).1.acts more).1 := by
  induction acts generalizing e with
  | nil => rfl
  | cons a rest ih =>
    rw [List.cons_append, acts_cons, acts_cons]
    exact ih _

theorem akin_acts (e : Engine) (acts : List Act) : e.Akin (e.acts acts).1 := by
  induction acts generalizing e with
  | nil => exact .refl e
  | cons a rest ih => exact (akin_act e a).trans (ih _)

end Engine

namespace Session

variable {e : Engine} {memory : Nat}

/-- What happens to an engine on a line of input. -/
def acts (line : List Char) : List Act :=
  match Request.ofLine line with
  | .ok (some r) =>
    let deed := if r.command.isSubmit then Deed.submit r.command else Deed.cancel r.command
    [⟨r.symbol, deed⟩, ⟨r.symbol, .work 1⟩]
  | _ => []

theorem shortage?_eq_none (h : e.config.HasRoom memory) (symbol : String) :
    shortage? memory e symbol = none := by
  unfold shortage?
  split
  · rfl
  · cases e.fresh symbol with
    | none => rfl
    | some book => exact Engine.shortage?_eq_none h symbol book

theorem serve_eq (h : e.config.HasRoom memory) (line : List Char) :
    serve memory e line = ((e.acts (acts line)).1, .ok ()) := by
  unfold serve acts
  rcases Request.ofLine line with cause | _ | r
  · rfl
  · rfl
  · dsimp only
    rw [shortage?_eq_none h]
    cases r.command.isSubmit <;> rfl

/-- Lines are served as long as there are any. -/
theorem forEach_serve (h : e.config.HasRoom memory) (lines : List (List Char)) :
    Attempt.forEach (serve memory) e lines = ((e.acts (lines.flatMap acts)).1, .ok ()) := by
  induction lines generalizing e with
  | nil => rfl
  | cons line rest ih =>
    have hkept : (e.acts (acts line)).1.config = e.config := (e.akin_acts _).config
    rw [Attempt.forEach, serve_eq h, List.flatMap_cons, Engine.acts_append]
    exact ih (hkept.symm ▸ h)

/-- **A session over lines is a session of an engine.** With a configuration and room for what it gives
a size, a session serves all of its input. It leaves the files that a session of an engine leaves in
which clients send the requests of the input, in their order, and it publishes what that publishes. -/
theorem run_eq {lookup : String → Option String} {config : Config}
    (hconfig : Config.ofVariables lookup = .ok config) (hroom : config.HasRoom memory)
    (directory : Directory) (input : List Char) :
    let s : Engine.Session := { config, acts := (Text.lines input).flatMap acts }
    let ended := s.run .binary (fun _ => some {}) directory
    run memory lookup directory input =
      (ended.1, .ok (ended.2.closings.flatMap Closing.publications)) := by
  intro s ended
  have hstart : start lookup directory = .ok (s.opening .binary (fun _ => some {}) directory) := by
    unfold start
    rw [hconfig]
    dsimp only
    rw [hroom.bus]
    rfl
  unfold run
  rw [hstart]
  dsimp only
  rw [forEach_serve (show (s.opening .binary (fun _ => some {}) directory).config.HasRoom memory
    from hroom)]
  rfl

end Session

end Bourse
