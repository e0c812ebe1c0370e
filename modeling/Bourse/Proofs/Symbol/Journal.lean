import Bourse.Log.Writer
import Bourse.Proofs.Log.Framing
import Bourse.Proofs.Outbox.Recording
import Bourse.Proofs.Record.Codec
import Bourse.Symbol.Actor

/-!
# The journal of a symbol

What a symbol has to keep is decided by the commands alone: executed one after the other on the
fresh book they lead to a book, to the bytes of a log and to the bytes of an outbox. The events
come in groups, one for each command. A command with too many events is the last one that has a
group, and its group is not closed; everything said here without `Modest` allows for it.
-/

namespace Bourse

/-! ## Sequence numbers -/

namespace Actor

@[simp] theorem length_number (last : Seq) (cs : List Command) :
    (number last cs).length = cs.length := by
  induction cs generalizing last with
  | nil => rfl
  | cons c rest ih => simp [number, ih]

@[simp] theorem map_snd_number (last : Seq) (cs : List Command) :
    (number last cs).map Prod.snd = cs := by
  induction cs generalizing last with
  | nil => rfl
  | cons c rest ih => simp [number, ih]

theorem succ_add_ofNat (last : Seq) (n : Nat) :
    last + 1 + UInt64.ofNat n = last + UInt64.ofNat (n + 1) := by
  rw [UInt64.ofNat_add n 1, UInt64.add_assoc, UInt64.add_comm 1]
  rfl

theorem number_append (last : Seq) (cs ds : List Command) :
    number last (cs ++ ds) = number last cs ++ number (last + UInt64.ofNat cs.length) ds := by
  induction cs generalizing last with
  | nil => simp [number]
  | cons c rest ih =>
    rw [List.cons_append, number, ih, succ_add_ofNat]
    rfl

theorem number_take (last : Seq) (cs : List Command) (n : Nat) :
    (number last cs).take n = number last (cs.take n) := by
  induction cs generalizing last n with
  | nil => simp [number]
  | cons c rest ih =>
    cases n with
    | zero => rfl
    | succ n => rw [number, List.take_succ_cons, List.take_succ_cons, number, ih]

theorem getElem?_number (last : Seq) (cs : List Command) (i : Nat) :
    (number last cs)[i]? = cs[i]?.map fun c => (last + UInt64.ofNat (i + 1), c) := by
  induction cs generalizing last i with
  | nil => rfl
  | cons c rest ih =>
    cases i with
    | zero => rfl
    | succ i =>
      rw [number, List.getElem?_cons_succ, List.getElem?_cons_succ, ih, succ_add_ofNat]

end Actor

/-! ## Executing many commands -/

namespace Book

/-- The book after a list of commands. -/
def executeAll (b : Book) (cs : List Command) : Book :=
  cs.foldl (fun b c => (b.execute c).1) b

/-- No command of the list has more events than there are places for. -/
def Modest (b : Book) : List Command → Prop
  | [] => True
  | c :: rest => (b.execute c).2.length ≤ maxEvents ∧ Modest (b.execute c).1 rest

@[simp] theorem executeAll_nil (b : Book) : b.executeAll [] = b := rfl

@[simp] theorem executeAll_cons (b : Book) (c : Command) (cs : List Command) :
    b.executeAll (c :: cs) = (b.execute c).1.executeAll cs := rfl

theorem executeAll_append (b : Book) (cs ds : List Command) :
    b.executeAll (cs ++ ds) = (b.executeAll cs).executeAll ds :=
  List.foldl_append ..

theorem modest_append {b : Book} {cs ds : List Command} :
    b.Modest (cs ++ ds) ↔ b.Modest cs ∧ (b.executeAll cs).Modest ds := by
  induction cs generalizing b with
  | nil => simp [Modest]
  | cons c rest ih => simp only [List.cons_append, Modest, ih, executeAll_cons, and_assoc]

theorem Modest.take {b : Book} {cs : List Command} (h : b.Modest cs) (n : Nat) :
    b.Modest (cs.take n) := by
  rw [← List.take_append_drop n cs, modest_append] at h
  exact h.1

/-- A book never reports the closing event: that is for whoever records the others. -/
theorem commandEnd_not_mem_execute (b : Book) (c : Command) :
    EventKind.commandEnd ∉ (b.execute c).2 := by
  unfold execute
  split
  · unfold Command.rejection
    split <;> simp
  · split
    · unfold enter
      split
      · simp
      · split
        · simp
        · dsimp only
          split <;> simp
    · unfold withdraw
      split <;> simp

/-- Every command has an event. -/
theorem execute_ne_nil (b : Book) (c : Command) : (b.execute c).2 ≠ [] := by
  unfold execute
  split
  · simp
  · split
    · unfold enter
      split
      · simp
      · split
        · simp
        · dsimp only
          split <;> simp
    · unfold withdraw
      split <;> simp

end Book

/-! ## Events in groups -/

namespace Event

theorem number_append (seq : Seq) (request : UInt64) (l m : List EventKind) :
    number seq request (l ++ m) = number seq request l ++ numberFrom seq request l.length m := by
  simp [number, numberFrom, List.zipIdx_append]

/-- The events of a command that is not too large end with the closing one. -/
theorem recorded_of_le {kinds : List EventKind} (h : kinds.length ≤ maxEvents) (seq : Seq)
    (request : UInt64) :
    recorded seq request kinds =
      number seq request kinds ++
        [{ seq, idx := UInt16.ofNat kinds.length, request, kind := .commandEnd }] := by
  rw [recorded, recordedKinds, if_pos h, number_append]
  rfl

theorem recorded_of_lt {kinds : List EventKind} (h : maxEvents < kinds.length) (seq : Seq)
    (request : UInt64) :
    recorded seq request kinds = number seq request (kinds.take maxEvents) := by
  rw [recorded, recordedKinds, if_neg (Nat.not_le.2 h)]

/-- No event of these closes a command. -/
def Open (events : List Event) : Prop :=
  ∀ e ∈ events, e.isCommandEnd = false

theorem open_number {kinds : List EventKind} (h : EventKind.commandEnd ∉ kinds) (seq : Seq)
    (request : UInt64) : Open (number seq request kinds) := by
  intro e he
  obtain ⟨⟨kind, i⟩, hmem, rfl⟩ := List.mem_map.1 he
  have hkind : kind ∈ kinds := List.fst_mem_of_mem_zipIdx hmem
  cases kind with
  | commandEnd => exact absurd hkind h
  | _ => rfl

end Event

namespace Journal

/-- The events that are put for a logged command. -/
def group (b : Book) (entry : Seq × Command) : List Event :=
  Event.recorded entry.1 entry.2.request (b.execute entry.2).2

/-- The events of logged commands, command by command. -/
def groups (b : Book) : List (Seq × Command) → List (List Event)
  | [] => []
  | entry :: rest =>
    group b entry ::
      if (b.execute entry.2).2.length ≤ maxEvents then groups (b.execute entry.2).1 rest else []

/-- The events of logged commands. -/
def events (b : Book) (entries : List (Seq × Command)) : List Event :=
  (groups b entries).flatten

/-- The payloads of a log of commands. -/
def payloads (f : Format) (entries : List (Seq × Command)) : List Bytes :=
  entries.map fun entry => f.encodeCommand entry.1 entry.2

/-- The bytes of a log of commands that were numbered from the beginning. -/
def logBytes (f : Format) (cs : List Command) : Bytes :=
  Log.frames (payloads f (Actor.number 0 cs))

/-- The bytes of events in an outbox. -/
def eventBytes (f : Format) (es : List Event) : Bytes :=
  Log.frames (es.map f.encodeEvent)

/-- The bytes of the outbox for commands that were numbered from the beginning. -/
def outboxBytes (f : Format) (b : Book) (cs : List Command) : Bytes :=
  eventBytes f (events b (Actor.number 0 cs))

@[simp] theorem eventBytes_nil (f : Format) : eventBytes f [] = [] := rfl

@[simp] theorem eventBytes_append (f : Format) (l m : List Event) :
    eventBytes f (l ++ m) = eventBytes f l ++ eventBytes f m := by
  simp [eventBytes]

theorem length_logBytes_binary (cs : List Command) :
    (logBytes .binary cs).length = 75 * cs.length := by
  have hall (entries : List (Seq × Command)) :
      (Log.frames (payloads .binary entries)).length = 75 * entries.length := by
    induction entries with
    | nil => rfl
    | cons entry rest ih =>
      have hfirst : (Format.binary.encodeCommand entry.1 entry.2).length = 67 :=
        Binary.length_encodeCommand ..
      rw [payloads, List.map_cons, Log.frames_cons, List.length_append, Log.length_frame, hfirst,
        ← payloads, ih, List.length_cons]
      simp only [Log.headerSize]
      omega
  rw [logBytes, hall, Actor.length_number]

theorem length_eventBytes_binary (es : List Event) :
    (eventBytes .binary es).length = 76 * es.length := by
  induction es with
  | nil => rfl
  | cons e rest ih =>
    have hfirst : (Format.binary.encodeEvent e).length = 68 := Binary.length_encodeEvent e
    rw [eventBytes, List.map_cons, Log.frames_cons, List.length_append, Log.length_frame, hfirst,
      ← eventBytes, ih, List.length_cons]
    simp only [Log.headerSize]
    omega

@[simp] theorem payloads_append (f : Format) (l m : List (Seq × Command)) :
    payloads f (l ++ m) = payloads f l ++ payloads f m :=
  List.map_append ..

theorem length_le_of_mem_payloads {f : Format} {entries : List (Seq × Command)} {p : Bytes}
    (h : p ∈ payloads f entries) : p.length ≤ Log.maxLength := by
  obtain ⟨entry, -, rfl⟩ := List.mem_map.1 h
  exact f.length_encodeCommand_le entry.1 entry.2

theorem length_le_of_mem_payloads_binary {limit : Nat} (h : 67 ≤ limit)
    {entries : List (Seq × Command)} {p : Bytes} (hp : p ∈ payloads .binary entries) :
    p.length ≤ limit := by
  obtain ⟨entry, -, rfl⟩ := List.mem_map.1 hp
  exact Nat.le_trans (Nat.le_of_eq (Binary.length_encodeCommand ..)) h

/-- The groups of the first commands are the first groups. -/
theorem groups_take (b : Book) (entries : List (Seq × Command)) (n : Nat) :
    groups b (entries.take n) = (groups b entries).take n := by
  induction entries generalizing b n with
  | nil => simp [groups]
  | cons entry rest ih =>
    cases n with
    | zero => rfl
    | succ n =>
      rw [List.take_succ_cons, groups, groups, List.take_succ_cons]
      split
      · rw [ih]
      · rw [List.take_nil]

@[simp] theorem events_nil (b : Book) (last : Seq) : events b (Actor.number last []) = [] := rfl

/-- The events of the first command come first. Those of the others follow if it has not too many. -/
theorem events_cons (b : Book) (last : Seq) (c : Command) (rest : List Command) :
    events b (Actor.number last (c :: rest)) = group b (last + 1, c) ++
      if (b.execute c).2.length ≤ maxEvents then
        events (b.execute c).1 (Actor.number (last + 1) rest) else [] := by
  rw [events, Actor.number, groups, List.flatten_cons]
  split <;> rfl

theorem events_cons_of_le {b : Book} {c : Command} (h : (b.execute c).2.length ≤ maxEvents)
    (last : Seq) (rest : List Command) :
    events b (Actor.number last (c :: rest)) =
      group b (last + 1, c) ++ events (b.execute c).1 (Actor.number (last + 1) rest) := by
  rw [events_cons, if_pos h]

theorem events_cons_of_lt {b : Book} {c : Command} (h : maxEvents < (b.execute c).2.length)
    (last : Seq) (rest : List Command) :
    events b (Actor.number last (c :: rest)) = group b (last + 1, c) := by
  rw [events_cons, if_neg (Nat.not_le.2 h), List.append_nil]

/-- More commands add groups behind those that there are, if none was too large. -/
theorem groups_append {b : Book} {last : Seq} {cs : List Command} (h : b.Modest cs)
    (more : List (Seq × Command)) :
    groups b (Actor.number last cs ++ more) =
      groups b (Actor.number last cs) ++ groups (b.executeAll cs) more := by
  induction cs generalizing b last with
  | nil => rfl
  | cons c rest ih =>
    rw [Actor.number, List.cons_append, groups, groups, if_pos h.1, if_pos h.1, ih h.2]
    rfl

theorem events_append {b : Book} {last : Seq} {cs : List Command} (h : b.Modest cs)
    (more : List (Seq × Command)) :
    events b (Actor.number last cs ++ more) =
      events b (Actor.number last cs) ++ events (b.executeAll cs) more := by
  rw [events, groups_append h, List.flatten_append]
  rfl

/-- Whatever is logged later, the events so far stay the first ones. -/
theorem events_prefix (b : Book) (entries more : List (Seq × Command)) :
    events b entries <+: events b (entries ++ more) := by
  have htake := groups_take b (entries ++ more) entries.length
  rw [List.take_left] at htake
  rw [events, events, htake]
  conv => rhs; rw [← List.take_append_drop entries.length (groups b (entries ++ more))]
  rw [List.flatten_append]
  exact List.prefix_append ..

/-- A group is closed by its last event, or has no closing event. -/
theorem group_cases (b : Book) (entry : Seq × Command) :
    ((b.execute entry.2).2.length ≤ maxEvents ∧ ∃ front last,
      group b entry = front ++ [last] ∧ Event.Open front ∧ last.isCommandEnd = true ∧
        last.seq = entry.1) ∨
    (maxEvents < (b.execute entry.2).2.length ∧ Event.Open (group b entry)) := by
  have hopen := b.commandEnd_not_mem_execute entry.2
  by_cases h : (b.execute entry.2).2.length ≤ maxEvents
  · refine Or.inl ⟨h, _, _, Event.recorded_of_le h entry.1 entry.2.request, ?_, rfl, rfl⟩
    exact Event.open_number hopen _ _
  · have hlt : maxEvents < (b.execute entry.2).2.length := Nat.lt_of_not_le h
    refine Or.inr ⟨hlt, ?_⟩
    rw [group, Event.recorded_of_lt hlt]
    exact Event.open_number (fun hmem => hopen (List.mem_of_mem_take hmem)) _ _

end Journal

end Bourse
