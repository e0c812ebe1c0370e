import Bourse.Proofs.Log.Scanning
import Bourse.Proofs.Symbol.Journal
import Bourse.Recovery.Repair

/-!
# Repairing the outbox of a journal

An outbox that was cut holds the events of some commands, then events of a command that is not
closed, then less than a record. A repair cuts it back to the closed commands and finds the number
of the last one; whatever it cannot read makes it fail, and then the file stays as it is.
-/

namespace Bourse.Recovery

variable {f : Format} {fresh : Book}

/-- The records of events from an offset on. -/
def eventRecords (f : Format) (start : Nat) (es : List Event) : List Log.Record :=
  Log.recordsFrom start (es.map f.encodeEvent)

theorem eventRecords_append (f : Format) (start : Nat) (es more : List Event) :
    eventRecords f start (es ++ more) =
      eventRecords f start es ++
        eventRecords f (start + (Journal.eventBytes f es).length) more := by
  rw [eventRecords, List.map_append, Log.recordsFrom_append]
  rfl

/-- Taking note of an event that was written. -/
theorem note_encodeEvent (s : Repair) (e : Event) (stop : Nat) :
    Repair.note f s { payload := f.encodeEvent e, stop } =
      (if e.isCommandEnd then
        { s with lastSeq := e.seq, boundary := stop, records := s.records + 1 }
      else { s with records := s.records + 1 }, .ok ()) := by
  rw [Repair.note, Format.decodeEvent_encodeEvent]
  dsimp only
  split <;> rfl

/-- Events that close no command do not move the boundary. -/
theorem note_open {es : List Event} (h : Event.Open es) (s : Repair) (start : Nat) :
    Attempt.forEach (Repair.note f) s (eventRecords f start es) =
      ({ s with records := s.records + es.length }, .ok ()) := by
  induction es generalizing s start with
  | nil => rfl
  | cons e rest ih =>
    have he : e.isCommandEnd = false := h e List.mem_cons_self
    have hrest : Event.Open rest := fun d hd => h d (List.mem_cons_of_mem _ hd)
    rw [eventRecords, List.map_cons, Log.recordsFrom, Attempt.forEach_cons, note_encodeEvent, he]
    show Attempt.forEach _ _ (eventRecords f _ rest) = _
    rw [ih hrest]
    simp only [Bool.false_eq_true, if_false, List.length_cons]
    rw [Nat.add_assoc, Nat.add_comm 1]

/-- A closed command moves the boundary to its end. -/
theorem note_closed {front : List Event} {last : Event} (h : Event.Open front)
    (hlast : last.isCommandEnd = true) (s : Repair) (start : Nat) :
    Attempt.forEach (Repair.note f) s (eventRecords f start (front ++ [last])) =
      ({ s with
          lastSeq := last.seq
          boundary := start + (Journal.eventBytes f (front ++ [last])).length
          records := s.records + (front ++ [last]).length }, .ok ()) := by
  have hstop : start + (Journal.eventBytes f (front ++ [last])).length =
      start + (Journal.eventBytes f front).length + Log.headerSize +
        (f.encodeEvent last).length := by
    rw [Journal.eventBytes_append, List.length_append]
    simp [Journal.eventBytes]
    omega
  rw [eventRecords_append, Attempt.forEach_append, note_open h]
  show Attempt.forEach _ _ [_] = _
  rw [Attempt.forEach_cons, note_encodeEvent, hlast, hstop]
  simp [Attempt.andThen, Attempt.forEach, Nat.add_assoc]

/-- Closed commands move the boundary to the end of the last one, of which the number is noted. -/
theorem note_events {b : Book} {cs : List Command} (hm : b.Modest cs) (s : Repair) :
    Attempt.forEach (Repair.note f) s
        (eventRecords f s.boundary (Journal.events b (Actor.number s.lastSeq cs))) =
      ({ s with
          lastSeq := s.lastSeq + UInt64.ofNat cs.length
          boundary := s.boundary +
            (Journal.eventBytes f (Journal.events b (Actor.number s.lastSeq cs))).length
          records := s.records + (Journal.events b (Actor.number s.lastSeq cs)).length },
        .ok ()) := by
  induction cs generalizing b s with
  | nil => simp [eventRecords, Log.recordsFrom, Attempt.forEach]
  | cons c rest ih =>
    have hevents := Journal.events_cons_of_le hm.1 s.lastSeq rest
    rcases Journal.group_cases b (s.lastSeq + 1, c) with ⟨-, front, last, hg, hfront, hlast, hseq⟩ |
      ⟨hlt, -⟩
    · have hnext := ih hm.2 { s with
        lastSeq := s.lastSeq + 1
        boundary := s.boundary + (Journal.eventBytes f (front ++ [last])).length
        records := s.records + (front ++ [last]).length }
      rw [hevents, hg, eventRecords_append, Attempt.forEach_append, note_closed hfront hlast, hseq]
      show Attempt.forEach _ _ _ = _
      rw [hnext]
      simp only [Journal.eventBytes_append, List.length_append, List.length_cons, Nat.add_assoc,
        Actor.succ_add_ofNat]
    · exact absurd hm.1 (Nat.not_le.2 hlt)

/-- How logs are read in a recovery. -/
def readOptions (maxPayload : Nat) : Log.ReadOptions :=
  { maxPayload, tolerant := true }

/-- A repair succeeds if the outbox can be read to its end, and cuts it at the boundary. -/
theorem repair_eq_ok_iff {maxPayload : Nat} {outbox outbox' : File} {r : Repair} :
    repair f maxPayload outbox = (outbox', .ok r) ↔ ∃ found stats,
      Log.replay (readOptions maxPayload) outbox .log (Repair.note f) {} = (found, .ok stats) ∧
      outbox' = outbox.truncate found.boundary ∧
      r = { found with cut := outbox.size - found.boundary } := by
  rw [repair, ← readOptions]
  constructor
  · intro h
    split at h
    · cases h
    · next found stats hreplay =>
      cases h
      exact ⟨found, stats, hreplay, rfl, rfl⟩
  · rintro ⟨found, stats, hreplay, rfl, rfl⟩
    rw [hreplay]

/-- A repair that fails leaves the outbox as it is. -/
theorem repair_eq_error_iff {maxPayload : Nat} {outbox outbox' : File} {e : RecoveryError} :
    repair f maxPayload outbox = (outbox', .error e) ↔ outbox' = outbox ∧ ∃ found,
      Log.replay (readOptions maxPayload) outbox .log (Repair.note f) {} = (found, .error e) := by
  rw [repair, ← readOptions]
  constructor
  · intro h
    split at h
    · next found cause hreplay =>
      cases h
      exact ⟨rfl, found, hreplay⟩
    · cases h
  · rintro ⟨rfl, found, hreplay⟩
    rw [hreplay]

/-- An outbox is cut back to its closed commands. -/
theorem repair_ok {maxPayload : Nat} {outbox : File} (hu : outbox.Usable) {cs : List Command}
    (hm : fresh.Modest cs) {dangling : List Event} (hd : Event.Open dangling) {tail : Bytes}
    (hb : outbox.bytes =
      Journal.outboxBytes f fresh cs ++ Journal.eventBytes f dangling ++ tail)
    (hfits : ∀ e ∈ Journal.events fresh (Actor.number 0 cs) ++ dangling,
      Log.Fits (readOptions maxPayload).limit (f.encodeEvent e))
    (ht : Log.Torn (readOptions maxPayload) tail) :
    ∃ r : Repair, repair f maxPayload outbox =
        (outbox.truncate (Journal.outboxBytes f fresh cs).length, .ok r) ∧
      r.lastSeq = UInt64.ofNat cs.length := by
  have hframes : outbox.bytes = Log.frames
      ((Journal.events fresh (Actor.number 0 cs) ++ dangling).map f.encodeEvent) ++ tail := by
    rw [hb, ← Journal.eventBytes, Journal.eventBytes_append]
    rfl
  have hreplay := Log.replay_torn hu hframes
    (fun p hp => by
      obtain ⟨e, he, rfl⟩ := List.mem_map.1 hp
      exact hfits e he) ht RecoveryError.log (Repair.note f) {}
  have hnote : Attempt.forEach (Repair.note f) {} (eventRecords f 0
      (Journal.events fresh (Actor.number 0 cs) ++ dangling)) =
      ({ lastSeq := UInt64.ofNat cs.length
         boundary := (Journal.outboxBytes f fresh cs).length
         records := (Journal.events fresh (Actor.number 0 cs)).length + dangling.length }, .ok ()) := by
    rw [eventRecords_append, Attempt.forEach_append]
    have h := note_events (f := f) hm {}
    simp only [Nat.zero_add, UInt64.zero_add] at h
    rw [h]
    show Attempt.forEach _ _ (eventRecords f _ dangling) = _
    rw [note_open hd]
    rfl
  rw [← eventRecords, hnote] at hreplay
  exact ⟨_, repair_eq_ok_iff.2 ⟨_, _, hreplay, rfl, rfl⟩, rfl⟩

end Bourse.Recovery
