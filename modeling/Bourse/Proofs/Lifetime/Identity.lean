import Bourse.Proofs.Lifetime.Returning

/-!
# The identity of events

Sequence numbers are handed out again after a crash, but only those of commands that never had an
event. So an event is told apart from all others by its key for ever: `key_identifies`.
-/

namespace Bourse

/-- An event that was written: it is a whole record of the outbox. -/
def World.Records (w : World) (f : Format) (e : Event) : Prop :=
  ∃ es, Journal.eventBytes f es <+: w.outbox ∧ e ∈ es

namespace Actor

/-- All events of the commands that a recovery finds are in the outbox then. -/
theorem Begins.records {a : Actor Site} {sv : Service} {cs : List Command} {files : SymbolFiles}
    {kept : Nat} {published : List Event} (h : a.Begins sv cs files kept published) {e : Event}
    (he : e ∈ Journal.events sv.fresh (number 0 cs)) {running : Bool} :
    (World.up a running).Records sv.format e := by
  refine ⟨Journal.events sv.fresh (number 0 cs), ?_, he⟩
  show _ <+: Log.Writer.contents _ _
  exact ⟨[], (List.append_nil _).trans h.logs.outbox.contents.symm⟩

variable {last : Seq} {cs : List Command}

/-- Commands get higher numbers than the last one had. -/
theorem lt_of_mem_number (hnum : last.toNat + cs.length < UInt64.size) {entry : Seq × Command}
    (he : entry ∈ number last cs) : last < entry.1 := by
  induction cs generalizing last with
  | nil => cases he
  | cons c rest ih =>
    have hstep := Recovery.Rebuild.lt_succ hnum
    rcases List.mem_cons.1 he with rfl | he'
    · exact hstep
    · exact UInt64.lt_trans hstep (ih (Recovery.Rebuild.room_succ hnum) he')

theorem pairwise_number (hnum : last.toNat + cs.length < UInt64.size) :
    (number last cs).Pairwise fun a b => a.1 < b.1 := by
  induction cs generalizing last with
  | nil => exact List.Pairwise.nil
  | cons c rest ih =>
    have hrest := Recovery.Rebuild.room_succ hnum
    exact List.pairwise_cons.2 ⟨fun entry he => lt_of_mem_number hrest he, ih hrest⟩

end Actor

namespace World

variable {sv : Service} {ds all : List Command} {w : World}

theorem Keeps.numbered (h : w.Keeps sv ds all) : all.length < UInt64.size :=
  File.length_lt_of_inRange h.logRange (Nat.le_refl _)

/-- An event that was written is one of the journal for the secured commands. -/
theorem Keeps.mem_of_records (h : w.Keeps sv ds all) {e : Event} (he : w.Records sv.format e) :
    e ∈ Journal.events sv.fresh (Actor.number 0 ds) := by
  obtain ⟨es, hes, hmem⟩ := he
  exact (Journal.prefix_of_eventBytes_prefix (hes.trans h.outbox)).subset hmem

/-- Through any sessions, failures and crashes two events with one key are one event, and the
sequence numbers in the log increase. -/
theorem key_identifies {w' : World} (hw : Reaches sv true false fresh w)
    (hw' : Reaches sv true false w w') :
    (∀ d e : Event, w.Records sv.format d → w'.Records sv.format e → d.seq = e.seq →
      d.idx = e.idx → d.request = e.request ∧ d.kind = e.kind) ∧
    ∀ entries, Log.frames (Journal.payloads sv.format entries) <+: w'.log →
      entries.Pairwise fun a b => a.1 < b.1 := by
  have hnever : false = true → ∀ all, sv.Admits sv.fresh 0 all := fun h => (by cases h)
  obtain ⟨ds, all, -, hkeeps, -⟩ := (keeps_fresh sv).run (fun h => hnever h []) hw
  obtain ⟨ds', all', hds, hkeeps', -⟩ := hkeeps.run (fun h => hnever h all) hw'
  have hnumbered := hkeeps'.numbered
  constructor
  · intro d e hd he hseq hidx
    -- Both events are in the journal for the commands that are secured in the end.
    have hd' : d ∈ Journal.events sv.fresh (Actor.number 0 ds') := by
      obtain ⟨more, rfl⟩ := hds
      rw [Actor.number_append]
      exact (Journal.events_prefix ..).subset (hkeeps.mem_of_records hd)
    have horder : (Journal.events sv.fresh (Actor.number 0 ds')).Pairwise Event.Before := by
      refine Journal.pairwise_events ?_
      have := hkeeps'.secured.length_le
      show 0 + ds'.length < UInt64.size
      omega
    have hsame : d = e :=
      Event.eq_of_key horder hd' (hkeeps'.mem_of_records he) (Prod.ext hseq hidx)
    rw [hsame]
    exact ⟨rfl, rfl⟩
  · intro entries hentries
    have hprefix := Journal.prefix_of_logBytes_prefix (hentries.trans hkeeps'.log)
    refine List.Pairwise.sublist hprefix.sublist (Actor.pairwise_number ?_)
    show 0 + all'.length < UInt64.size
    omega

/-- The outbox is lost after a session and written again by the next recovery. -/
theorem key_identifies_regenerated :
    ∃ w w' d, Reaches .standard true false fresh w ∧ Reaches .standard true false w w' ∧
      w.Records .binary d ∧ w'.Records .binary d ∧
      ∀ e, w'.Records .binary e → d.seq = e.seq → d.idx = e.idx →
        d.request = e.request ∧ d.kind = e.kind := by
  obtain ⟨a, hreaches, hbegins⟩ := reaches_blank true false .absent [] 1
  have hlog := Journal.length_logBytes_blank 1
  have hkept : a.logs.kept ≤ (Journal.logBytes .binary [.blank 1]).length := by
    rw [hbegins.kept, hlog]
    decide
  have hlost : Step .standard true false (up a true)
      (down (a.logs.logs.leftover (Journal.logBytes .binary [.blank 1])) (up a true).kept
        (up a true).published) :=
    .ends (leaves_leftover hbegins.logs hkept)
  have hadmits := Service.admits_blank {} 0 1
  obtain ⟨a', hstep, hbegins'⟩ := Step.begins true false
    (readable_leftover hadmits (Nat.le_trans (Nat.le_of_eq hlog) (by decide))) hadmits.modest
    (Nat.le_trans (Nat.le_of_eq (Journal.length_outboxBytes_blank {} 1)) (by decide))
    (up a true).kept (up a true).published
  have hreaches' : Reaches .standard true false (up a true) (up a' true) :=
    .tail (.single hlost) hstep
  have hmem : ({ seq := 1, idx := 0, request := 1, kind := .rejected 0 0 .badCancel } : Event) ∈
      Journal.events {} (Actor.number 0 [.blank 1]) := List.mem_cons_self
  exact ⟨_, _, _, hreaches, hreaches', hbegins.records hmem, hbegins'.records hmem, fun e he =>
    (key_identifies hreaches hreaches').1 _ e (hbegins.records hmem) he⟩

/-- The key of an event is used again if a crash may take from the log what a recovery has read:
a command and its events are lost, and another command takes their place. -/
theorem key_reused_after_loss :
    ∃ w w' d e, Reaches .standard false false fresh w ∧ Reaches .standard false false w w' ∧
      w.Records .binary d ∧ w'.Records .binary e ∧ d.seq = e.seq ∧ d.idx = e.idx ∧
      d.request ≠ e.request := by
  obtain ⟨a, hreaches, hbegins⟩ := reaches_blank false false .absent [] 1
  -- Nothing was ever flushed, and the crash takes all of both logs.
  have hlost := Step.loses .standard false false true hbegins.kept
  obtain ⟨a', hreaches', hbegins'⟩ :=
    reaches_blank false false a.logs.logs.files.cursor a.logs.published 2
  have hmem (request : UInt64) :
      ({ seq := 1, idx := 0, request, kind := .rejected 0 0 .badCancel } : Event) ∈
        Journal.events {} (Actor.number 0 [.blank request]) := List.mem_cons_self
  exact ⟨_, _, _, _, hreaches, .trans (.single hlost) hreaches', hbegins.records (hmem 1),
    hbegins'.records (hmem 2), rfl, rfl, by decide⟩

end World

end Bourse
