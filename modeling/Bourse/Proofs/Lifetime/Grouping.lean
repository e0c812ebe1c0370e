import Bourse.Proofs.Lifetime.Identity

/-!
# Groups of events

The events of a command are a group: they share its number and its request, have their places from
zero on, and the last of them, which is not the only one, closes the command. However sessions end
and recoveries go, an outbox is made of whole groups of ever higher numbers and then of a first part
of another one: `outbox_grouped`.
-/

namespace Bourse

/-! ## What a group is -/

namespace Event

/-- All events of a command with this number. -/
structure Group (seq : Seq) (es : List Event) : Prop where
  business : 2 ≤ es.length
  seq_eq : ∀ e ∈ es, e.seq = seq
  request_eq : ∃ request, ∀ e ∈ es, e.request = request
  placed : ∀ (i : Nat) (e : Event), es[i]? = some e → e.idx.toNat = i
  closing : ∀ (i : Nat) (e : Event), es[i]? = some e → (e.isCommandEnd = true ↔ i + 1 = es.length)

/-- Whole groups with numbers above `last`, each above the one before, and then at most a first
part of another group. -/
inductive Grouped : (last : Seq) → List Event → Prop
  | nothing {last : Seq} : Grouped last []
  | begun {last seq : Seq} {es whole : List Event} (above : last < seq) (group : Group seq whole)
      (part : es <+: whole) (proper : es ≠ whole) : Grouped last es
  | whole {last seq : Seq} {es rest : List Event} (above : last < seq) (group : Group seq es)
      (more : Grouped seq rest) : Grouped last (es ++ rest)

theorem recordedKinds_of_le {kinds : List EventKind} (h : kinds.length ≤ maxEvents) :
    recordedKinds kinds = kinds ++ [.commandEnd] :=
  if_pos h

/-- The events of a command that does not have too many are a group. -/
theorem group_recorded {kinds : List EventKind} (hne : kinds ≠ [])
    (hend : EventKind.commandEnd ∉ kinds) (hle : kinds.length ≤ maxEvents) (seq : Seq)
    (request : UInt64) : Group seq (recorded seq request kinds) := by
  have hlen : (recorded seq request kinds).length = kinds.length + 1 := by
    simp [recorded, number, recordedKinds_of_le hle]
  have hpos : 0 < kinds.length := List.length_pos_iff.2 hne
  constructor
  case business => omega
  case seq_eq =>
    intro e he
    obtain ⟨i, hi⟩ := List.mem_iff_getElem?.1 he
    exact (getElem?_recorded hi).1
  case request_eq =>
    refine ⟨request, fun e he => ?_⟩
    obtain ⟨i, hi⟩ := List.mem_iff_getElem?.1 he
    exact (getElem?_recorded hi).2.2.1
  case placed => exact fun i e hi => (getElem?_recorded hi).2.1
  case closing =>
    intro i e hi
    have hkind := (getElem?_recorded hi).2.2.2
    rw [recordedKinds_of_le hle] at hkind
    rw [hlen]
    rcases Nat.lt_or_ge i kinds.length with hlt | hge
    · rw [List.getElem?_append_left hlt] at hkind
      have hother : e.kind ≠ .commandEnd := fun h => hend (h ▸ List.mem_of_getElem? hkind)
      have hfalse : e.isCommandEnd = false := by
        unfold isCommandEnd
        split
        · next h => exact absurd h hother
        · rfl
      rw [hfalse]
      simp only [Bool.false_eq_true, false_iff]
      omega
    · have hi' : i < (recorded seq request kinds).length := (List.getElem?_eq_some_iff.1 hi).1
      have heq : i = kinds.length := by omega
      rw [heq, List.getElem?_concat_length, Option.some.injEq] at hkind
      simp [isCommandEnd, ← hkind, heq]

end Event

/-! ## Groups in a journal -/

namespace Journal

/-- The first events of a journal are groups, of which only the last may have a first part only. -/
theorem grouped_events {b : Book} {last : Seq} {cs : List Command} {es : List Event}
    (hnum : last.toNat + cs.length < UInt64.size) (h : es <+: events b (Actor.number last cs)) :
    Event.Grouped last es := by
  induction cs generalizing b last es with
  | nil =>
    have hnil : es = [] := List.prefix_nil.1 h
    rw [hnil]
    exact .nothing
  | cons c rest ih =>
    have habove := Recovery.Rebuild.lt_succ hnum
    have hne := b.execute_ne_nil c
    have hend := b.commandEnd_not_mem_execute c
    by_cases hle : (b.execute c).2.length ≤ maxEvents
    · have hgroup : Event.Group (last + 1) (group b (last + 1, c)) :=
        Event.group_recorded hne hend hle _ _
      rw [events_cons_of_le hle] at h
      rcases Log.prefix_append_cases h with ⟨hin, hless⟩ | ⟨es', rfl, hrest⟩
      · refine .begun habove hgroup hin ?_
        rintro rfl
        exact Nat.lt_irrefl _ hless
      · exact .whole habove hgroup (ih (Recovery.Rebuild.room_succ hnum) hrest)
    · -- A command with too many events is never closed, but its events begin a group.
      have hlt : maxEvents < (b.execute c).2.length := Nat.lt_of_not_le hle
      have htake : ((b.execute c).2.take maxEvents).length = maxEvents := by
        rw [List.length_take]
        omega
      have hgroup : Event.Group (last + 1)
          (Event.recorded (last + 1) c.request ((b.execute c).2.take maxEvents)) :=
        Event.group_recorded (List.length_pos_iff.1 (by rw [htake]; decide))
          (fun hmem => hend (List.mem_of_mem_take hmem)) (Nat.le_of_eq htake) _ _
      have hcons : events b (Actor.number last (c :: rest)) =
          Event.number (last + 1) c.request ((b.execute c).2.take maxEvents) := by
        rw [events_cons_of_lt hlt, group, Event.recorded_of_lt hlt]
      have hconcat := Event.recorded_of_le (Nat.le_of_eq htake) (last + 1) c.request
      rw [hcons] at h
      refine .begun habove hgroup (h.trans ⟨_, hconcat.symm⟩) fun heq => ?_
      have := h.length_le
      rw [heq, hconcat, List.length_append, List.length_singleton] at this
      omega

end Journal

/-! ## Groups in an outbox -/

namespace World

variable {sv : Service} {ds all : List Command} {w : World}

theorem Keeps.outboxFile (h : w.Keeps sv ds all) :
    w.files.outbox.Usable ∧
      w.files.outbox.bytes <+: Journal.outboxBytes sv.format sv.fresh ds := by
  cases h with
  | down rests => exact ⟨rests.outboxUsable, rests.outbox⟩
  | up site _ =>
    refine ⟨Or.inr site.logs.outbox.regular, List.IsPrefix.trans ?_ site.journal⟩
    rw [← site.logs.outbox.contents]
    exact Log.Writer.bytes_prefix_contents ..

/-- **The outbox is made of groups.** Through any sessions, failures, crashes and recoveries the
outbox holds whole groups of increasing numbers, then a first part of another group, and then less
than a record. A reader whose limit is above every event finds these events and no error. -/
theorem outbox_grouped (hw : Reaches sv true false fresh w) :
    ∃ es tail, w.files.outbox.bytes = Journal.eventBytes sv.format es ++ tail ∧
      Event.Grouped 0 es ∧
      (∃ e, tail <+: Log.frame (sv.format.encodeEvent e) ∧
        tail.length < (Log.frame (sv.format.encodeEvent e)).length) ∧
      ∀ o : Log.ReadOptions, o.tolerant = true →
        (∀ e, (sv.format.encodeEvent e).length ≤ o.limit) →
        (Log.scan o w.files.outbox).records.map
            (fun record => sv.format.decodeEvent record.payload) = es.map .ok ∧
          (Log.scan o w.files.outbox).ending = .ok (!tail.isEmpty) := by
  have hnever : false = true → sv.Admits sv.fresh 0 [] := fun h => (by cases h)
  obtain ⟨ds, all, -, hkeeps, -⟩ := (keeps_fresh sv).run hnever hw
  obtain ⟨husable, hjournal⟩ := hkeeps.outboxFile
  have hnum : (0 : Seq).toNat + ds.length < UInt64.size := by
    have := hkeeps.secured.length_le
    have := hkeeps.numbered
    show 0 + ds.length < UInt64.size
    omega
  obtain ⟨m, tail, -, hcut, hbegun, -⟩ := Recovery.frames_cut
    ((Journal.events sv.fresh (Actor.number 0 ds)).map sv.format.encodeEvent)
    w.files.outbox.bytes.length
  rw [← List.map_take] at hcut
  have hbytes : w.files.outbox.bytes =
      Journal.eventBytes sv.format ((Journal.events sv.fresh (Actor.number 0 ds)).take m) ++ tail :=
    (List.prefix_iff_eq_take.1 hjournal).trans hcut
  refine ⟨_, tail, hbytes, Journal.grouped_events hnum (List.take_prefix ..), ?_, ?_⟩
  · rcases hbegun with rfl | ⟨p, hp, k, hk, rfl⟩
    · refine ⟨default, List.nil_prefix, ?_⟩
      rw [Log.length_frame, Log.headerSize, List.length_nil]
      omega
    · obtain ⟨e, -, rfl⟩ := List.mem_map.1 hp
      refine ⟨e, List.take_prefix .., ?_⟩
      rw [List.length_take]
      omega
  · intro o htolerant hlimit
    have hfits : ∀ es : List Event, ∀ p ∈ es.map sv.format.encodeEvent, Log.Fits o.limit p := by
      intro es p hp
      obtain ⟨e, -, rfl⟩ := List.mem_map.1 hp
      exact ⟨hlimit e, sv.format.length_encodeEvent_le e⟩
    have htorn := hbegun.torn htolerant (hfits _)
    rw [Log.scan_frames husable hbytes (hfits _) htorn.noRecord, htorn.ending]
    refine ⟨?_, rfl⟩
    calc (Log.recordsFrom 0 _).map (fun record => sv.format.decodeEvent record.payload)
      _ = ((Log.recordsFrom 0 _).map Log.Record.payload).map sv.format.decodeEvent := by
          rw [List.map_map]
          rfl
      _ = _ := by
        rw [Log.map_payload_recordsFrom, List.map_map]
        exact List.map_congr_left fun e _ => sv.format.decodeEvent_encodeEvent e

/-- A command with one event is recovered, and a crash cuts the outbox within the record that closes
it. The event is all that is left of the group. -/
theorem outbox_grouped_cut :
    ∃ w, Reaches .standard true false fresh w ∧ ∃ es tail,
      w.files.outbox.bytes = Journal.eventBytes .binary es ++ tail ∧ Event.Grouped 0 es ∧
        es.length = 1 ∧ tail.length = 24 := by
  obtain ⟨a, hreaches, hbegins⟩ := reaches_blank true false .absent [] 1
  have hlog : (Journal.logBytes .binary [.blank 1]).length = 75 := Journal.length_logBytes_blank 1
  have hout : (Journal.outboxBytes .binary {} [.blank 1]).length = 152 :=
    Journal.length_outboxBytes_blank {} 1
  have hleaves : (up a true).Leaves
      { log := .ofBytes (Journal.logBytes .binary [.blank 1])
        outbox := .ofBytes ((Journal.outboxBytes .binary {} [.blank 1]).take 100)
        cursor := a.logs.logs.files.cursor } :=
    { leaves_leftover hbegins.logs (Nat.le_of_eq (hbegins.kept.trans hlog.symm)) with
      outboxUsable := File.usable_ofBytes _
      outbox := by
        show (File.ofBytes _).bytes <+: Log.Writer.contents _ _
        rw [File.bytes_ofBytes, hbegins.logs.outbox.contents]
        exact List.take_prefix .. }
  have hreaches' := hreaches.tail (.ends hleaves)
  obtain ⟨es, tail, hbytes, hgrouped, ⟨e, -, htail⟩, -⟩ := outbox_grouped hreaches'
  refine ⟨_, hreaches', es, tail, hbytes, hgrouped, ?_⟩
  -- Every record has 76 bytes, so 100 of them are one record and 24 bytes of another.
  have hlen := congrArg List.length hbytes
  change (File.ofBytes _).bytes.length = _ at hlen
  rw [File.bytes_ofBytes, List.length_take, hout, List.length_append] at hlen
  change _ = (Journal.eventBytes .binary es).length + _ at hlen
  rw [Journal.length_eventBytes_binary] at hlen
  have hframe : (Log.frame (Format.binary.encodeEvent e)).length = 76 := by
    rw [Log.length_frame]
    exact congrArg (8 + ·) (Binary.length_encodeEvent e)
  change tail.length < (Log.frame (Format.binary.encodeEvent e)).length at htail
  omega

end World

end Bourse
