import Bourse.Proofs.Recovery.Stopping

/-!
# Keys of events

The sequence number of an event and its place among the events of its command are its key. The
events of a journal come in the order of their keys, so no two of them share one, and a subscriber
that drops an event whose key it has seen before loses nothing and receives nothing twice.
-/

namespace Bourse

namespace Event

/-- What subscribers tell events apart by. -/
def key (e : Event) : Seq × UInt16 :=
  (e.seq, e.idx)

/-- The order of keys. -/
def Before (d e : Event) : Prop :=
  d.seq < e.seq ∨ d.seq = e.seq ∧ d.idx < e.idx

theorem Before.key_ne {d e : Event} (h : d.Before e) : d.key ≠ e.key := by
  intro hkey
  obtain ⟨hseq, hidx⟩ := Prod.mk.inj hkey
  rcases h with h | ⟨-, h⟩
  · rw [hseq] at h
    exact UInt64.lt_irrefl _ h
  · rw [hidx] at h
    exact UInt16.lt_irrefl _ h

/-- Among events in order a key stands for one event. -/
theorem eq_of_key {es : List Event} (h : es.Pairwise Before) {d e : Event} (hd : d ∈ es)
    (he : e ∈ es) (hkey : d.key = e.key) : d = e := by
  induction es with
  | nil => cases hd
  | cons first rest ih =>
    obtain ⟨hfirst, hrest⟩ := List.pairwise_cons.1 h
    rcases List.mem_cons.1 hd with rfl | hd'
    · rcases List.mem_cons.1 he with rfl | he'
      · rfl
      · exact absurd hkey (hfirst e he').key_ne
    · rcases List.mem_cons.1 he with rfl | he'
      · exact absurd hkey.symm (hfirst d hd').key_ne
      · exact ih hrest hd' he'

/-- The events that a client can see: those that close no command. -/
def business (es : List Event) : List Event :=
  es.filter fun e => !e.isCommandEnd

@[simp] theorem business_append (es more : List Event) :
    business (es ++ more) = business es ++ business more :=
  List.filter_append ..

theorem business_cons_of_end {e : Event} (h : e.isCommandEnd = true) (es : List Event) :
    business (e :: es) = business es :=
  List.filter_cons_of_neg (by rw [h]; exact Bool.false_ne_true)

theorem business_cons_of_not_end {e : Event} (h : e.isCommandEnd = false) (es : List Event) :
    business (e :: es) = e :: business es :=
  List.filter_cons_of_pos (by rw [h]; rfl)

theorem business_prefix {es more : List Event} (h : es <+: more) : business es <+: business more := by
  obtain ⟨rest, rfl⟩ := h
  rw [business_append]
  exact List.prefix_append ..

/-- Events up to the last one that closes a command. -/
def closedPart : List Event → List Event
  | [] => []
  | e :: rest => if closedPart rest = [] ∧ e.isCommandEnd = false then [] else e :: closedPart rest

theorem closedPart_cons_of_end {e : Event} (h : e.isCommandEnd = true) (rest : List Event) :
    closedPart (e :: rest) = e :: closedPart rest := by
  rw [closedPart, if_neg]
  rintro ⟨-, hopen⟩
  rw [h] at hopen
  cases hopen

theorem closedPart_cons_of_not_end {e : Event} (h : e.isCommandEnd = false) (rest : List Event) :
    closedPart (e :: rest) = if closedPart rest = [] then [] else e :: closedPart rest := by
  simp only [closedPart, h, and_true]

theorem closedPart_append (es more : List Event) :
    closedPart (es ++ more) =
      if closedPart more = [] then closedPart es else es ++ closedPart more := by
  induction es with
  | nil =>
    split
    · next h => rw [List.nil_append, h, closedPart]
    · rfl
  | cons e rest ih =>
    rw [List.cons_append, closedPart, ih]
    split
    · rw [closedPart]
    · next h => rw [if_neg (by simp [h]), List.cons_append]

theorem closedPart_concat_of_end {e : Event} (h : e.isCommandEnd = true) (es : List Event) :
    closedPart (es ++ [e]) = es ++ [e] := by
  rw [closedPart_append, closedPart_cons_of_end h, if_neg (List.cons_ne_nil e _)]
  rfl

/-! ## Dropping what came before -/

/-- A subscriber keeps an event unless it has one with the same key. -/
def receive (seen : List Event) (e : Event) : List Event :=
  if seen.any fun d => d.key = e.key then seen else seen ++ [e]

/-- Events without those whose keys were there before. -/
def firsts (es : List Event) : List Event :=
  es.foldl receive []

@[simp] theorem firsts_concat (es : List Event) (e : Event) :
    firsts (es ++ [e]) = receive (firsts es) e :=
  List.foldl_append ..

theorem receive_of_mem {seen : List Event} {e : Event} (h : e ∈ seen) : receive seen e = seen :=
  if_pos (List.any_eq_true.2 ⟨e, h, by simp⟩)

theorem receive_of_new {seen : List Event} {e : Event} (h : ∀ d ∈ seen, d.key ≠ e.key) :
    receive seen e = seen ++ [e] := by
  refine if_neg fun hany => ?_
  obtain ⟨d, hd, hkey⟩ := List.any_eq_true.1 hany
  exact h d hd (of_decide_eq_true hkey)

theorem firsts_subset (es : List Event) : ∀ e ∈ firsts es, e ∈ es := by
  have hall (seen more : List Event) : ∀ e ∈ more.foldl receive seen, e ∈ seen ∨ e ∈ more := by
    induction more generalizing seen with
    | nil => exact fun e he => Or.inl he
    | cons d rest ih =>
      intro e he
      rcases ih (receive seen d) e he with h | h
      · unfold receive at h
        split at h
        · exact Or.inl h
        · rcases List.mem_append.1 h with h | h
          · exact Or.inl h
          · exact Or.inr (List.mem_cons.2 (Or.inl (List.mem_singleton.1 h)))
      · exact Or.inr (List.mem_cons_of_mem _ h)
  intro e he
  rcases hall [] es e he with h | h
  · cases h
  · exact h

end Event

/-! ## The order of a journal -/

namespace Journal

/-- Events of one command are in order, and carry its number. -/
theorem pairwise_recorded (seq : Seq) (request : UInt64) (kinds : List EventKind) :
    (Event.recorded seq request kinds).Pairwise Event.Before := by
  rw [List.pairwise_iff_getElem]
  intro i j hi hj hlt
  obtain ⟨hseqI, hidxI, -⟩ := Event.getElem?_recorded (List.getElem?_eq_getElem hi)
  obtain ⟨hseqJ, hidxJ, -⟩ := Event.getElem?_recorded (List.getElem?_eq_getElem hj)
  refine Or.inr ⟨by rw [hseqI, hseqJ], ?_⟩
  rw [UInt16.lt_iff_toNat_lt, hidxI, hidxJ]
  exact hlt

theorem seq_of_mem_recorded {seq : Seq} {request : UInt64} {kinds : List EventKind} {e : Event}
    (h : e ∈ Event.recorded seq request kinds) : e.seq = seq := by
  obtain ⟨i, hi⟩ := List.mem_iff_getElem?.1 h
  exact (Event.getElem?_recorded hi).1

/-- Events of later commands have higher numbers. -/
theorem lt_seq_of_mem_events {b : Book} {last : Seq} {cs : List Command}
    (hnum : last.toNat + cs.length < UInt64.size) {e : Event}
    (he : e ∈ events b (Actor.number last cs)) : last < e.seq := by
  induction cs generalizing b last with
  | nil => cases he
  | cons c rest ih =>
    have hstep := Recovery.Rebuild.lt_succ hnum
    rw [events_cons] at he
    rcases List.mem_append.1 he with he | he
    · rw [seq_of_mem_recorded he]
      exact hstep
    · split at he
      · exact UInt64.lt_trans hstep (ih (Recovery.Rebuild.room_succ hnum) he)
      · cases he

/-- The events of a journal are in the order of their keys. -/
theorem pairwise_events {b : Book} {last : Seq} {cs : List Command}
    (hnum : last.toNat + cs.length < UInt64.size) :
    (events b (Actor.number last cs)).Pairwise Event.Before := by
  induction cs generalizing b last with
  | nil => exact List.Pairwise.nil
  | cons c rest ih =>
    have hlen := Recovery.Rebuild.room_succ hnum
    rw [events_cons, List.pairwise_append]
    refine ⟨pairwise_recorded .., ?_, ?_⟩
    · split
      · exact ih hlen
      · exact List.Pairwise.nil
    · intro d hd e he
      split at he
      · refine Or.inl ?_
        rw [seq_of_mem_recorded hd]
        exact lt_seq_of_mem_events hlen he
      · cases he

/-- All commands of a journal are closed, if none has too many events. -/
theorem closedPart_events {b : Book} {last : Seq} {cs : List Command} (h : b.Modest cs) :
    Event.closedPart (events b (Actor.number last cs)) = events b (Actor.number last cs) := by
  induction cs generalizing b last with
  | nil => rfl
  | cons c rest ih =>
    have hcons := events_cons_of_le h.1 last rest
    rcases group_cases b (last + 1, c) with ⟨-, front, e, hg, -, hend, -⟩ | ⟨hlt, -⟩
    · rw [hcons, Event.closedPart_append, ih h.2, hg]
      split
      · next hnil => rw [Event.closedPart_concat_of_end hend, hnil, List.append_nil]
      · rfl
    · exact absurd h.1 (Nat.not_le.2 hlt)

/-! ## Reading back what a log begins with -/

/-- Records that a log begins with are the first records of the log. -/
theorem prefix_of_frames {ps qs : List Bytes} (hp : ∀ p ∈ ps, p.length ≤ Log.maxLength)
    (hq : ∀ q ∈ qs, q.length ≤ Log.maxLength) (h : Log.frames qs <+: Log.frames ps) : qs <+: ps := by
  induction qs generalizing ps with
  | nil => exact List.nil_prefix
  | cons q rest ih =>
    cases ps with
    | nil =>
      have := h.length_le
      rw [Log.frames_cons, List.length_append, Log.length_frame, Log.headerSize,
        Log.frames_nil, List.length_nil] at this
      omega
    | cons p more =>
      have hqLen := hq q List.mem_cons_self
      have hpLen := hp p List.mem_cons_self
      -- Both logs begin with a record that any reader with a high limit finds.
      obtain ⟨tail, htail⟩ := h
      rw [Log.frames_cons, Log.frames_cons, List.append_assoc] at htail
      have hparse := Log.Frame.parse_frame hqLen hqLen (Log.frames rest ++ tail)
      rw [htail, Log.Frame.parse_frame hpLen hpLen] at hparse
      injection hparse with hpq hrest
      subst hpq
      refine (List.prefix_cons_inj p).2 (ih (fun x hx => hp x (List.mem_cons_of_mem _ hx))
        (fun x hx => hq x (List.mem_cons_of_mem _ hx)) ⟨tail, hrest.symm⟩)

theorem encodeEvent_injective (f : Format) {d e : Event} (h : f.encodeEvent d = f.encodeEvent e) :
    d = e := by
  have hd := f.decodeEvent_encodeEvent d
  rw [h, f.decodeEvent_encodeEvent] at hd
  injection hd with hd
  exact hd.symm

theorem encodeCommand_injective (f : Format) {a b : Seq × Command}
    (h : f.encodeCommand a.1 a.2 = f.encodeCommand b.1 b.2) : a = b := by
  have ha := f.decodeCommand_encodeCommand a.1 a.2
  rw [h, f.decodeCommand_encodeCommand] at ha
  injection ha with ha
  exact ha.symm

theorem prefix_of_map_prefix {α β : Type} {g : α → β} (hg : ∀ {a b : α}, g a = g b → a = b)
    {l m : List α} (h : l.map g <+: m.map g) : l <+: m := by
  obtain ⟨k, hk, hmap⟩ := List.prefix_map_iff.1 h
  rw [List.map_inj_right fun _ _ => hg] at hmap
  rw [hmap]
  exact hk

/-- Events that an outbox begins with are the first events of its journal. -/
theorem prefix_of_eventBytes_prefix {f : Format} {ds es : List Event}
    (h : eventBytes f ds <+: eventBytes f es) : ds <+: es := by
  refine prefix_of_map_prefix (encodeEvent_injective f) (prefix_of_frames ?_ ?_ h)
  all_goals
    intro p hp
    obtain ⟨e, -, rfl⟩ := List.mem_map.1 hp
    exact f.length_encodeEvent_le e

/-- The events of an outbox can be told from its bytes. -/
theorem eq_of_eventBytes_eq {f : Format} {ds es : List Event}
    (h : eventBytes f ds = eventBytes f es) : ds = es := by
  have hds : ds <+: es := by
    apply prefix_of_eventBytes_prefix (f := f)
    exact ⟨[], by rw [List.append_nil, h]⟩
  have hes : es <+: ds := by
    apply prefix_of_eventBytes_prefix (f := f)
    exact ⟨[], by rw [List.append_nil, h]⟩
  exact hds.eq_of_length_le hes.length_le

/-- Commands that a log begins with are the first commands of its journal. -/
theorem prefix_of_logBytes_prefix {f : Format} {entries : List (Seq × Command)}
    {cs : List Command} (h : Log.frames (payloads f entries) <+: logBytes f cs) :
    entries <+: Actor.number 0 cs :=
  prefix_of_map_prefix (encodeCommand_injective f) (prefix_of_frames
    (fun _ hp => length_le_of_mem_payloads hp) (fun _ hp => length_le_of_mem_payloads hp) h)

end Journal

end Bourse
