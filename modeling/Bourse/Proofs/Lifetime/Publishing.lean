import Bourse.Proofs.Lifetime.Reading
import Bourse.Proofs.Lifetime.World

/-!
# What subscribers get

The publisher hands on the events of an outbox in the order of the journal. Whatever fails, what its
subscribers took, without repetitions, is a first part of the events that they are to get, and the
stored cursor is behind no event that they did not take.
-/

namespace Bourse

/-! ## What the publisher leaves as it is -/

/-- A site that differs at most in what belongs to the publisher. -/
structure Site.Beside (s s' : Site) : Prop where
  logs : s'.logs = (s.withCursor s'.logs.files.cursor s'.logs.files.scratch).logs
  kept : s'.kept = s.kept

theorem Site.Beside.refl (s : Site) : s.Beside s :=
  ⟨rfl, rfl⟩

theorem Site.Beside.trans {s s' s'' : Site} (h : s.Beside s') (h' : s'.Beside s'') :
    s.Beside s'' where
  logs := by
    rw [h'.logs]
    show _ = (s.withCursor s''.logs.files.cursor s''.logs.files.scratch).logs
    unfold withCursor
    dsimp only
    rw [h.logs]
    rfl
  kept := h'.kept.trans h.kept

theorem Site.Beside.outbox {s s' : Site} (h : s.Beside s') :
    s'.logs.files.outbox = s.logs.files.outbox := by
  rw [h.logs]
  rfl

namespace Site

theorem publish_cases (s : Site) (e : Event) :
    (∃ turn, outlet.publish s e = ({ s with turn, published := s.published ++ [e] }, true)) ∨
      ∃ turn, outlet.publish s e = ({ s with turn }, false) := by
  unfold outlet
  dsimp only
  split
  · exact Or.inr ⟨s.turn, rfl⟩
  · exact Or.inr ⟨_, rfl⟩
  · exact Or.inl ⟨_, rfl⟩

/-- The cursor is the old one or the new one. -/
theorem store_cases (s : Site) (offset : Nat) :
    ∃ cursor scratch saved, outlet.store s offset = (s.withCursor cursor scratch, saved) ∧
      (cursor = s.logs.files.cursor ∨ Cursor.store s.logs.files.cursor offset = .ok cursor) := by
  have hfiles : (s.logs.files.storeCursor offset).1.cursor = s.logs.files.cursor ∨
      Cursor.store s.logs.files.cursor offset =
        .ok (s.logs.files.storeCursor offset).1.cursor := by
    unfold SymbolFiles.storeCursor
    split
    · exact Or.inl rfl
    · split
      · next hstore => exact Or.inr hstore
      · exact Or.inl rfl
  unfold outlet
  dsimp only
  split
  · exact ⟨_, _, _, rfl, hfiles⟩
  · exact ⟨_, _, _, rfl, Or.inl rfl⟩
  · exact ⟨_, _, _, rfl, hfiles⟩

end Site

/-! ## What subscribers have got -/

/-- Nothing, or events of which the last one closes a command. -/
def Event.Closed (es : List Event) : Prop :=
  es = [] ∨ ∃ e, es.getLast? = some e ∧ e.isCommandEnd = true

/-- Subscribers have got the events of `done`, which are the first of the journal's, and the stored
cursor is at the end of some command among them. -/
structure Delivered (f : Format) (es done published : List Event) (cursor : File) : Prop where
  journal : done <+: es
  received : Event.firsts published = Event.business done
  cursor : ∃ back, back <+: done ∧ Event.Closed back ∧
    Cursor.load cursor = .ok (Journal.eventBytes f back).length

/-- A publisher has come to the end of the events of `front`. -/
structure Placed (f : Format) (done front : List Event) (outbox : File)
    (p : Publisher.Progress) : Prop where
  done : front <+: done
  offset : p.offset = (Journal.eventBytes f front).length
  within : p.offset ≤ outbox.size
  committed : ∃ back, back <+: front ∧ Event.Closed back ∧
    p.committed = (Journal.eventBytes f back).length

variable {f : Format} {es done published front : List Event} {cursor outbox : File}
  {p : Publisher.Progress} {s : Site}

theorem Placed.committed_within (h : Placed f done front outbox p) :
    p.committed ≤ outbox.size := by
  obtain ⟨back, hback, -, hcommitted⟩ := h.committed
  have hle := Publisher.length_eventBytes_le (f := f) hback
  rw [hcommitted]
  exact Nat.le_trans hle (h.offset ▸ h.within)

theorem Delivered.mono {more : List Event} (h : Delivered f es done published cursor)
    (hes : es <+: more) : Delivered f more done published cursor where
  journal := h.journal.trans hes
  received := h.received
  cursor := h.cursor

/-- The next event of the journal is among those that subscribers got, or they got all before it. -/
theorem prefix_concat_cases {α : Type} {front done es : List α} {e : α} (hfront : front <+: done)
    (hdone : done <+: es) (hnext : front ++ [e] <+: es) : front ++ [e] <+: done ∨ front = done := by
  rcases List.prefix_or_prefix_of_prefix hnext hdone with h | h
  · exact Or.inl h
  · rcases List.prefix_concat_iff.1 h with rfl | h
    · exact Or.inl (List.prefix_refl _)
    · exact Or.inr (hfront.eq_of_length_le h.length_le)

/-- The next event is one that subscribers got before, or the one that they lack. -/
theorem received_next (hes : es.Pairwise Event.Before) (hdone : done <+: es)
    (hreceived : Event.firsts published = Event.business done) (hfront : front <+: done)
    {e : Event} (hnext : front ++ [e] <+: es) :
    ∃ done', front ++ [e] <+: done' ∧ done <+: done' ∧ done' <+: es ∧
      Event.firsts (published ++ Event.business [e]) = Event.business done' := by
  cases he : e.isCommandEnd with
  | true =>
    have hnone : Event.business [e] = [] := Event.business_cons_of_end he []
    rw [hnone, List.append_nil, hreceived]
    rcases prefix_concat_cases hfront hdone hnext with hseen | rfl
    · exact ⟨done, hseen, List.prefix_refl _, hdone, rfl⟩
    · refine ⟨front ++ [e], List.prefix_refl _, List.prefix_append .., hnext, ?_⟩
      rw [Event.business_append, hnone, List.append_nil]
  | false =>
    have hone : Event.business [e] = [e] := Event.business_cons_of_not_end he []
    rw [hone, Event.firsts_concat, hreceived]
    rcases prefix_concat_cases hfront hdone hnext with hseen | rfl
    · refine ⟨done, hseen, List.prefix_refl _, hdone, Event.receive_of_mem ?_⟩
      refine (Event.business_prefix hseen).subset ?_
      rw [Event.business_append, hone]
      exact List.mem_append_right _ (List.mem_singleton_self e)
    · refine ⟨front ++ [e], List.prefix_refl _, List.prefix_append .., hnext, ?_⟩
      rw [Event.business_append, hone]
      -- No event before this one has its key.
      refine Event.receive_of_new fun d hmem => ?_
      have horder := hes.sublist hnext.sublist
      rw [List.pairwise_append] at horder
      exact (horder.2.2 d (List.mem_filter.1 hmem).1 e (List.mem_singleton_self e)).key_ne

theorem Delivered.next (h : Delivered f es done published cursor) (hes : es.Pairwise Event.Before)
    (hfront : front <+: done) {e : Event} (hnext : front ++ [e] <+: es) :
    ∃ done', front ++ [e] <+: done' ∧
      Delivered f es done' (published ++ Event.business [e]) cursor := by
  obtain ⟨done', hfront', hdone, hjournal, hreceived⟩ :=
    received_next hes h.journal h.received hfront hnext
  obtain ⟨back, hback, hclosed, hload⟩ := h.cursor
  exact ⟨done', hfront', hjournal, hreceived, back, hback.trans hdone, hclosed, hload⟩

/-- A position that is stored as a cursor is read back. -/
theorem Cursor.load_store_of_inRange {cursor cursor' : File} {offset : Nat}
    (h : store cursor offset = .ok cursor') (hrange : offset ≤ File.maxPosition) :
    load cursor' = .ok offset := by
  have hlt : offset < Bytes.capacity size := Nat.lt_of_le_of_lt hrange (by decide)
  rw [load_store h, Nat.mod_eq_of_lt hlt]

namespace Publisher

open Recovery

section Handling

variable {e : Event}

section Outlet

variable {σ : Type} {o : Outlet σ} {t t' : σ} {r : Log.Record}

/-- The end of a command commits it. -/
theorem handle_of_end (hr : f.decodeEvent r.payload = .ok e) (he : e.isCommandEnd = true) :
    handle o f (p, t) r = (({ p with committed := r.stop, offset := r.stop }, t), .ok ()) := by
  simp only [handle, hr, he, if_true]

/-- Any other event is handed on. -/
theorem handle_of_taken (hr : f.decodeEvent r.payload = .ok e) (he : e.isCommandEnd = false)
    (h : o.publish t e = (t', true)) :
    handle o f (p, t) r = (({ p with offset := r.stop }, t'), .ok ()) := by
  simp only [handle, hr, he, h, if_true]
  rfl

theorem handle_of_refused (hr : f.decodeEvent r.payload = .ok e) (he : e.isCommandEnd = false)
    (h : o.publish t e = (t', false)) : handle o f (p, t) r = ((p, t'), .error ()) := by
  simp only [handle, hr, he, h]
  rfl

end Outlet

/-- Whether or not the next event is taken, the publisher stays among the events that subscribers
got. -/
theorem handle_delivered (hes : es.Pairwise Event.Before)
    (hd : Delivered f es done s.published s.logs.files.cursor)
    (hp : Placed f done front outbox p) (hnext : front ++ [e] <+: es)
    (hwithin : (Journal.eventBytes f (front ++ [e])).length ≤ outbox.size) :
    ∃ done' front' p' s' result, handle Site.outlet f (p, s)
        ⟨f.encodeEvent e, (Journal.eventBytes f (front ++ [e])).length⟩ = ((p', s'), result) ∧
      s.Beside s' ∧ s'.logs = s.logs ∧ Delivered f es done' s'.published s'.logs.files.cursor ∧
      Placed f done' front' outbox p' ∧ (result = .ok () → front' = front ++ [e]) := by
  obtain ⟨done', hdone', hd'⟩ := hd.next hes hp.done hnext
  have hdecode := f.decodeEvent_encodeEvent e
  cases he : e.isCommandEnd with
  | true =>
    rw [Event.business_cons_of_end he] at hd'
    refine ⟨done', front ++ [e], _, s, _, handle_of_end hdecode he, Site.Beside.refl s, rfl,
      List.append_nil s.published ▸ hd', ⟨hdone', rfl, hwithin, ?_⟩, fun _ => rfl⟩
    exact ⟨front ++ [e], List.prefix_refl _, Or.inr ⟨e, by simp, he⟩, rfl⟩
  | false =>
    rw [Event.business_cons_of_not_end he] at hd'
    rcases s.publish_cases e with ⟨turn, hpublish⟩ | ⟨turn, hpublish⟩
    · obtain ⟨back, hback, hclosed, hcommitted⟩ := hp.committed
      exact ⟨done', front ++ [e], _, _, _, handle_of_taken hdecode he hpublish, ⟨rfl, rfl⟩, rfl, hd',
        ⟨hdone', rfl, hwithin, back, hback.trans (List.prefix_append ..), hclosed, hcommitted⟩,
        fun _ => rfl⟩
    · exact ⟨done, front, p, _, _, handle_of_refused hdecode he hpublish, ⟨rfl, rfl⟩, rfl, hd, hp,
        fun h => (by cases h)⟩

end Handling

/-- Records of the next events are handled one after the other until an event is refused. -/
theorem forEach_handle (hes : es.Pairwise Event.Before)
    (hd : Delivered f es done s.published s.logs.files.cursor)
    (hp : Placed f done front outbox p) {more : List Event} (hnext : front ++ more <+: es)
    (hwithin : (Journal.eventBytes f (front ++ more)).length ≤ outbox.size) :
    ∃ done' front' p' s' result, Attempt.forEach (handle Site.outlet f) (p, s)
        (eventRecords f (Journal.eventBytes f front).length more) = ((p', s'), result) ∧
      s.Beside s' ∧ s'.logs = s.logs ∧ Delivered f es done' s'.published s'.logs.files.cursor ∧
      Placed f done' front' outbox p' ∧ (result = .ok () → front' = front ++ more) := by
  induction more generalizing p s done front with
  | nil =>
    exact ⟨done, front, p, s, .ok (), rfl, Site.Beside.refl s, rfl, hd, hp, fun _ => by simp⟩
  | cons e rest ih =>
    have hfirst : front ++ [e] <+: es :=
      ((List.prefix_append_right_inj front).2 ⟨rest, rfl⟩).trans hnext
    have hfirstWithin : (Journal.eventBytes f (front ++ [e])).length ≤ outbox.size := by
      exact Nat.le_trans (length_eventBytes_le ((List.prefix_append_right_inj front).2 ⟨rest, rfl⟩))
        hwithin
    obtain ⟨done₁, front₁, p₁, s₁, result, hhandle, hbeside, hlogs, hd₁, hp₁, hfront⟩ :=
      handle_delivered hes hd hp hfirst hfirstWithin
    rw [eventRecords_cons, Attempt.forEach_cons, hhandle]
    cases result with
    | error u =>
      exact ⟨done₁, front₁, p₁, s₁, .error u, rfl, hbeside, hlogs, hd₁, hp₁, fun h => (by cases h)⟩
    | ok _ =>
      have hfront' := hfront rfl
      subst hfront'
      have hrest : (front ++ [e]) ++ rest = front ++ e :: rest := by simp
      rw [← hrest] at hnext hwithin
      obtain ⟨done', front', p', s', result, hrun, hbeside', hlogs', hd', hp', hend⟩ :=
        ih hd₁ hp₁ hnext hwithin
      refine ⟨done', front', p', s', result, hrun, hbeside.trans hbeside', hlogs'.trans hlogs, hd',
        hp', fun h => ?_⟩
      rw [hend h, hrest]

/-- Storing the committed offset. -/
theorem save_delivered (hrange : outbox.size ≤ File.maxPosition)
    (hd : Delivered f es done s.published s.logs.files.cursor)
    (hp : Placed f done front outbox p)
    (hcursor : ∀ c, Cursor.load s.logs.files.cursor = .ok c → c ≤ outbox.size) :
    ∃ stored s', save Site.outlet p s = ({ p with stored }, s') ∧ s.Beside s' ∧
      Delivered f es done s'.published s'.logs.files.cursor ∧
      ∀ c, Cursor.load s'.logs.files.cursor = .ok c → c ≤ outbox.size := by
  unfold save
  split
  · exact ⟨p.stored, s, rfl, Site.Beside.refl s, hd, hcursor⟩
  · obtain ⟨cursor', scratch, saved, hstore, hcase⟩ := s.store_cases p.committed
    rw [hstore]
    have hload : cursor' = s.logs.files.cursor ∨ Cursor.load cursor' = .ok p.committed :=
      hcase.imp_right fun h =>
        Cursor.load_store_of_inRange h (Nat.le_trans hp.committed_within hrange)
    refine ⟨if saved then p.committed else p.stored, s.withCursor cursor' scratch, ?_,
      ⟨rfl, rfl⟩, ?_, ?_⟩
    · cases saved <;> rfl
    · refine ⟨hd.journal, hd.received, ?_⟩
      show ∃ back, _ ∧ _ ∧ Cursor.load cursor' = _
      rcases hload with rfl | hload
      · exact hd.cursor
      · obtain ⟨back, hback, hclosed, hcommitted⟩ := hp.committed
        exact ⟨back, hback.trans hp.done, hclosed, by rw [hload, hcommitted]⟩
    · intro c hc
      change Cursor.load cursor' = _ at hc
      rcases hload with rfl | hload
      · exact hcursor c hc
      · rw [hload] at hc
        injection hc with hc
        rw [← hc]
        exact hp.committed_within

/-- A publisher that goes back to what it has committed. -/
theorem placed_committed (hp : Placed f done front outbox p) (stored : Nat) :
    ∃ back, Placed f done back outbox
      { p with stored, reader := none, offset := p.committed } := by
  obtain ⟨back, hback, hclosed, hcommitted⟩ := hp.committed
  exact ⟨back, hback.trans hp.done, hcommitted, hp.committed_within, back, List.prefix_refl _,
    hclosed, hcommitted⟩

/-- A turn leaves the publisher behind events that subscribers got. -/
theorem turn_delivered (maxPayload : Nat) (hreg : s.logs.files.outbox.isRegular)
    (hb : s.logs.files.outbox.bytes <+: Journal.eventBytes f es)
    (hrange : s.logs.files.outbox.size ≤ File.maxPosition) (hes : es.Pairwise Event.Before)
    (hd : Delivered f es done s.published s.logs.files.cursor)
    (hp : Placed f done front s.logs.files.outbox p)
    (hreader : ∀ r, p.reader = some r → r.StandsAt s.logs.files.outbox p.offset)
    (hcursor : ∀ c, Cursor.load s.logs.files.cursor = .ok c → c ≤ s.logs.files.outbox.size) :
    ∃ done' front' p' s' stops, turn Site.outlet f maxPayload p s = (p', s', stops) ∧
      s.Beside s' ∧ Delivered f es done' s'.published s'.logs.files.cursor ∧
      Placed f done' front' s.logs.files.outbox p' ∧
      (∀ r, p'.reader = some r → r.StandsAt s.logs.files.outbox p'.offset) ∧
      ∀ c, Cursor.load s'.logs.files.cursor = .ok c → c ≤ s.logs.files.outbox.size := by
  cases hopened : p.opened s.logs.files.outbox maxPayload with
  | error e =>
    rw [turn_of_unopened (o := Site.outlet) hopened]
    exact ⟨done, front, p, s, _, rfl, Site.Beside.refl s, hd, hp, hreader, hcursor⟩
  | ok r =>
    have hstands : r.StandsAt s.logs.files.outbox (Journal.eventBytes f front).length := by
      rw [← hp.offset]
      rcases Progress.opened_eq_ok_iff.1 hopened with hsome | ⟨-, hopen⟩
      · exact hreader r hsome
      · exact Log.Reader.standsAt_of_open? hp.within hopen
    obtain ⟨more, hchunk⟩ := readChunk_events hreg hb chunkSize (hp.done.trans hd.journal) hstands
    rcases hread : readChunk s.logs.files.outbox chunkSize r with ⟨r', records, ending⟩
    rw [hread] at hchunk
    obtain ⟨hrecords, hjournal, hwithin, hkeep⟩ := hchunk
    dsimp only at hrecords hkeep
    subst hrecords
    obtain ⟨done₁, front₁, p₁, s₁, handled, hrun, hbeside₁, hlogs₁, hd₁, hp₁, hfront₁⟩ :=
      forEach_handle hes hd hp hjournal hwithin
    have hcursor₁ : ∀ c, Cursor.load s₁.logs.files.cursor = .ok c →
        c ≤ s.logs.files.outbox.size := by
      rw [hlogs₁]
      exact hcursor
    obtain ⟨stored, s₂, hsave, hbeside₂, hd₂, hcursor₂⟩ := save_delivered hrange hd₁ hp₁ hcursor₁
    have hbeside := hbeside₁.trans hbeside₂
    rw [turn_of_opened (o := Site.outlet) hopened hread hrun hsave]
    obtain ⟨back, hback⟩ := placed_committed hp₁ stored
    have hnone : ∀ r, (none : Option Log.Reader) = some r →
        r.StandsAt s.logs.files.outbox p₁.committed := fun r hr => (by cases hr)
    cases handled with
    | error u => exact ⟨done₁, back, _, s₂, _, rfl, hbeside, hd₂, hback, hnone, hcursor₂⟩
    | ok _ =>
      cases ending with
      | more =>
        have hfront := hfront₁ rfl
        subst hfront
        refine ⟨done₁, front ++ more, _, s₂, _, rfl, hbeside, hd₂,
          ⟨hp₁.done, hp₁.offset, hp₁.within, hp₁.committed⟩, fun r hr => ?_, hcursor₂⟩
        injection hr with hr
        subst hr
        show r'.StandsAt _ p₁.offset
        rw [hp₁.offset]
        exact hkeep rfl
      | idle =>
        exact ⟨done₁, front₁, _, s₂, _, rfl, hbeside, hd₂,
          ⟨hp₁.done, hp₁.offset, hp₁.within, hp₁.committed⟩, fun r hr => (by cases hr), hcursor₂⟩
      | failed => exact ⟨done₁, back, _, s₂, _, rfl, hbeside, hd₂, hback, hnone, hcursor₂⟩

end Publisher

/-! ## A session's publisher -/

/-- Subscribers of a site got first events of the journal, and its publisher stands among them. -/
structure Site.Delivers (s : Site) (f : Format) (es : List Event) (done : List Event) : Prop where
  delivered : Delivered f es done s.published s.logs.files.cursor
  placed : ∀ p, s.progress = some p → ∃ front, Placed f done front s.logs.files.outbox p
  reader : ∀ p, s.progress = some p →
    ∀ r, p.reader = some r → r.StandsAt s.logs.files.outbox p.offset
  cursorWithin : ∀ c, Cursor.load s.logs.files.cursor = .ok c → c ≤ s.logs.files.outbox.size

/-- The outbox of a site is a file with a first part of a journal. -/
structure Site.Records (s : Site) (f : Format) (es : List Event) : Prop where
  ordered : es.Pairwise Event.Before
  regular : s.logs.files.outbox.isRegular
  journal : s.logs.files.outbox.bytes <+: Journal.eventBytes f es
  range : s.logs.files.outbox.size ≤ File.maxPosition

/-- Nothing changes for the subscribers when journal and outbox grow. -/
theorem Site.Delivers.grow {s s' : Site} {more : List Event} (h : s.Delivers f es done)
    (hes : es <+: more) (hout : s.logs.files.outbox.bytes <+: s'.logs.files.outbox.bytes)
    (hcursor : s'.logs.files.cursor = s.logs.files.cursor) (hprogress : s'.progress = s.progress)
    (hpublished : s'.published = s.published) : s'.Delivers f more done := by
  have hle := hout.length_le
  rw [File.length_bytes, File.length_bytes] at hle
  refine ⟨?_, ?_, ?_, ?_⟩
  · rw [hcursor, hpublished]
    exact h.delivered.mono hes
  · intro p hp
    rw [hprogress] at hp
    obtain ⟨front, hplaced⟩ := h.placed p hp
    exact ⟨front, hplaced.done, hplaced.offset, Nat.le_trans hplaced.within hle,
      hplaced.committed⟩
  · intro p hp r hr
    rw [hprogress] at hp
    exact (h.reader p hp r hr).grow hout
  · intro c hc
    rw [hcursor] at hc
    exact Nat.le_trans (h.cursorWithin c hc) hle

/-- The publisher begins at the stored cursor, which is within the outbox. -/
theorem Site.Delivers.start {s : Site} (h : s.Delivers f es done)
    {p : Publisher.Progress} {s' : Site} (hstart : Publisher.start outlet s = some (p, s')) :
    s' = s ∧ (∃ front, Placed f done front s.logs.files.outbox p) ∧ p.reader = none := by
  obtain ⟨back, hback, hclosed, hload⟩ := h.delivered.cursor
  have hwithin := h.cursorWithin _ hload
  rw [Publisher.start_within hload hwithin] at hstart
  cases hstart
  exact ⟨rfl, ⟨back, hback, rfl, hwithin, back, List.prefix_refl _, hclosed, rfl⟩, rfl⟩

/-- A turn of the publisher goes on with the delivery and touches nothing else. -/
theorem Site.Delivers.advance {s : Site} (h : s.Delivers f es done) (hr : s.Records f es)
    (t : Turn) : s.Beside (s.advance f t) ∧ ∃ done', (s.advance f t).Delivers f es done' := by
  unfold Site.advance
  split
  · split
    · exact ⟨Site.Beside.refl s, done, h⟩
    · next p s' hstart =>
      have hturn : ({ s with turn := t } : Site).Delivers f es done :=
        ⟨h.delivered, h.placed, h.reader, h.cursorWithin⟩
      obtain ⟨rfl, hplaced, hreader⟩ := hturn.start hstart
      refine ⟨⟨rfl, rfl⟩, done, h.delivered, ?_, ?_, h.cursorWithin⟩
      · intro p' hp'
        injection hp' with hp'
        subst hp'
        exact hplaced
      · intro p' hp' r hr'
        injection hp' with hp'
        subst hp'
        rw [hreader] at hr'
        cases hr'
  · next p hp =>
    obtain ⟨front, hplaced⟩ := h.placed p hp
    obtain ⟨done', front', p', s', stops, hrun, hbeside, hd, hplaced', hreader', hcursor⟩ :=
      Publisher.turn_delivered (s := { s with turn := t }) s.maxPayload hr.regular
        hr.journal hr.range hr.ordered h.delivered hplaced (h.reader p hp)
        h.cursorWithin
    rw [hrun]
    have hout : s'.logs.files.outbox = s.logs.files.outbox := hbeside.outbox
    refine ⟨⟨hbeside.logs, hbeside.kept⟩, done', hd, ?_, ?_, ?_⟩
    · intro q hq
      change (if stops then none else some p') = some q at hq
      split at hq
      · cases hq
      · injection hq with hq
        subst hq
        exact ⟨front', hout ▸ hplaced'⟩
    · intro q hq r hr'
      change (if stops then none else some p') = some q at hq
      split at hq
      · cases hq
      · injection hq with hq
        subst hq
        show r.StandsAt s'.logs.files.outbox _
        rw [hout]
        exact hreader' r hr'
    · intro c hc
      show c ≤ s'.logs.files.outbox.size
      rw [hout]
      exact hcursor c hc

end Bourse
