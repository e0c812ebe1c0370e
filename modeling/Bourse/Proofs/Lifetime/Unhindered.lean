import Bourse.Proofs.Lifetime.Publishing
import Bourse.Proofs.Recovery.Cutting

/-!
# A publisher that nothing hinders

When subscribers take every event and the cursor can be stored, a turn of the publisher delivers
all that the outbox holds, up to a chunk, and stores the end of it: `publish_all`.
-/

namespace Bourse

theorem File.obstacle?_of_regular {f : File} (h : f.isRegular) {offset : Nat}
    (hrange : offset ≤ maxPosition) : f.obstacle? offset = none := by
  cases f with
  | regular content => exact if_neg (Nat.not_lt.2 hrange)
  | _ => cases h

/-- A cursor can be replaced where there is none or a file. -/
theorem Cursor.store_of_usable {cursor : File} (h : cursor.Usable) (offset : Nat) :
    store cursor offset = .ok (.ofBytes (encode offset)) := by
  rcases h with rfl | h
  · rfl
  · cases cursor with
    | regular content => rfl
    | _ => cases h

/-- A cursor is replaced if its file and the scratch file can be written. -/
theorem SymbolFiles.storeCursor_of_usable {files : SymbolFiles} (hcursor : files.cursor.Usable)
    (hscratch : files.scratch.Usable) (offset : Nat) :
    files.storeCursor offset =
      ({ files with cursor := .ofBytes (Cursor.encode offset), scratch := .absent }, true) := by
  obtain ⟨scratch, hcreate, -⟩ := hscratch.create
  unfold storeCursor
  rw [hcreate, Cursor.store_of_usable hcursor]

/-- The site when subscribers have taken these events, and what they will do next. -/
def Site.having (s : Site) (es : List Event) (taken : List Bool) : Site :=
  { s with turn := { s.turn with taken }, published := s.published ++ es }

namespace Site

variable {s : Site} {taken : List Bool}

theorem having_nil (h : s.turn.taken = taken) : s.having [] taken = s := by
  subst h
  rw [having, List.append_nil]

theorem having_having (ds es : List Event) (taken' : List Bool) :
    (s.having ds taken).having es taken' = s.having (ds ++ es) taken' := by
  unfold having
  dsimp only
  rw [List.append_assoc]

theorem publish_taken (h : s.turn.taken = true :: taken) (e : Event) :
    outlet.publish s e = (s.having [e] taken, true) := by
  unfold outlet
  dsimp only
  rw [h]
  rfl

end Site

namespace Log.Reader

variable {r : Reader} {f : File} {offset : Nat}

/-- A reader that stands where a record has only begun finds nothing for now. -/
theorem StandsAt.next_begun (h : r.StandsAt f offset) (hf : f.isRegular) {ps : List Bytes}
    {tail : Bytes} (hend : f.bytes.drop offset = tail) (hbegun : Recovery.Begun ps tail)
    (hfits : ∀ p ∈ ps, Fits r.limit p) :
    ∃ r' result, r.next f = (r', result) ∧
      (result = .ok none ∨ ∃ e, result = .error e ∧ e.isTruncation = true) := by
  have hne := File.isDirectory_of_isRegular hf
  have htear (e : LogError) (he : e.isTruncation = true) (r : Reader) :
      (r.tear e).2 = .ok none ∨ ∃ e', (r.tear e).2 = .error e' ∧ e'.isTruncation = true := by
    unfold tear
    split
    · exact Or.inl rfl
    · exact Or.inr ⟨e, rfl, he⟩
  rw [next_eq r f (Source.obstacle?_eq_none hne h.position _), h.unread, hend]
  refine ⟨_, _, rfl, ?_⟩
  rcases hbegun with rfl | ⟨p, hp, k, hk, rfl⟩
  · exact Or.inl rfl
  · obtain ⟨hlimit, hmax⟩ := hfits p hp
    rw [Frame.parse_cut hlimit hmax hk]
    by_cases h0 : k = 0
    · rw [if_pos h0]
      exact Or.inl rfl
    · rw [if_neg h0]
      by_cases hhead : k < headerSize
      · rw [if_pos hhead]
        exact htear _ rfl _
      · rw [if_neg hhead]
        exact htear _ rfl _

end Log.Reader

namespace Publisher

open Recovery

variable {f : Format} {outbox : File} {front more : List Event} {r : Log.Reader} {s : Site}
  {p : Progress}

/-- A publisher that is to read has a reader, or opens one where it stands. -/
theorem exists_reader (maxPayload : Nat) (hreg : outbox.isRegular)
    (hwithin : p.offset ≤ outbox.size) (hrange : outbox.size ≤ File.maxPosition)
    (hreader : ∀ r, p.reader = some r →
      r.limit = ({ maxPayload } : Log.ReadOptions).limit ∧ r.StandsAt outbox p.offset) :
    ∃ r, p.opened outbox maxPayload = .ok r ∧
      r.limit = ({ maxPayload } : Log.ReadOptions).limit ∧ r.StandsAt outbox p.offset := by
  cases hnow : p.reader with
  | some r => exact ⟨r, Progress.opened_eq_ok_iff.2 (Or.inl hnow), hreader r hnow⟩
  | none =>
    obtain ⟨r, hopen, hlimit⟩ : ∃ r,
        Log.Reader.open? outbox p.offset { maxPayload, buffer := readBuffer } = .ok r ∧
          r.limit = ({ maxPayload } : Log.ReadOptions).limit := by
      rw [Log.Reader.open?, File.obstacle?_of_regular hreg (Nat.le_trans hwithin hrange)]
      exact ⟨_, rfl, rfl⟩
    exact ⟨r, Progress.opened_eq_ok_iff.2 (Or.inr ⟨hnow, hopen⟩), hlimit,
      Log.Reader.standsAt_of_open? hwithin hopen⟩

/-- A chunk has the next events, as many as it has room for. There is more to read then, unless it
has room for more than there are. -/
theorem readChunk_take (hreg : outbox.isRegular) {ps : List Bytes} {tail : Bytes}
    (hb : outbox.bytes = Journal.eventBytes f (front ++ more) ++ tail) (hbegun : Begun ps tail)
    (hps : ∀ p ∈ ps, Log.Fits r.limit p) (hfits : ∀ e ∈ more, (f.encodeEvent e).length ≤ r.limit)
    (h : r.StandsAt outbox (Journal.eventBytes f front).length) (n : Nat) :
    ∃ r', readChunk outbox n r = (r', eventRecords f (Journal.eventBytes f front).length
        (more.take n), if n ≤ more.length then .more else .idle) ∧
      (n ≤ more.length → r'.limit = r.limit ∧
        r'.StandsAt outbox (Journal.eventBytes f (front ++ more.take n)).length) := by
  induction n generalizing r front more with
  | zero =>
    refine ⟨r, ?_, fun _ => ⟨rfl, ?_⟩⟩
    · rw [if_pos (Nat.zero_le _)]
      rfl
    · rw [List.take_zero, List.append_nil]
      exact h
  | succ n ih =>
    have hdrop : outbox.bytes.drop (Journal.eventBytes f front).length =
        Journal.eventBytes f more ++ tail := by
      rw [hb, Journal.eventBytes_append, List.append_assoc, List.drop_left]
    cases more with
    | nil =>
      rw [Journal.eventBytes_nil, List.nil_append] at hdrop
      obtain ⟨r', result, hnext, hresult⟩ := h.next_begun hreg hdrop hbegun hps
      refine ⟨r', ?_, fun hn => absurd hn (Nat.not_succ_le_zero n)⟩
      rw [readChunk, hnext]
      rcases hresult with rfl | ⟨e, rfl, he⟩
      · rfl
      · dsimp only
        rw [he]
        rfl
    | cons e rest =>
      have hparse : Log.Frame.parse r.limit (outbox.bytes.drop (Journal.eventBytes f front).length) =
          .record (f.encodeEvent e) (Journal.eventBytes f rest ++ tail) := by
        rw [hdrop, Journal.eventBytes, List.map_cons, Log.frames_cons, List.append_assoc]
        exact Log.Frame.parse_frame (hfits e List.mem_cons_self) (f.length_encodeEvent_le e) _
      obtain ⟨r₁, hnext, hlimit, hstands⟩ := h.next_record hreg hparse
      rw [← length_eventBytes_concat] at hnext hstands
      have hsplit : front ++ e :: rest = (front ++ [e]) ++ rest := by simp
      rw [hsplit] at hb
      obtain ⟨r', hrest, hkeep⟩ := ih hb (hlimit ▸ hps)
        (fun d hd => hlimit ▸ hfits d (List.mem_cons_of_mem _ hd)) hstands
      refine ⟨r', ?_, ?_⟩
      · rw [readChunk, hnext]
        dsimp only
        rw [hrest, List.take_succ_cons, eventRecords_cons]
        simp only [List.length_cons, Nat.succ_le_succ_iff]
      · intro hn
        obtain ⟨hlimit', hstands'⟩ := hkeep (Nat.le_of_succ_le_succ hn)
        refine ⟨hlimit'.trans hlimit, ?_⟩
        rw [List.take_succ_cons, List.append_cons]
        exact hstands'

section Taking

variable {σ : Type}

/-- The bus takes these events one after the other. -/
def Outlet.Takes (o : Outlet σ) (s : σ) : List Event → σ → Prop
  | [], s' => s' = s
  | e :: rest, s' => ∃ s₁, o.publish s e = (s₁, true) ∧ o.Takes s₁ rest s'

/-- Every event is handed on, and the last end of a command is committed. -/
theorem forEach_taken {o : Outlet σ} {s s' : σ} (htaken : o.Takes s (Event.business more) s')
    (hp : p.offset = (Journal.eventBytes f front).length) :
    ∃ p', Attempt.forEach (handle o f) (p, s)
        (eventRecords f (Journal.eventBytes f front).length more) = ((p', s'), .ok ()) ∧
      p'.stored = p.stored ∧ p'.offset = (Journal.eventBytes f (front ++ more)).length ∧
      p'.committed = if Event.closedPart more = [] then p.committed
        else (Journal.eventBytes f (front ++ Event.closedPart more)).length := by
  induction more generalizing p s front with
  | nil =>
    obtain rfl : s' = s := htaken
    exact ⟨p, rfl, rfl, by rw [hp, List.append_nil], rfl⟩
  | cons e rest ih =>
    have hsplit (es : List Event) : front ++ e :: es = (front ++ [e]) ++ es := by simp
    have hdecode := f.decodeEvent_encodeEvent e
    rw [eventRecords_cons, Attempt.forEach_cons, hsplit rest]
    cases he : e.isCommandEnd with
    | true =>
      rw [Event.business_cons_of_end he] at htaken
      rw [handle_of_end hdecode he, Event.closedPart_cons_of_end he, if_neg (List.cons_ne_nil _ _)]
      obtain ⟨p', hrun, hstored, hoffset, hcommitted⟩ := ih
        (p := { p with
          committed := (Journal.eventBytes f (front ++ [e])).length
          offset := (Journal.eventBytes f (front ++ [e])).length }) htaken rfl
      refine ⟨p', hrun, hstored, hoffset, ?_⟩
      rw [hcommitted, hsplit (Event.closedPart rest)]
      split
      · next hnil => rw [hnil, List.append_nil]
      · rfl
    | false =>
      rw [Event.business_cons_of_not_end he] at htaken
      obtain ⟨s₁, hpublish, hrest⟩ := htaken
      rw [handle_of_taken hdecode he hpublish, Event.closedPart_cons_of_not_end he]
      obtain ⟨p', hrun, hstored, hoffset, hcommitted⟩ := ih
        (p := { p with offset := (Journal.eventBytes f (front ++ [e])).length }) hrest rfl
      refine ⟨p', hrun, hstored, hoffset, ?_⟩
      rw [hcommitted]
      by_cases hnil : Event.closedPart rest = []
      · rw [if_pos hnil, if_pos hnil, if_pos rfl]
      · rw [if_neg hnil, if_neg hnil, if_neg (List.cons_ne_nil _ _),
          hsplit (Event.closedPart rest)]

end Taking

/-- Subscribers that will take so many events take these. -/
theorem takes_having {taken : List Bool} {es : List Event}
    (h : s.turn.taken = List.replicate es.length true ++ taken) :
    Site.outlet.Takes s es (s.having es taken) := by
  induction es generalizing s with
  | nil => exact Site.having_nil h
  | cons e rest ih =>
    rw [List.length_cons, List.replicate_succ, List.cons_append] at h
    refine ⟨_, Site.publish_taken h e, ?_⟩
    have hrest := ih (s := s.having [e] (List.replicate rest.length true ++ taken)) rfl
    rwa [Site.having_having] at hrest

/-- A committed offset that is not stored yet is stored. -/
theorem save_done (hnew : ¬ p.committed = p.stored) (hrange : p.committed ≤ File.maxPosition)
    (hcursor : s.logs.files.cursor.Usable) (hscratch : s.logs.files.scratch.Usable)
    (hdone : s.turn.stored = .done) :
    ∃ cursor, save Site.outlet p s =
        ({ p with stored := p.committed }, s.withCursor cursor .absent) ∧
      Cursor.load cursor = .ok p.committed := by
  refine ⟨.ofBytes (Cursor.encode p.committed), ?_,
    Cursor.load_store_of_inRange (Cursor.store_of_usable hcursor p.committed) hrange⟩
  rw [save, if_neg hnew]
  unfold Site.outlet
  dsimp only
  rw [SymbolFiles.storeCursor_of_usable hcursor hscratch, hdone]
  rfl

/-- One turn delivers all events that are left, if they are no more than a chunk. -/
theorem turn_all (maxPayload : Nat) (hreg : s.logs.files.outbox.isRegular)
    (hb : s.logs.files.outbox.bytes = Journal.eventBytes f (front ++ more))
    (hrange : s.logs.files.outbox.size ≤ File.maxPosition)
    (hfits : ∀ e ∈ more, (f.encodeEvent e).length ≤ (readOptions maxPayload).limit)
    (hlen : more.length < chunkSize) {last : Event} (hlast : more.getLast? = some last)
    (hend : last.isCommandEnd = true) (hp : p.offset = (Journal.eventBytes f front).length)
    (hreader : p.reader = none) (hstored : p.stored = p.offset)
    (hcursor : s.logs.files.cursor.Usable) (hscratch : s.logs.files.scratch.Usable)
    (htaken : s.turn.taken = List.replicate (Event.business more).length true)
    (hdone : s.turn.stored = .done) :
    ∃ p' cursor scratch, turn Site.outlet f maxPayload p s = (p',
        (s.having (Event.business more) []).withCursor cursor scratch, s.turn.asked) ∧
      Cursor.load cursor = .ok (Journal.eventBytes f (front ++ more)).length := by
  have hsize : s.logs.files.outbox.size = (Journal.eventBytes f (front ++ more)).length := by
    rw [← File.length_bytes, hb]
  have hwithin : (Journal.eventBytes f front).length ≤ s.logs.files.outbox.size := by
    rw [hsize]
    exact length_eventBytes_le (List.prefix_append ..)
  -- The reader opens where the publisher stands,
  obtain ⟨r, hopened, hlimit, hstands⟩ := exists_reader maxPayload hreg
    (hp ▸ hwithin) hrange (fun r hr => by rw [hreader] at hr; cases hr)
  rw [hp] at hstands
  have hb' : s.logs.files.outbox.bytes = Journal.eventBytes f (front ++ more) ++ [] := by
    rw [List.append_nil, hb]
  obtain ⟨r', hread, -⟩ := readChunk_take hreg hb' (begun_nil []) (fun q hq => (by cases hq))
    (hlimit ▸ hfits) hstands chunkSize
  rw [List.take_of_length_le (Nat.le_of_lt hlen), if_neg (Nat.not_le.2 hlen)] at hread
  -- every event is taken,
  have htaken' : s.turn.taken = List.replicate (Event.business more).length true ++ [] := by
    rw [List.append_nil]
    exact htaken
  obtain ⟨p', hrun, hstored', hoffset, hcommitted⟩ := forEach_taken (takes_having htaken') hp
  have hcommitted' : p'.committed = (Journal.eventBytes f (front ++ more)).length := by
    obtain ⟨init, rfl⟩ := List.getLast?_eq_some_iff.1 hlast
    rw [hcommitted, Event.closedPart_concat_of_end hend, if_neg (by simp)]
  -- and the end of the last command is stored, because it was not before.
  have hnew : ¬ p'.committed = p'.stored := by
    obtain ⟨init, rfl⟩ := List.getLast?_eq_some_iff.1 hlast
    have hle := length_eventBytes_le (f := f) (List.prefix_append front init)
    rw [hcommitted', hstored', hstored, hp, ← List.append_assoc, length_eventBytes_concat,
      Log.headerSize]
    omega
  have hwithin' : p'.committed ≤ File.maxPosition := by
    rw [hcommitted', ← hsize]
    exact hrange
  obtain ⟨cursor, hsave, hload⟩ := save_done (s := s.having (Event.business more) []) hnew hwithin'
    hcursor hscratch hdone
  refine ⟨{ p' with stored := p'.committed, reader := none }, cursor, .absent, ?_, ?_⟩
  · rw [turn_of_opened hopened hread hrun hsave]
    rfl
  · rw [hload, hcommitted']

end Publisher

/-- A publisher that has yet to begin delivers in its first two turns all events behind the stored
cursor, if they are no more than a chunk. -/
theorem Site.publish_all {s : Site} {f : Format} (front more : List Event)
    (hprogress : s.progress = none)
    (hload : Cursor.load s.logs.files.cursor = .ok (Journal.eventBytes f front).length)
    (hreg : s.logs.files.outbox.isRegular)
    (hb : s.logs.files.outbox.bytes = Journal.eventBytes f (front ++ more))
    (hrange : s.logs.files.outbox.size ≤ File.maxPosition)
    (hfits : ∀ e ∈ more, (f.encodeEvent e).length ≤ (Recovery.readOptions s.maxPayload).limit)
    (hlen : more.length < Publisher.chunkSize) {last : Event} (hlast : more.getLast? = some last)
    (hend : last.isCommandEnd = true) (hcursor : s.logs.files.cursor.Usable)
    (hscratch : s.logs.files.scratch.Usable) :
    ∃ s', (s.advance f {}).advance f
        { taken := List.replicate (Event.business more).length true } = s' ∧ s.Beside s' ∧
      s'.published = s.published ++ Event.business more ∧
      Cursor.load s'.logs.files.cursor = .ok (Journal.eventBytes f (front ++ more)).length := by
  have hwithin : (Journal.eventBytes f front).length ≤ s.logs.files.outbox.size := by
    rw [← File.length_bytes, hb]
    exact Publisher.length_eventBytes_le (List.prefix_append ..)
  let p : Publisher.Progress :=
    { committed := (Journal.eventBytes f front).length
      stored := (Journal.eventBytes f front).length
      offset := (Journal.eventBytes f front).length }
  have hstart : s.advance f {} = { s with turn := {}, progress := some p } := by
    have hstarted := Publisher.start_within (o := outlet) (s := { s with turn := {} }) hload hwithin
    unfold advance
    rw [hprogress] at hstarted ⊢
    dsimp only
    rw [hstarted]
  obtain ⟨p', cursor, scratch, hturn, hstored⟩ := Publisher.turn_all
    (s := { s with
      turn := { taken := List.replicate (Event.business more).length true }, progress := some p })
    (p := p) s.maxPayload hreg hb hrange hfits hlen hlast hend rfl rfl rfl hcursor
    hscratch rfl rfl
  refine ⟨_, rfl, ?_⟩
  rw [hstart]
  unfold advance
  dsimp only
  rw [hturn]
  exact ⟨⟨rfl, rfl⟩, rfl, hstored⟩

end Bourse
