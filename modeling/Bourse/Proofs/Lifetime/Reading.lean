import Bourse.Outbox.Publisher
import Bourse.Proofs.Lifetime.Keys

/-!
# Reading an outbox that grows

A publisher reads an outbox to which the actor adds. As long as the outbox holds a first part of a
journal, whichever, the records that the reader finds are those of the journal, in order.
-/

namespace Bourse

/-! ## Reading a log that grows -/

namespace Log

/-- A record at the beginning of a first part of a log is the first record of the log. -/
theorem Frame.parse_prefix {limit : Nat} {ps : List Bytes} {b p rest : Bytes}
    (hm : ∀ q ∈ ps, q.length ≤ maxLength) (hb : b <+: frames ps)
    (h : parse limit b = .record p rest) : ∃ more, ps = p :: more ∧ rest <+: frames more := by
  obtain ⟨hlen, hrest⟩ := rest_of_parse h
  cases ps with
  | nil =>
    rw [List.prefix_nil.1 hb, List.length_nil, headerSize] at hlen
    omega
  | cons q more =>
    have hq : q.length ≤ maxLength := hm q List.mem_cons_self
    rw [frames_cons] at hb
    have hhead : b.take headerSize = (frame q).take headerSize := by
      obtain ⟨tail, htail⟩ := hb
      have := congrArg (List.take headerSize) htail
      rwa [List.take_append_of_le_length (by omega),
        List.take_append_of_le_length (by rw [length_frame]; omega)] at this
    by_cases hl : q.length ≤ limit
    · rcases prefix_append_cases hb with ⟨hcut, hlt⟩ | ⟨b', rfl, hb'⟩
      · -- Less than a record is no record.
        rw [List.prefix_iff_eq_take.1 hcut, parse_cut hl hq hlt] at h
        split at h
        · cases h
        · split at h <;> cases h
      · rw [parse_frame hl hq] at h
        injection h with hp hnext
        exact ⟨more, by rw [hp], hnext ▸ hb'⟩
    · rw [parse_oversized (Nat.lt_of_not_le hl) hq (by omega) hhead] at h
      cases h

theorem Source.position_skip_le {s : Source} {f : File} (h : s.position ≤ f.size) (n : Nat) :
    (s.skip f n).position ≤ f.size := by
  unfold skip
  dsimp only
  split
  · exact h
  · show s.position + min _ (f.size - s.position) ≤ f.size
    omega

namespace Reader

/-- The reader will hand out what the file holds from an offset on. -/
structure StandsAt (r : Reader) (f : File) (offset : Nat) : Prop where
  here : r.offset = offset
  within : offset ≤ f.size
  position : r.source.position ≤ f.size
  unread : r.source.unread f = f.bytes.drop offset

/-- A reader stays where it is when the file grows. -/
theorem StandsAt.grow {r : Reader} {f g : File} {offset : Nat} (h : r.StandsAt f offset)
    (hg : f.bytes <+: g.bytes) : r.StandsAt g offset := by
  have hlen := hg.length_le
  rw [File.length_bytes, File.length_bytes] at hlen
  obtain ⟨more, hmore⟩ := hg
  refine ⟨h.here, Nat.le_trans h.within hlen, Nat.le_trans h.position hlen, ?_⟩
  have hunread := h.unread
  have hwithin := h.within
  have hposition := h.position
  rw [← File.length_bytes] at hwithin hposition
  rw [Source.unread] at hunread ⊢
  rw [← hmore, List.drop_append_of_le_length hwithin, List.drop_append_of_le_length hposition,
    ← List.append_assoc, hunread]

theorem standsAt_of_open? {f : File} {offset : Nat} {o : ReadOptions} {r : Reader}
    (hoffset : offset ≤ f.size) (h : open? f offset o = .ok r) : r.StandsAt f offset := by
  unfold open? at h
  split at h
  · cases h
  · injection h with h
    subst h
    exact ⟨rfl, hoffset, hoffset, rfl⟩

/-- A record that a reader finds stands where the reader does. -/
theorem StandsAt.next {r r' : Reader} {f : File} {offset : Nat} {found : Record}
    (h : r.StandsAt f offset) (hf : f.isRegular) (hnext : r.next f = (r', .ok (some found))) :
    ∃ rest, Frame.parse r.limit (f.bytes.drop offset) = .record found.payload rest ∧
      found.stop = offset + headerSize + found.payload.length ∧ r'.StandsAt f found.stop := by
  have hne := File.isDirectory_of_isRegular hf
  rw [next_eq r f (Source.obstacle?_eq_none hne h.position _), h.unread] at hnext
  cases hparse : Frame.parse r.limit (f.bytes.drop offset) with
  | record payload rest =>
    rw [hparse] at hnext
    obtain ⟨hr, hfound⟩ := Prod.mk.inj hnext
    injection hfound with hfound
    injection hfound with hfound
    subst hfound
    obtain ⟨hlen, -⟩ := Frame.rest_of_parse hparse
    rw [List.length_drop, File.length_bytes] at hlen
    refine ⟨rest, rfl, by rw [h.here], ?_⟩
    have hunread := h.unread
    subst hr
    refine ⟨rfl, ?_, ?_, ?_⟩
    · show r.offset + headerSize + payload.length ≤ f.size
      rw [h.here]
      simp only [headerSize] at hlen ⊢
      omega
    · exact Source.position_skip_le (Source.position_skip_le h.position _) _
    · show Source.unread ((r.source.skip f headerSize).skip f payload.length) f = _
      rw [Source.unread_skip, Source.unread_skip, hunread, List.drop_drop, List.drop_drop,
        h.here, Nat.add_assoc]
  | shortHeader =>
    rw [hparse] at hnext
    unfold after tear at hnext
    dsimp only at hnext
    split at hnext <;> cases (Prod.mk.inj hnext).2
  | shortPayload =>
    rw [hparse] at hnext
    unfold after tear at hnext
    dsimp only at hnext
    split at hnext <;> cases (Prod.mk.inj hnext).2
  | _ =>
    rw [hparse] at hnext
    cases (Prod.mk.inj hnext).2

/-- A reader that stands before a record hands it out. -/
theorem StandsAt.next_record {r : Reader} {f : File} {offset : Nat} (h : r.StandsAt f offset)
    (hf : f.isRegular) {p rest : Bytes}
    (hparse : Frame.parse r.limit (f.bytes.drop offset) = .record p rest) :
    ∃ r', r.next f = (r', .ok (some ⟨p, offset + headerSize + p.length⟩)) ∧ r'.limit = r.limit ∧
      r'.StandsAt f (offset + headerSize + p.length) := by
  have hne := File.isDirectory_of_isRegular hf
  have hnext : ∃ r', r.next f = (r', .ok (some ⟨p, offset + headerSize + p.length⟩)) ∧
      r'.limit = r.limit := by
    rw [next_eq r f (Source.obstacle?_eq_none hne h.position _), h.unread, hparse, ← h.here]
    exact ⟨_, rfl, rfl⟩
  obtain ⟨r', hnext, hlimit⟩ := hnext
  obtain ⟨-, -, -, hstands⟩ := h.next hf hnext
  exact ⟨r', hnext, hlimit, hstands⟩

end Reader

end Log

namespace Publisher

open Recovery

/-! ## Turns -/

section Turn

variable {σ : Type} {o : Outlet σ} {f : Format} {maxPayload : Nat} {p : Progress} {s : σ}

/-- A publisher reads on with the reader that it has, or opens the outbox where it stands. -/
def Progress.opened (p : Progress) (outbox : File) (maxPayload : Nat) :
    Except LogError Log.Reader :=
  match p.reader with
  | some r => .ok r
  | none => Log.Reader.open? outbox p.offset { maxPayload, buffer := readBuffer }

theorem Progress.opened_eq_ok_iff {outbox : File} {r : Log.Reader} :
    p.opened outbox maxPayload = .ok r ↔ p.reader = some r ∨ p.reader = none ∧
      Log.Reader.open? outbox p.offset { maxPayload, buffer := readBuffer } = .ok r := by
  unfold opened
  cases p.reader <;> simp

/-- Where dealing with a chunk leaves the publisher, and whether it stops then. -/
def Progress.turned (p : Progress) (r : Log.Reader) (asked : Bool) :
    Except Unit Unit → ChunkEnd → Progress × Bool
  | .ok (), .more => ({ p with reader := some r }, false)
  | .ok (), .idle => ({ p with reader := none }, asked)
  | _, _ => ({ p with reader := none, offset := p.committed }, asked)

/-- What a turn with a reader comes to. -/
theorem turn_of_opened {r r' : Log.Reader} {records : List Log.Record} {ending : ChunkEnd}
    {handled : Except Unit Unit} {p₁ p₂ : Progress} {s₁ s₂ : σ}
    (hopened : p.opened (o.outbox s) maxPayload = .ok r)
    (hread : readChunk (o.outbox s) chunkSize r = (r', records, ending))
    (hrun : Attempt.forEach (handle o f) (p, s) records = ((p₁, s₁), handled))
    (hsave : save o p₁ s₁ = (p₂, s₂)) :
    turn o f maxPayload p s =
      ((p₂.turned r' (o.cancelled s) handled ending).1, s₂,
        (p₂.turned r' (o.cancelled s) handled ending).2) := by
  rcases Progress.opened_eq_ok_iff.1 hopened with hsome | ⟨hnone, hopen⟩
  · simp only [turn, hsome, hread, hrun, hsave]
    cases handled <;> cases ending <;> rfl
  · simp only [turn, hnone, hopen, hread, hrun, hsave]
    cases handled <;> cases ending <;> rfl

/-- A turn without a reader comes to nothing. -/
theorem turn_of_unopened {e : LogError} (hopened : p.opened (o.outbox s) maxPayload = .error e) :
    turn o f maxPayload p s = (p, s, o.cancelled s) := by
  unfold Progress.opened at hopened
  cases hreader : p.reader with
  | some r =>
    rw [hreader] at hopened
    cases hopened
  | none =>
    rw [hreader] at hopened
    simp only [turn, hreader, hopened]

end Turn

/-! ## Reading an outbox -/

/-- A publisher begins at the stored cursor, if the outbox is as long as that. -/
theorem start_within {σ : Type} {o : Outlet σ} {s : σ} {offset : Nat}
    (hload : Cursor.load (o.cursor s) = .ok offset) (hwithin : offset ≤ (o.outbox s).size) :
    start o s = some ({ committed := offset, stored := offset, offset }, s) := by
  have hlength : offset ≤ (o.outbox s).length?.getD offset := by
    cases hfile : o.outbox s with
    | absent => exact Nat.le_refl _
    | unnameable => exact Nat.le_refl _
    | directory =>
      rw [hfile] at hwithin
      exact Nat.le_trans hwithin (Nat.zero_le _)
    | regular content =>
      rw [hfile] at hwithin
      exact hwithin
  unfold start
  rw [hload]
  dsimp only
  rw [Nat.min_eq_left hlength, if_neg (Nat.lt_irrefl _)]

theorem length_eventBytes_le {f : Format} {ds es : List Event} (h : ds <+: es) :
    (Journal.eventBytes f ds).length ≤ (Journal.eventBytes f es).length := by
  obtain ⟨more, rfl⟩ := h
  rw [Journal.eventBytes_append, List.length_append]
  exact Nat.le_add_right ..

theorem length_eventBytes_concat (f : Format) (front : List Event) (e : Event) :
    (Journal.eventBytes f (front ++ [e])).length =
      (Journal.eventBytes f front).length + Log.headerSize + (f.encodeEvent e).length := by
  rw [Journal.eventBytes_append, List.length_append, Journal.eventBytes, Journal.eventBytes]
  simp only [List.map_cons, List.map_nil, Log.frames_cons, Log.frames_nil, List.append_nil,
    Log.length_frame]
  omega

theorem eventRecords_cons (f : Format) (front : List Event) (e : Event) (rest : List Event) :
    eventRecords f (Journal.eventBytes f front).length (e :: rest) =
      ⟨f.encodeEvent e, (Journal.eventBytes f (front ++ [e])).length⟩ ::
        eventRecords f (Journal.eventBytes f (front ++ [e])).length rest := by
  rw [length_eventBytes_concat]
  rfl

/-- What reading a chunk behind the events of `front` comes to: the next events of the journal, and
a reader that, if it is kept, stands behind them. -/
structure ReadsOn (f : Format) (outbox : File) (es front more : List Event)
    (chunk : Log.Reader × List Log.Record × ChunkEnd) : Prop where
  records : chunk.2.1 = eventRecords f (Journal.eventBytes f front).length more
  journal : front ++ more <+: es
  within : (Journal.eventBytes f (front ++ more)).length ≤ outbox.size
  reader : chunk.2.2 = .more →
    chunk.1.StandsAt outbox (Journal.eventBytes f (front ++ more)).length

variable {f : Format} {outbox : File} {es front : List Event} {r : Log.Reader}

theorem readsOn_nil (hfront : front <+: es)
    (h : r.StandsAt outbox (Journal.eventBytes f front).length) (r' : Log.Reader)
    (ending : ChunkEnd) (hend : ending = .more → r' = r) :
    ReadsOn f outbox es front [] (r', [], ending) where
  records := rfl
  journal := by rwa [List.append_nil]
  within := by
    rw [List.append_nil]
    exact h.within
  reader hm := by
    rw [List.append_nil, hend hm]
    exact h

/-- Whatever part of the journal an outbox holds, a chunk has its next events. -/
theorem readChunk_events (hreg : outbox.isRegular) (hb : outbox.bytes <+: Journal.eventBytes f es)
    (n : Nat) (hfront : front <+: es)
    (h : r.StandsAt outbox (Journal.eventBytes f front).length) :
    ∃ more, ReadsOn f outbox es front more (readChunk outbox n r) := by
  induction n generalizing r front with
  | zero => exact ⟨[], readsOn_nil hfront h r .more fun _ => rfl⟩
  | succ n ih =>
    rw [readChunk]
    rcases hnext : r.next outbox with ⟨r₁, e | found⟩
    · refine ⟨[], readsOn_nil hfront h r₁ _ fun hm => ?_⟩
      split at hm <;> cases hm
    · cases found with
      | none => exact ⟨[], readsOn_nil hfront h r₁ .idle fun hm => (by cases hm)⟩
      | some found =>
        obtain ⟨rest, hparse, hstop, hstands⟩ := h.next hreg hnext
        obtain ⟨tail, rfl⟩ := hfront
        -- What the reader stands before are the events after `front`.
        have hdrop : outbox.bytes.drop (Journal.eventBytes f front).length <+:
            Log.frames (tail.map f.encodeEvent) := by
          obtain ⟨cut, hcut⟩ := hb
          have hwithin := h.within
          rw [← File.length_bytes] at hwithin
          refine ⟨cut, ?_⟩
          rw [← List.drop_append_of_le_length hwithin, hcut, Journal.eventBytes_append,
            List.drop_left]
          rfl
        obtain ⟨_, hmore, -⟩ := Log.Frame.parse_prefix (by
          intro q hq
          obtain ⟨e, -, rfl⟩ := List.mem_map.1 hq
          exact f.length_encodeEvent_le e) hdrop hparse
        obtain ⟨e, tail', rfl, hpayload, -⟩ := List.map_eq_cons_iff.1 hmore
        rw [← hpayload] at hstop
        have hlen : found.stop = (Journal.eventBytes f (front ++ [e])).length := by
          rw [hstop, length_eventBytes_concat]
        rw [hlen] at hstands
        have hprefix : front ++ [e] <+: front ++ e :: tail' :=
          (List.prefix_append_right_inj front).2 ⟨tail', rfl⟩
        obtain ⟨more, hrecords, hjournal, hwithin, hreader⟩ := ih hprefix hstands
        rw [List.append_assoc] at hjournal hwithin hreader
        refine ⟨e :: more, ?_, hjournal, hwithin, hreader⟩
        show found :: (readChunk outbox n r₁).2.1 = _
        rw [hrecords, ← hlen, hstop]
        obtain ⟨payload, stop⟩ := found
        dsimp only at hpayload hstop
        rw [hstop, ← hpayload]
        rfl

end Publisher

end Bourse
