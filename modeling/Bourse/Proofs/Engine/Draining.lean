import Bourse.Proofs.Engine.Sessions
import Bourse.Proofs.Lifetime.Unhindered

/-!
# Publishers whose bus takes everything

A publisher that loses no event on the bus `Stands` behind the events that it has handed on. Every
turn moves it on by the next ones, at most a chunk of them, however much of the outbox it sees
(`advance_stands`); when it is asked to stop it hands on all that are left (`run_stands`). The cursor
follows it, provided that it can be stored: the name of its scratch file can be too long for that, and
then the cursor stays where it was before the first session.
-/

namespace Bourse

open Recovery

/-! ## The stored cursor -/

/-- The cursor of a symbol is stored at an offset, unless it cannot be stored. -/
inductive SymbolFiles.Marks (files : SymbolFiles) (offset : Nat) : (lasting : Bool) → Prop where
  | unset (scratch : files.scratch = .absent) (cursor : files.cursor = .absent)
      (start : offset = 0) : Marks files offset true
  | stored (scratch : files.scratch = .absent)
      (cursor : files.cursor = .ofBytes (Cursor.encode offset)) : Marks files offset true
  | unstorable (scratch : files.scratch = .unnameable) (cursor : files.cursor = .absent) :
      Marks files offset false

namespace SymbolFiles

variable {files : SymbolFiles} {offset : Nat} {lasting : Bool}

/-- Where a publisher begins. -/
theorem Marks.load (h : files.Marks offset lasting) (hrange : offset ≤ File.maxPosition) :
    Cursor.load files.cursor = .ok (if lasting then offset else 0) := by
  cases h with
  | unset _ hcursor hstart =>
    rw [hcursor, hstart]
    rfl
  | stored _ hcursor =>
    have hstore : Cursor.store .absent offset = .ok files.cursor := by
      rw [hcursor]
      rfl
    exact Cursor.load_store_of_inRange hstore hrange
  | unstorable _ hcursor =>
    rw [hcursor]
    rfl

theorem Marks.store (h : files.Marks offset lasting) (next : Nat) :
    ∃ files', files.storeCursor next = (files', lasting) ∧
      files'.Marks (if lasting then next else offset) lasting ∧ files'.log = files.log ∧
      files'.outbox = files.outbox := by
  unfold storeCursor
  cases h with
  | unset hscratch hcursor _ =>
    rw [hscratch, hcursor]
    exact ⟨_, rfl, .stored rfl rfl, rfl, rfl⟩
  | stored hscratch hcursor =>
    rw [hscratch, hcursor]
    exact ⟨_, rfl, .stored rfl rfl, rfl, rfl⟩
  | unstorable hscratch hcursor =>
    rw [hscratch]
    exact ⟨files, rfl, .unstorable hscratch hcursor, rfl, rfl⟩

/-- Only the cursor and its scratch file matter. -/
theorem Marks.congr {files' : SymbolFiles} (h : files.Marks offset lasting)
    (hcursor : files'.cursor = files.cursor) (hscratch : files'.scratch = files.scratch) :
    files'.Marks offset lasting := by
  cases h with
  | unset hs hc hstart => exact .unset (hscratch.trans hs) (hcursor.trans hc) hstart
  | stored hs hc => exact .stored (hscratch.trans hs) (hcursor.trans hc)
  | unstorable hs hc => exact .unstorable (hscratch.trans hs) (hcursor.trans hc)

end SymbolFiles

/-! ## Seeing less of a file -/

/-- A reader that has fetched nothing beyond the first `n` bytes of a file stands in the file that
ends there as well. -/
theorem Log.Reader.StandsAt.truncate {r : Reader} {f : File} {offset n : Nat}
    (h : r.StandsAt f offset) (hoffset : offset ≤ n) (hposition : r.source.position ≤ n) :
    r.StandsAt (f.truncate n) offset := by
  have hsize : (f.truncate n).size = min n f.size := by
    rw [← File.length_bytes, File.bytes_truncate, List.length_take, File.length_bytes]
  have hunread := h.unread
  rw [Source.unread] at hunread
  have hlen := congrArg List.length hunread
  rw [List.length_append, List.length_drop, List.length_drop, File.length_bytes] at hlen
  have hwithin := h.within
  have hpos := h.position
  refine ⟨h.here, by omega, by omega, ?_⟩
  rw [Source.unread, File.bytes_truncate, List.drop_take, List.drop_take, ← hunread,
    List.take_append, List.take_of_length_le (l := r.source.ahead) (by omega)]
  congr 2
  omega

namespace Publisher

variable {f : Format} {front more es : List Event} {p : Progress} {d : Drain} {lasting : Bool}
  {maxPayload : Nat} {files : SymbolFiles}

/-! ## Where a publisher stands -/

/-- A publisher has handed on the events of `front`, which are the first of an outbox, and it has
committed those of closed commands. -/
structure Progress.Stands (p : Progress) (f : Format) (maxPayload : Nat) (lasting : Bool)
    (files : SymbolFiles) (front : List Event) : Prop where
  offset : p.offset = (Journal.eventBytes f front).length
  committed : p.committed = (Journal.eventBytes f (Event.closedPart front)).length
  stored : lasting = true → p.stored = p.committed
  marks : files.Marks p.stored lasting
  reader : ∀ r, p.reader = some r →
    r.limit = (readOptions maxPayload).limit ∧ r.StandsAt files.outbox p.offset

theorem Progress.Stands.marks_closed (h : p.Stands f maxPayload lasting files front) :
    files.Marks (Journal.eventBytes f (Event.closedPart front)).length lasting := by
  have hmarks := h.marks
  cases lasting with
  | true => rwa [h.stored rfl, h.committed] at hmarks
  | false =>
    cases hmarks with
    | unstorable hscratch hcursor => exact .unstorable hscratch hcursor

/-- A publisher stays where it is when the outbox grows. -/
theorem Progress.Stands.grow {files' : SymbolFiles}
    (h : p.Stands f maxPayload lasting files front)
    (hout : files.outbox.bytes <+: files'.outbox.bytes) (hcursor : files'.cursor = files.cursor)
    (hscratch : files'.scratch = files.scratch) : p.Stands f maxPayload lasting files' front where
  offset := h.offset
  committed := h.committed
  stored := h.stored
  marks := h.marks.congr hcursor hscratch
  reader r hr := ⟨(h.reader r hr).1, (h.reader r hr).2.grow hout⟩

/-- A publisher begins behind the closed commands, if the cursor could be stored there. -/
theorem start_stands (hclosed : Event.closedPart front = front)
    (hmarks : files.Marks (Journal.eventBytes f front).length lasting)
    (hwithin : (Journal.eventBytes f front).length ≤ files.outbox.size)
    (hrange : files.outbox.size ≤ File.maxPosition) (maxPayload : Nat) :
    ∃ p, start Drain.outlet ({ files } : Drain) = some (p, { files }) ∧
      p.Stands f maxPayload lasting files (if lasting then front else []) := by
  have hload := hmarks.load (Nat.le_trans hwithin hrange)
  have hle : (if lasting then (Journal.eventBytes f front).length else 0) ≤ files.outbox.size := by
    split
    · exact hwithin
    · exact Nat.zero_le _
  refine ⟨_, start_within hload hle, ?_⟩
  cases lasting with
  | true =>
    refine ⟨rfl, ?_, fun _ => rfl, hmarks, fun r hr => (by cases hr)⟩
    show (Journal.eventBytes f front).length = (Journal.eventBytes f (Event.closedPart front)).length
    rw [hclosed]
  | false =>
    refine ⟨rfl, rfl, fun h => (by cases h), ?_, fun r hr => (by cases hr)⟩
    cases hmarks with
    | unstorable hscratch hcursor => exact .unstorable hscratch hcursor

/-! ## A turn -/

theorem takes_drain (d : Drain) (es : List Event) :
    Drain.outlet.Takes d es { d with published := es.reverse ++ d.published } := by
  induction es generalizing d with
  | nil => rfl
  | cons e rest ih =>
    refine ⟨{ d with published := e :: d.published }, rfl, ?_⟩
    have hrest := ih { d with published := e :: d.published }
    rwa [List.reverse_cons, List.append_assoc]

/-- After a turn the cursor is stored where the publisher has committed, if it can be stored. -/
theorem save_marks (hmarks : d.files.Marks p.stored lasting) :
    ∃ stored files', save Drain.outlet p d = ({ p with stored }, { d with files := files' }) ∧
      (lasting = true → stored = p.committed) ∧ files'.Marks stored lasting ∧
      files'.log = d.files.log ∧ files'.outbox = d.files.outbox := by
  unfold save
  split
  · next h => exact ⟨p.stored, d.files, rfl, fun _ => h.symm, hmarks, rfl, rfl⟩
  · obtain ⟨files', hstore, hmarks', hlog, hout⟩ := hmarks.store p.committed
    have hstore' : Drain.outlet.store d p.committed = ({ d with files := files' }, lasting) := by
      unfold Drain.outlet
      dsimp only
      rw [hstore]
    rw [hstore']
    cases lasting with
    | true => exact ⟨p.committed, files', rfl, fun _ => rfl, hmarks', hlog, hout⟩
    | false => exact ⟨p.stored, files', rfl, fun h => (by cases h), hmarks', hlog, hout⟩

/-- One turn hands on the next events, at most a chunk. The publisher is ready to stop when there
were fewer. -/
theorem turn_stands (h : p.Stands f maxPayload lasting d.files front)
    (hreg : d.files.outbox.isRegular) {ps : List Bytes} {tail : Bytes}
    (hb : d.files.outbox.bytes = Journal.eventBytes f (front ++ more) ++ tail)
    (hbegun : Begun ps tail) (hps : ∀ q ∈ ps, Log.Fits (readOptions maxPayload).limit q)
    (hfits : ∀ e ∈ more, (f.encodeEvent e).length ≤ (readOptions maxPayload).limit)
    (hrange : d.files.outbox.size ≤ File.maxPosition) :
    ∃ p' d', turn Drain.outlet f maxPayload p d = (p', d', decide (more.length < chunkSize)) ∧
      p'.Stands f maxPayload lasting d'.files (front ++ more.take chunkSize) ∧
      d'.published = (Event.business (more.take chunkSize)).reverse ++ d.published ∧
      d'.files.log = d.files.log ∧ d'.files.outbox = d.files.outbox := by
  have hwithin : p.offset ≤ d.files.outbox.size := by
    rw [h.offset, ← File.length_bytes, hb, Journal.eventBytes_append, List.append_assoc,
      List.length_append]
    exact Nat.le_add_right ..
  obtain ⟨r, hopened, hlimit, hstands⟩ :=
    exists_reader maxPayload hreg hwithin hrange h.reader
  rw [h.offset] at hstands
  obtain ⟨r', hread, hkeep⟩ :=
    readChunk_take hreg hb hbegun (hlimit ▸ hps) (hlimit ▸ hfits) hstands chunkSize
  obtain ⟨p₁, hrun, hstored₁, hoffset₁, hcommitted₁⟩ :=
    forEach_taken (takes_drain d (Event.business (more.take chunkSize))) h.offset
  have hclosed : p₁.committed =
      (Journal.eventBytes f (Event.closedPart (front ++ more.take chunkSize))).length := by
    rw [hcommitted₁, Event.closedPart_append, h.committed]
    split <;> rfl
  obtain ⟨stored, files', hsave, hsame, hmarks, hlog, hout⟩ := save_marks
    (d := { d with published := (Event.business (more.take chunkSize)).reverse ++ d.published })
    (hstored₁.symm ▸ h.marks)
  rw [turn_of_opened hopened hread hrun hsave]
  by_cases hmore : chunkSize ≤ more.length
  · obtain ⟨hlimit', hstands'⟩ := hkeep hmore
    rw [if_pos hmore, decide_eq_false (Nat.not_lt.2 hmore)]
    refine ⟨_, _, rfl, ⟨hoffset₁, hclosed, hsame, hmarks, ?_⟩, rfl, hlog, hout⟩
    intro q hq
    injection hq with hq
    subst hq
    refine ⟨hlimit'.trans hlimit, ?_⟩
    show r'.StandsAt files'.outbox p₁.offset
    rw [hout, hoffset₁]
    exact hstands'
  · rw [if_neg hmore, decide_eq_true (Nat.lt_of_not_le hmore)]
    exact ⟨_, _, rfl, ⟨hoffset₁, hclosed, hsame, hmarks, fun q hq => (by cases hq)⟩, rfl, hlog, hout⟩

/-! ## Beside an actor, and at the end -/

/-- An outbox of which only the first bytes are seen. -/
theorem seen_events {outbox : File} (hb : outbox.bytes = Journal.eventBytes f es)
    (hfront : front <+: es) {n : Nat} (hn : (Journal.eventBytes f front).length ≤ n) :
    ∃ more tail, front ++ more <+: es ∧ Begun (es.map f.encodeEvent) tail ∧
      (outbox.truncate n).bytes = Journal.eventBytes f (front ++ more) ++ tail := by
  obtain ⟨m, tail, hm, hcut, hbegun, hiff⟩ := frames_cut (es.map f.encodeEvent) n
  rw [List.length_map] at hm hiff
  have hle : front.length ≤ m := by
    cases hlen : front.length with
    | zero => exact Nat.zero_le m
    | succ t =>
      have hlt : t < es.length := by
        have := hfront.length_le
        omega
      refine (hiff t hlt).1 ?_
      rw [← List.map_take, ← hlen, ← List.prefix_iff_eq_take.1 hfront]
      exact hn
  have htake : front <+: es.take m := (List.prefix_take_iff).2 ⟨hfront, hle⟩
  obtain ⟨more, hmore⟩ := htake
  refine ⟨more, tail, ?_, hbegun, ?_⟩
  · rw [hmore]
    exact List.take_prefix ..
  · rw [File.bytes_truncate, hb, Journal.eventBytes, hcut, ← List.map_take, hmore]
    rfl

/-- A turn beside the actor, which sees the first bytes of the outbox. -/
theorem advance_stands (h : p.Stands f maxPayload lasting files front)
    (hreg : files.outbox.isRegular) (hb : files.outbox.bytes = Journal.eventBytes f es)
    (hfront : front <+: es)
    (hfits : ∀ e ∈ es, (f.encodeEvent e).length ≤ (readOptions maxPayload).limit)
    (hrange : files.outbox.size ≤ File.maxPosition) (seen : Nat) :
    ∃ p' drain more, advance f maxPayload seen (some p) files = (some p', drain) ∧
      front ++ more <+: es ∧ p'.Stands f maxPayload lasting drain.files (front ++ more) ∧
      drain.published.reverse = Event.business more ∧ drain.files.log = files.log ∧
      drain.files.outbox = files.outbox := by
  have hreach : p.offset ≤ p.reach ∧ ∀ r, p.reader = some r → r.source.position ≤ p.reach := by
    unfold Progress.reach
    cases p.reader with
    | none => exact ⟨Nat.le_refl _, fun r hr => (by cases hr)⟩
    | some r =>
      refine ⟨Nat.le_max_left .., fun r' hr => ?_⟩
      injection hr with hr
      exact hr ▸ Nat.le_max_right ..
  have hn : (Journal.eventBytes f front).length ≤ max p.reach seen := by
    rw [← h.offset]
    exact Nat.le_trans hreach.1 (Nat.le_max_left ..)
  obtain ⟨more, tail, hmore, hbegun, hview⟩ := seen_events hb hfront hn
  have hview' : (files.outbox.truncate (max p.reach seen)).isRegular := by
    cases hfile : files.outbox with
    | regular content => rfl
    | _ => rw [hfile] at hreg; cases hreg
  have hsize : (files.outbox.truncate (max p.reach seen)).size ≤ File.maxPosition := by
    rw [← File.length_bytes, File.bytes_truncate, List.length_take, File.length_bytes]
    exact Nat.le_trans (Nat.min_le_right ..) hrange
  -- The publisher stands in what it sees,
  have hseen : p.Stands f maxPayload lasting
      { files with outbox := files.outbox.truncate (max p.reach seen) } front := by
    refine ⟨h.offset, h.committed, h.stored, h.marks.congr rfl rfl, ?_⟩
    intro r hr
    obtain ⟨hlimit, hstands⟩ := h.reader r hr
    refine ⟨hlimit, hstands.truncate ?_ ?_⟩
    · exact Nat.le_trans hreach.1 (Nat.le_max_left ..)
    · exact Nat.le_trans (hreach.2 r hr) (Nat.le_max_left ..)
  obtain ⟨p', d', hturn, hp', hpublished, hlog, hout⟩ := turn_stands
    (d := { files := { files with outbox := files.outbox.truncate (max p.reach seen) } })
    hseen hview' hview hbegun
    (by
      intro q hq
      obtain ⟨e, he, rfl⟩ := List.mem_map.1 hq
      exact ⟨hfits e he, f.length_encodeEvent_le e⟩)
    (fun e he => hfits e (hmore.subset (List.mem_append_right _ he))) hsize
  refine ⟨p', { d' with files := { d'.files with outbox := files.outbox } }, more.take chunkSize,
    ?_, ?_, ?_, ?_, hlog, rfl⟩
  · unfold advance
    dsimp only
    rw [hturn]
  · exact ((List.prefix_append_right_inj front).2 (List.take_prefix ..)).trans hmore
  · -- and then in the whole of it.
    refine hp'.grow ?_ rfl rfl
    rw [hout, File.bytes_truncate]
    exact List.take_prefix ..
  · rw [hpublished, List.append_nil, List.reverse_reverse]

/-- A publisher that is asked to stop hands on all that is left. -/
theorem run_stands (h : p.Stands f maxPayload lasting d.files front)
    (hreg : d.files.outbox.isRegular)
    (hb : d.files.outbox.bytes = Journal.eventBytes f (front ++ more))
    (hfits : ∀ e ∈ more, (f.encodeEvent e).length ≤ (readOptions maxPayload).limit)
    (hrange : d.files.outbox.size ≤ File.maxPosition) {turns : Nat} (hturns : more.length < turns) :
    ∃ (p' : Progress) (d' : Drain) (committed : Nat),
      run Drain.outlet f maxPayload turns (some p) d = (d', some committed) ∧
      p'.Stands f maxPayload lasting d'.files (front ++ more) ∧
      d'.published = (Event.business more).reverse ++ d.published ∧
      d'.files.log = d.files.log ∧ d'.files.outbox = d.files.outbox := by
  induction turns generalizing p d front more with
  | zero => cases hturns
  | succ turns ih =>
    have hb' : d.files.outbox.bytes = Journal.eventBytes f (front ++ more) ++ [] := by
      rw [List.append_nil, hb]
    obtain ⟨p₁, d₁, hturn, h₁, hpublished, hlog, hout⟩ := turn_stands h hreg hb'
      (begun_nil []) (fun q hq => (by cases hq)) hfits hrange
    by_cases hlast : more.length < chunkSize
    · rw [List.take_of_length_le (Nat.le_of_lt hlast)] at h₁ hpublished
      refine ⟨p₁, d₁, p₁.committed, ?_, h₁, hpublished, hlog, hout⟩
      rw [run, hturn, decide_eq_true hlast]
    · have hsplit : front ++ more = (front ++ more.take chunkSize) ++ more.drop chunkSize := by
        rw [List.append_assoc, List.take_append_drop]
      have hlen : (more.drop chunkSize).length < turns := by
        rw [List.length_drop]
        unfold chunkSize at hlast ⊢
        omega
      obtain ⟨p', d', committed, hrun, h', hpublished', hlog', hout'⟩ := ih h₁ (hout ▸ hreg)
        (by rw [hout, hb, hsplit]) (fun e he => hfits e (List.mem_of_mem_drop he)) (hout ▸ hrange)
        hlen
      refine ⟨p', d', committed, ?_, hsplit ▸ h', ?_, hlog'.trans hlog, hout'.trans hout⟩
      · rw [run, hturn, decide_eq_false hlast]
        exact hrun
      · rw [hpublished', hpublished, ← List.append_assoc, ← List.reverse_append,
          ← Event.business_append, List.take_append_drop]

end Publisher

end Bourse
