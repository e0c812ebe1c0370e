import Mathlib.Algebra.GroupWithZero.Nat
import Mathlib.Data.List.Infix
import Bourse.Proofs.Log.Parsing

/-!
# Where a reader stands, and where it says that it stands

A reader counts the bytes of the records that it hands out, and its `offset` is that count. Where it
really stands is where its source does, `Source.place`: behind all bytes that were taken from the
file and handed out. The two agree as long as every byte that was taken belongs to a record that was
handed out. Bytes of a record that is torn, damaged or too long are taken as well, but not counted,
so from then on the reader stands behind its offset, and the records that follow are said to end
before they do. `Reading.accounted_run` says all of this of any calls while the file grows.
-/

namespace Bourse

/-- A file that bytes are added to keeps those that it had. -/
theorem File.bytes_prefix_append (f : File) (more : ByteArray) :
    f.bytes <+: (f.append more).bytes := by
  cases f with
  | regular content =>
    rw [bytes_append]
    exact List.prefix_append ..
  | _ => exact List.prefix_refl _

namespace Log

/-! ## The place of a source -/

namespace Source

/-- The place in the file of the next byte to hand out. -/
def place (s : Source) : Nat :=
  s.position - s.ahead.length

/-- The source has handed out the file up to a place, and what it has fetched stands there. -/
structure IsAt (s : Source) (f : File) (place : Nat) : Prop where
  position : s.position = place + s.ahead.length
  ahead : s.ahead <+: f.bytes.drop place

variable {s : Source} {f g : File} {place : Nat}

theorem IsAt.place_eq (h : s.IsAt f place) : s.place = place := by
  rw [Source.place, h.position, Nat.add_sub_cancel]

theorem IsAt.length_ahead_le (h : s.IsAt f place) : s.ahead.length ≤ f.size - place := by
  have hle := h.ahead.length_le
  rwa [List.length_drop, File.length_bytes] at hle

/-- What is still to be handed out is the file from the place on. -/
theorem IsAt.unread (h : s.IsAt f place) : s.unread f = f.bytes.drop place := by
  obtain ⟨more, hmore⟩ := h.ahead
  have hbehind : f.bytes.drop s.position = more := by
    rw [h.position, ← List.drop_drop, ← hmore, List.drop_left]
  rw [Source.unread, hbehind, hmore]

theorem IsAt.grow (h : s.IsAt f place) (hg : f.bytes <+: g.bytes) : s.IsAt g place :=
  ⟨h.position, h.ahead.trans (hg.drop place)⟩

/-- Bytes that are skipped are handed out, as many as there are. -/
theorem IsAt.skip (h : s.IsAt f place) (n : Nat) :
    (s.skip f n).IsAt f (place + min n (f.size - place)) := by
  have hheld := h.length_ahead_le
  have hposition := h.position
  unfold Source.skip demand
  dsimp only
  rw [List.length_take]
  split
  · next hn =>
    -- All of them were fetched before.
    have hle : n ≤ s.ahead.length := by omega
    rw [Nat.min_eq_left (Nat.le_trans hle hheld)]
    refine ⟨?_, ?_⟩
    · show s.position = place + n + (s.ahead.drop n).length
      rw [List.length_drop]
      omega
    · show s.ahead.drop n <+: f.bytes.drop (place + n)
      rw [← List.drop_drop]
      exact h.ahead.drop n
  · next hn =>
    have hfew : s.ahead.length < n := by omega
    rw [Nat.min_eq_right (Nat.le_of_lt hfew)]
    obtain ⟨missing, rfl⟩ := Nat.exists_eq_add_of_le (Nat.le_of_lt hfew)
    rw [Nat.add_sub_cancel_left]
    -- What was not fetched yet begins at the position.
    have hbehind : f.size - place = s.ahead.length + (f.size - s.position) := by omega
    obtain ⟨more, hmore⟩ := Nat.exists_eq_add_of_le (Nat.le_max_right s.capacity missing)
    rw [hbehind, Nat.add_min_add_left, hmore, Nat.add_sub_cancel_left, File.slice_eq]
    refine ⟨?_, ?_⟩
    · show s.position + min (missing + more) (f.size - s.position) = _
      rw [List.length_take, List.length_drop, File.length_bytes, ← Nat.sub_sub, hposition]
      generalize f.size - (place + s.ahead.length) = behind
      omega
    · show (f.bytes.drop (s.position + missing)).take more <+: _
      by_cases hall : missing ≤ f.size - s.position
      · rw [Nat.min_eq_left hall, ← Nat.add_assoc, ← hposition]
        exact List.take_prefix ..
      · have hnone : f.bytes.drop (s.position + missing) = [] :=
          List.drop_eq_nil_of_le (by rw [File.length_bytes]; omega)
        rw [hnone, List.take_nil]
        exact List.nil_prefix

theorem IsAt.skips (h : s.IsAt f place) (sizes : List Nat) :
    (sizes.foldl (Source.skip f) s).IsAt f (place + min sizes.sum (f.size - place)) := by
  induction sizes generalizing s place with
  | nil => exact h
  | cons n rest ih =>
    have hrest := ih (h.skip n)
    have hsum : place + min n (f.size - place) +
        min rest.sum (f.size - (place + min n (f.size - place))) =
        place + min (n :: rest).sum (f.size - place) := by
      rw [List.sum_cons]
      omega
    rwa [hsum] at hrest

end Source

namespace Frame

theorem parse_eq_nothing_iff {limit : Nat} {b : Bytes} : parse limit b = nothing ↔ b = [] := by
  constructor
  · intro h
    unfold parse judge at h
    dsimp only at h
    split at h
    · next hempty =>
      rw [List.isEmpty_iff, List.take_eq_nil_iff] at hempty
      exact hempty.resolve_left (by decide)
    split at h
    · cases h
    split at h
    · cases h
    split at h
    · cases h
    split at h <;> cases h
  · rintro rfl
    rfl

/-- A header at least is asked for. -/
theorem headerSize_le_requests (found : Frame) : headerSize ≤ found.requests.sum := by
  cases found with
  | shortPayload length => exact Nat.le_add_right ..
  | corrupt length => exact Nat.le_add_right ..
  | record payload rest => exact Nat.le_add_right ..
  | _ => exact Nat.le_refl _

end Frame

/-! ## Calls of a reader -/

/-- The frame of the record's payload stands in the file, and ends where the record is said to. -/
def Record.StandsIn (record : Record) (f : File) : Prop :=
  record.stop ≤ f.size ∧ frame record.payload <:+ f.bytes.take record.stop

instance (record : Record) (f : File) : Decidable (record.StandsIn f) :=
  inferInstanceAs (Decidable (_ ∧ _))

namespace Reader

variable {r : Reader} {f : File} {place : Nat}

/-- A record is handed out: it stands in the file right behind the place, and the reader counts it. -/
structure Hands (r : Reader) (place : Nat) (f : File) (record : Record) (r' : Reader)
    (place' : Nat) : Prop where
  stop : record.stop = r.offset + (headerSize + record.payload.length)
  offset : r'.offset = record.stop
  place : place' = place + (headerSize + record.payload.length)
  torn : r'.torn = r.torn
  stands : { record with stop := place' }.StandsIn f

/-- Where there is something, though no record, the call is torn or fails, and the offset stays. -/
theorem after_lost {found : Frame} (hrecord : found.isRecord = false) (hsome : found ≠ .nothing)
    (r : Reader) (source : Source) :
    ∃ r' result, r.after found source = (r', result) ∧ r'.source = source ∧
      r'.offset = r.offset ∧ (∀ record, result ≠ .ok (some record)) ∧
      (r'.torn = true ∨ ∃ e, result = .error e ∧ ∀ cause, e ≠ .file cause) := by
  cases found with
  | nothing => exact absurd rfl hsome
  | record => cases hrecord
  | shortHeader =>
    refine ⟨_, _, rfl, rfl, rfl, fun record => ?_, Or.inl rfl⟩
    split <;> simp
  | shortPayload =>
    refine ⟨_, _, rfl, rfl, rfl, fun record => ?_, Or.inl rfl⟩
    split <;> simp
  | tooLarge =>
    exact ⟨_, _, rfl, rfl, rfl, fun record => by simp, Or.inr ⟨_, rfl, fun cause => by simp⟩⟩
  | corrupt =>
    exact ⟨_, _, rfl, rfl, rfl, fun record => by simp, Or.inr ⟨_, rfl, fun cause => by simp⟩⟩

/-- A frame that stands at a place ends where its bytes do. -/
theorem standsIn_of_parse {limit : Nat} {payload rest : Bytes}
    (h : Frame.parse limit (f.bytes.drop place) = .record payload rest) :
    Record.StandsIn ⟨payload, place + (headerSize + payload.length)⟩ f := by
  obtain ⟨hbytes, -⟩ := Frame.parse_eq_record_iff.1 h
  refine ⟨?_, ?_⟩
  · have hlen := congrArg List.length hbytes
    rw [List.length_drop, File.length_bytes, List.length_append, length_frame, headerSize] at hlen
    simp only [headerSize]
    omega
  · show frame payload <:+ f.bytes.take (place + (headerSize + payload.length))
    rw [List.take_add, hbytes, List.take_left' (by rw [length_frame])]
    exact List.suffix_append ..

/-- What may come of a call: a record is handed out; or nothing is taken from the file, because it
ends or cannot be read; or bytes are taken that belong to no record. -/
theorem next_cases (h : r.source.IsAt f place) :
    ∃ r' result place', r.next f = (r', result) ∧ r'.source.IsAt f place' ∧
      ((∃ record, result = .ok (some record) ∧ r.Hands place f record r' place') ∨
       ((result = .ok none ∨ ∃ cause, result = .error (.file cause)) ∧
          r'.offset = r.offset ∧ r'.torn = r.torn ∧ place' = place) ∨
       ((∀ record, result ≠ .ok (some record)) ∧
          (r'.torn = true ∨ ∃ e, result = .error e ∧ ∀ cause, e ≠ .file cause) ∧
          r'.offset = r.offset ∧ place < place')) := by
  cases hobstacle : r.source.obstacle? f headerSize with
  | some cause =>
    refine ⟨r, .error (.file cause), place, ?_, h, Or.inr (Or.inl ⟨Or.inr ⟨cause, rfl⟩, ?_⟩)⟩
    · rw [next, hobstacle]
    · exact ⟨rfl, rfl, rfl⟩
  | none =>
    have hnext := next_eq r f hobstacle
    have hat := h.skips (Frame.parse r.limit (f.bytes.drop place)).requests
    have hheader := Frame.headerSize_le_requests (Frame.parse r.limit (f.bytes.drop place))
    rw [h.unread] at hnext
    generalize hfound : Frame.parse r.limit (f.bytes.drop place) = found at hnext hat hheader
    by_cases hnothing : found = .nothing
    · -- The file ends here.
      subst hnothing
      have hend : f.size - place = 0 := by
        have hnil := Frame.parse_eq_nothing_iff.1 hfound
        rw [← File.length_bytes, ← List.length_drop, hnil, List.length_nil]
      rw [hend, Nat.min_zero] at hat
      exact ⟨_, _, place, hnext, hat, Or.inr (Or.inl ⟨Or.inl rfl, rfl, rfl, rfl⟩)⟩
    have hbytes : 0 < f.size - place := by
      rw [← File.length_bytes, ← List.length_drop, List.length_pos_iff]
      intro hnil
      exact hnothing (hfound ▸ Frame.parse_eq_nothing_iff.2 hnil)
    cases hrecord : found.isRecord with
    | false =>
      obtain ⟨r', result, hafter, hsource, hoffset, hnone, hlost⟩ :=
        after_lost hrecord hnothing r (found.requests.foldl (Source.skip f) r.source)
      refine ⟨r', result, _, hnext.trans hafter, hsource ▸ hat, Or.inr (Or.inr ?_)⟩
      refine ⟨hnone, hlost, hoffset, ?_⟩
      simp only [headerSize] at hheader
      omega
    | true =>
      cases found with
      | record payload rest =>
        have hstands := standsIn_of_parse hfound
        have hplace : min (Frame.record payload rest).requests.sum (f.size - place) =
            headerSize + payload.length := by
          have hwithin := hstands.1
          simp only [headerSize] at hwithin
          simp only [Frame.requests, List.sum_cons, List.sum_nil, Nat.add_zero, headerSize]
          omega
        rw [hplace] at hat
        exact ⟨_, _, _, hnext, hat, Or.inl ⟨_, rfl, Nat.add_assoc .., rfl, rfl, rfl, hstands⟩⟩
      | _ => cases hrecord

end Reader

/-! ## A reader and a file that grows -/

/-- What a call tells: what came of it, and what the reader says of itself afterwards. -/
structure Answer where
  result : Except LogError (Option Record)
  offset : Nat
  lastGood : Nat
  torn : Bool
deriving DecidableEq, Repr, Inhabited

/-- A reader, its file, and the answers to the calls so far. -/
structure Reading where
  reader : Reader
  file : File
  answers : List Answer := []
deriving Inhabited

/-- What happens to a reader and its file. -/
inductive Turn where
  /-- The next record is asked for. -/
  | call
  /-- Bytes are added to the file. -/
  | grow (more : ByteArray)

namespace Reading

/-- Asks for the next record. -/
def call (s : Reading) : Reading :=
  let (reader, result) := s.reader.next s.file
  let answer := { result, offset := reader.offset, lastGood := reader.lastGood, torn := reader.torn }
  { s with reader, answers := s.answers ++ [answer] }

def turn (s : Reading) : Turn → Reading
  | .call => s.call
  | .grow more => { s with file := s.file.append more }

def run (s : Reading) (turns : List Turn) : Reading :=
  turns.foldl turn s

/-- No torn record was seen, and no call has failed for what stands in the file. -/
def Unharmed (s : Reading) : Prop :=
  s.reader.torn = false ∧
    ∀ a ∈ s.answers, ∀ e, a.result = .error e → ∃ cause, e = .file cause

variable {s : Reading} {r' : Reader} {result : Except LogError (Option Record)}

theorem call_eq (hnext : s.reader.next s.file = (r', result)) :
    s.call =
      { s with
        reader := r'
        answers := s.answers ++
          [{ result, offset := r'.offset, lastGood := r'.lastGood, torn := r'.torn }] } := by
  rw [call, hnext]

/-- Calls that find a record, the end of the file, or no file to read do no harm. -/
theorem unharmed_call_iff (hnext : s.reader.next s.file = (r', result))
    (htorn : r'.torn = s.reader.torn)
    (hresult : ∀ e, result = .error e → ∃ cause, e = .file cause) :
    s.call.Unharmed ↔ s.Unharmed := by
  rw [call_eq hnext]
  simp only [Unharmed, htorn, List.forall_mem_append, List.forall_mem_singleton]
  exact ⟨fun h => ⟨h.1, h.2.1⟩, fun h => ⟨h.1, h.2, hresult⟩⟩

theorem not_unharmed_call (hnext : s.reader.next s.file = (r', result))
    (h : r'.torn = true ∨ ∃ e, result = .error e ∧ ∀ cause, e ≠ .file cause) :
    ¬ s.call.Unharmed := by
  rw [call_eq hnext]
  rintro ⟨htorn, hanswers⟩
  rcases h with h | ⟨e, he, hfile⟩
  · exact Bool.false_ne_true (htorn.symm.trans h)
  · obtain ⟨cause, hcause⟩ := hanswers _ List.mem_concat_self e he
    exact hfile cause hcause

/-- The offset is compared with the place. -/
structure Tracked (s : Reading) : Prop where
  fetched : s.reader.source.IsAt s.file s.reader.source.place
  /-- The offset may fall behind the place. -/
  behind : s.reader.offset ≤ s.reader.source.place
  /-- It is the place exactly as long as nothing was wrong with the file. -/
  exact : s.reader.offset = s.reader.source.place ↔ s.Unharmed

theorem Tracked.call (h : s.Tracked) : s.call.Tracked := by
  obtain ⟨r', result, place', hnext, hat, hcase⟩ := Reader.next_cases h.fetched
  have hbehind := h.behind
  have hplace := hat.place_eq
  have hreader : s.call.reader = r' := by rw [call_eq hnext]
  have hfile : s.call.file = s.file := by rw [call_eq hnext]
  rw [← hplace] at hat
  rcases hcase with ⟨record, rfl, hands⟩ | ⟨hkept, hoffset, htorn, hstays⟩ |
    ⟨-, hlost, hoffset, hahead⟩
  · -- The record's bytes are counted.
    have hboth : r'.offset + s.reader.source.place = r'.source.place + s.reader.offset := by
      rw [hands.offset, hands.stop, hplace, hands.place]
      omega
    refine ⟨hreader ▸ hfile ▸ hat, ?_, ?_⟩
    · rw [hreader]
      omega
    · rw [unharmed_call_iff hnext hands.torn (fun e he => by cases he), ← h.exact, hreader]
      omega
  · -- Nothing is taken.
    have hresult : ∀ e, result = .error e → ∃ cause, e = .file cause := by
      rintro e rfl
      rcases hkept with hnone | ⟨cause, hcause⟩
      · cases hnone
      · exact ⟨cause, Except.error.inj hcause⟩
    rw [hstays] at hplace
    refine ⟨hreader ▸ hfile ▸ hat, ?_, ?_⟩
    · rw [hreader, hoffset, hplace]
      exact hbehind
    · rw [unharmed_call_iff hnext htorn hresult, ← h.exact, hreader, hoffset, hplace]
  · -- Bytes are taken that are not counted.
    have hless : r'.offset < r'.source.place := by omega
    refine ⟨hreader ▸ hfile ▸ hat, ?_, ?_⟩
    · rw [hreader]
      exact Nat.le_of_lt hless
    · rw [hreader]
      exact iff_of_false (Nat.ne_of_lt hless) (not_unharmed_call hnext hlost)

theorem Tracked.turn (h : s.Tracked) (t : Turn) : (s.turn t).Tracked := by
  cases t with
  | call => exact h.call
  | grow more => exact ⟨h.fetched.grow (s.file.bytes_prefix_append more), h.behind, h.exact⟩

theorem Tracked.run (h : s.Tracked) (turns : List Turn) : (s.run turns).Tracked := by
  induction turns generalizing s with
  | nil => exact h
  | cons t rest ih => exact ih (h.turn t)

/-- What is true of a reader, whatever was asked and however the file has grown. -/
structure Accounted (s : Reading) : Prop extends Tracked s where
  /-- The next call reads from the place on. -/
  unread : s.reader.source.unread s.file = s.file.bytes.drop s.reader.source.place
  /-- A record that is handed out next stands before the place where the reader is then. It is said
  to end as far before that place as the offset is behind. -/
  next : ∀ r' record, s.reader.next s.file = (r', .ok (some record)) →
    Record.StandsIn ⟨record.payload, r'.source.place⟩ s.file ∧ record.stop = r'.offset ∧
      record.stop + (s.reader.source.place - s.reader.offset) = r'.source.place
  /-- So as long as nothing was wrong with the file, it ends where it is said to. -/
  stands : s.Unharmed → ∀ r' record, s.reader.next s.file = (r', .ok (some record)) →
    record.StandsIn s.file

theorem Tracked.accounted (h : s.Tracked) : s.Accounted := by
  have hbehind := h.behind
  have hrecord : ∀ r' record, s.reader.next s.file = (r', .ok (some record)) →
      Record.StandsIn ⟨record.payload, r'.source.place⟩ s.file ∧ record.stop = r'.offset ∧
        record.stop + (s.reader.source.place - s.reader.offset) = r'.source.place := by
    intro r' record hfound
    obtain ⟨r₁, result, place', hnext, hat, hcase⟩ := Reader.next_cases h.fetched
    obtain ⟨rfl, rfl⟩ := Prod.mk.inj (hnext.symm.trans hfound)
    rcases hcase with ⟨found, hsame, hands⟩ | ⟨hkept, -⟩ | ⟨hnone, -⟩
    · obtain rfl : record = found := Option.some.inj (Except.ok.inj hsame)
      have hstop := hands.stop
      have hplace := hands.place
      rw [hat.place_eq]
      exact ⟨hands.stands, hands.offset.symm, by omega⟩
    · rcases hkept with hnone | ⟨cause, hcause⟩
      · cases hnone
      · cases hcause
    · exact absurd rfl (hnone record)
  refine { h with unread := h.fetched.unread, next := hrecord, stands := ?_ }
  intro hunharmed r' record hfound
  obtain ⟨hstands, -, hstop⟩ := hrecord r' record hfound
  rwa [← hstop, h.exact.2 hunharmed, Nat.sub_self, Nat.add_zero] at hstands

end Reading

/-- **A reader's offsets are true exactly as long as nothing was wrong with the file.** Whatever was
asked of a reader before and however its file has grown meanwhile, it reads on from its place. That is
its offset if no torn record was seen and no call has failed for what stands in the file, and only
then. A record that is handed out ends where the reader stands afterwards, and is said to end there as
long as that is so; later it is said to end earlier, by as many bytes as were taken and not counted. -/
theorem Reader.accounted_run {f : File} {offset : Nat} {o : ReadOptions} {r : Reader}
    (hopen : Reader.open? f offset o = .ok r) (turns : List Turn) :
    (Reading.run { reader := r, file := f } turns).Accounted := by
  refine (Reading.Tracked.run ?_ turns).accounted
  unfold Reader.open? at hopen
  split at hopen
  · cases hopen
  · obtain rfl := Except.ok.inj hopen
    refine ⟨⟨rfl, List.nil_prefix⟩, Nat.le_refl _, iff_of_true rfl ⟨rfl, ?_⟩⟩
    intro a ha
    cases ha

/-- A record that is added after the end of the file was seen. -/
theorem Reader.accounted_run_grown :
    ∃ r, Reader.open? (.ofBytes (frame [1])) 0 {} = .ok r ∧
      ∃ s, s = Reading.run { reader := r, file := .ofBytes (frame [1]) }
          [.call, .call, .grow (frame [2]).toByteArray] ∧
        s.Accounted ∧ s.Unharmed ∧ (s.reader.next s.file).2 = .ok (some ⟨[2], 18⟩) ∧
        Record.StandsIn ⟨[2], 18⟩ s.file := by
  refine ⟨_, rfl, _, rfl, ?_⟩
  have hopen : Reader.open? (.ofBytes (frame [1])) 0 {} = .ok _ := rfl
  have haccounted := Reader.accounted_run hopen [.call, .call, .grow (frame [2]).toByteArray]
  have hunharmed := haccounted.exact.1 (by decide +kernel)
  refine ⟨haccounted, hunharmed, (and_iff_left_of_imp fun hfound => ?_).2 (by decide +kernel)⟩
  exact haccounted.stands hunharmed _ _ (Prod.ext rfl hfound)

/-- Behind a damaged record the offsets are not true: the second record ends at 18, where the reader
stands, and is said to end at 9. -/
theorem Reader.misplaced_behind_damage :
    ∃ r f, f = File.ofBytes ((frame [1]).set 8 7 ++ frame [2]) ∧
      Reader.open? f 0 {} = .ok r ∧
      ∃ s, s = Reading.run { reader := r, file := f } [.call, .call] ∧
        s.answers =
          [{ result := .error (.checksumMismatch 0), offset := 0, lastGood := 0, torn := false },
           { result := .ok (some ⟨[2], 9⟩), offset := 9, lastGood := 9, torn := false }] ∧
        ¬ Record.StandsIn ⟨[2], 9⟩ f ∧ Record.StandsIn ⟨[2], 18⟩ f ∧
        s.reader.offset = 9 ∧ s.reader.source.place = 18 := by
  refine ⟨_, _, rfl, rfl, _, rfl, ?_⟩
  decide +kernel

end Log

end Bourse
