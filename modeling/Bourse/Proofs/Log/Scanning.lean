import Bourse.Log.Replay
import Bourse.Proofs.Log.Framing

/-!
# Scanning a log made of frames

A file that begins with whole frames and goes on with bytes at which no record stands has exactly
those records; how the scan ends depends on the bytes behind them alone. A file that was cut at any
byte is of this kind (`take_frames`), and its torn end is no error (`torn_cut`).
-/

namespace Bourse

/-- There is a regular file, or there is nothing and one can be created. -/
def File.Usable (f : File) : Prop :=
  f = .absent ∨ f.isRegular

namespace File

theorem usable_ofBytes (b : Bytes) : (ofBytes b).Usable :=
  Or.inr rfl

theorem Usable.truncate {f : File} (h : f.Usable) (n : Nat) : (f.truncate n).Usable := by
  rcases h with rfl | h
  · exact Or.inl rfl
  · cases f with
    | regular content => exact Or.inr rfl
    | _ => cases h

theorem Usable.create {f : File} (h : f.Usable) :
    ∃ g, f.create = .ok g ∧ g.isRegular ∧ g.bytes = f.bytes := by
  rcases h with rfl | h
  · exact ⟨ofBytes [], rfl, rfl, bytes_ofBytes []⟩
  · cases f with
    | regular content => exact ⟨_, rfl, rfl, rfl⟩
    | _ => cases h

/-- Where there are bytes, there is a regular file. -/
theorem isRegular_of_bytes {f : File} (h : f.bytes ≠ []) : f.isRegular := by
  cases f with
  | regular content => rfl
  | _ => exact absurd rfl h

/-- A regular file is its bytes. -/
theorem eq_of_bytes_eq {a b : File} (ha : a.isRegular) (hb : b.isRegular)
    (h : a.bytes = b.bytes) : a = b := by
  cases a with
  | regular content =>
    cases b with
    | regular content' =>
      rw [bytes_regular, bytes_regular] at h
      rw [ByteArray.ext (Array.toList_inj.1 h)]
    | _ => cases hb
  | _ => cases ha

theorem truncate_size {f : File} (h : f.isRegular) : f.truncate f.size = f := by
  have hregular : (f.truncate f.size).isRegular := by
    cases f with
    | regular content => rfl
    | _ => cases h
  refine eq_of_bytes_eq hregular h ?_
  rw [bytes_truncate, ← length_bytes, List.take_length]

end File

namespace Log

/-- The records of a log with these payloads, from an offset on. -/
def recordsFrom : (start : Nat) → List Bytes → List Record
  | _, [] => []
  | start, p :: rest =>
    let stop := start + headerSize + p.length
    { payload := p, stop } :: recordsFrom stop rest

/-- How a log ends at an offset where `found` stands, if that is no record. -/
def ReadOptions.ending (o : ReadOptions) (offset : Nat) : Frame → Except LogError Bool
  | .nothing | .record .. => .ok false
  | .shortHeader => if o.tolerant then .ok true else .error (.truncatedHeader offset)
  | .tooLarge length => .error (.payloadTooLarge offset length o.limit)
  | .shortPayload _ => if o.tolerant then .ok true else .error (.truncatedPayload offset)
  | .corrupt _ => .error (.checksumMismatch offset)

/-- Whether a record stands there. -/
def Frame.isRecord : Frame → Bool
  | .record .. => true
  | _ => false

/-- A payload that a reader accepts and a header can announce. -/
def Fits (limit : Nat) (payload : Bytes) : Prop :=
  payload.length ≤ limit ∧ payload.length ≤ maxLength

instance (limit : Nat) (payload : Bytes) : Decidable (Fits limit payload) :=
  inferInstanceAs (Decidable (_ ∧ _))

@[simp] theorem length_recordsFrom (start : Nat) (ps : List Bytes) :
    (recordsFrom start ps).length = ps.length := by
  induction ps generalizing start with
  | nil => rfl
  | cons p rest ih => simp [recordsFrom, ih]

theorem recordsFrom_append (start : Nat) (ps qs : List Bytes) :
    recordsFrom start (ps ++ qs) =
      recordsFrom start ps ++ recordsFrom (start + (frames ps).length) qs := by
  induction ps generalizing start with
  | nil => rfl
  | cons p rest ih =>
    simp only [List.cons_append, recordsFrom, ih, frames_cons, List.length_append, length_frame]
    rw [Nat.add_assoc start, Nat.add_assoc start]

@[simp] theorem map_payload_recordsFrom (start : Nat) (ps : List Bytes) :
    (recordsFrom start ps).map Record.payload = ps := by
  induction ps generalizing start with
  | nil => rfl
  | cons p rest ih => simp [recordsFrom, ih]

/-- The last record ends where the frames do. -/
theorem lastGood_recordsFrom (start : Nat) (ps : List Bytes) :
    ((recordsFrom start ps).getLast?.map Record.stop).getD start =
      start + (frames ps).length := by
  rcases List.eq_nil_or_concat ps with rfl | ⟨init, p, rfl⟩
  · rfl
  · rw [List.concat_eq_append, recordsFrom_append]
    simp [recordsFrom]
    omega

theorem findAt_alone {limit : Nat} {f : File} {offset : Nat} {found : Frame}
    (h : Frame.parse limit (f.bytes.drop offset) = found) (hr : found.isRecord = false) :
    Source.findAt limit f offset = found := by
  rw [Source.findAt_eq, h]
  cases found with
  | record => cases hr
  | _ => rfl

theorem scanFrom_stop {o : ReadOptions} {f : File} {offset : Nat} {found : Frame}
    (h : Source.findAt o.limit f offset = found) (hr : found.isRecord = false)
    (acc : Array Record) :
    scanFrom o f offset acc = { records := acc.toList, ending := o.ending offset found } := by
  rw [scanFrom]
  split <;> rename_i hf <;> rw [h] at hf <;> subst hf
  case h_6 => cases hr
  all_goals rfl

theorem scanFrom_record {o : ReadOptions} {f : File} {offset : Nat} {payload rest : Bytes}
    (h : Source.findAt o.limit f offset = .record payload rest) (acc : Array Record) :
    scanFrom o f offset acc =
      scanFrom o f (offset + headerSize + payload.length)
        (acc.push { payload, stop := offset + headerSize + payload.length }) := by
  rw [scanFrom]
  split <;> rename_i hf <;> rw [h] at hf
  case h_6 => injection hf with h1 h2; subst h1; rfl
  all_goals cases hf

/-- Whole frames are scanned one after the other. -/
theorem scanFrom_frames {o : ReadOptions} {f : File} {offset : Nat} {ps : List Bytes}
    {tail : Bytes} (hb : f.bytes.drop offset = frames ps ++ tail)
    (hp : ∀ p ∈ ps, Fits o.limit p) (acc : Array Record) :
    scanFrom o f offset acc =
      scanFrom o f (offset + (frames ps).length) (acc ++ (recordsFrom offset ps).toArray) := by
  induction ps generalizing offset acc with
  | nil => simp [recordsFrom]
  | cons p rest ih =>
    obtain ⟨hl, hm⟩ := hp p List.mem_cons_self
    have hparse : Frame.parse o.limit (f.bytes.drop offset) = .record p (frames rest ++ tail) := by
      rw [hb, frames_cons, List.append_assoc, Frame.parse_frame hl hm]
    have hfind : Source.findAt o.limit f offset = .record p [] := by
      rw [Source.findAt_eq, hparse]
      rfl
    have hdrop : f.bytes.drop (offset + headerSize + p.length) = frames rest ++ tail := by
      have := (Frame.rest_of_parse hparse).2
      rw [this, List.drop_drop, Nat.add_assoc]
    rw [scanFrom_record hfind, ih hdrop fun q hq => hp q (List.mem_cons_of_mem _ hq)]
    congr 1
    · simp only [frames_cons, List.length_append, length_frame]
      omega
    · simp [recordsFrom]

/-- A file has the records that it begins with, up to the place where none stands. -/
theorem scan_frames {o : ReadOptions} {f : File} (hf : f.Usable) {ps : List Bytes} {tail : Bytes}
    (hb : f.bytes = frames ps ++ tail) (hp : ∀ p ∈ ps, Fits o.limit p)
    (ht : (Frame.parse o.limit tail).isRecord = false) :
    scan o f =
      ⟨recordsFrom 0 ps, o.ending (frames ps).length (Frame.parse o.limit tail)⟩ := by
  have hstop : scanFrom o f 0 #[] =
      ⟨recordsFrom 0 ps, o.ending (frames ps).length (Frame.parse o.limit tail)⟩ := by
    have hdrop : f.bytes.drop (0 + (frames ps).length) = tail := by
      rw [hb, Nat.zero_add, List.drop_left]
    rw [scanFrom_frames (by rw [List.drop_zero, hb]) hp,
      scanFrom_stop (findAt_alone (by rw [hdrop]) ht) ht]
    simp
  rcases hf with rfl | hf
  · have hnil : frames ps ++ tail = [] := by rw [← hb]; rfl
    obtain ⟨hps, rfl⟩ := List.append_eq_nil_iff.1 hnil
    have : ps = [] := by
      cases ps with
      | nil => rfl
      | cons p rest => simp [frame, Bytes.ofNat] at hps
    subst this
    rfl
  · cases f with
    | regular content => exact hstop
    | _ => cases hf

/-- What a replay of such a file comes to. -/
theorem replay_frames {σ ε : Type} {o : ReadOptions} {f : File} (hf : f.Usable)
    {ps : List Bytes} {tail : Bytes} (hb : f.bytes = frames ps ++ tail)
    (hp : ∀ p ∈ ps, Fits o.limit p) (ht : (Frame.parse o.limit tail).isRecord = false)
    (ofLog : LogError → ε) (visit : σ → Record → Attempt σ ε Unit) (s : σ) :
    replay o f ofLog visit s =
      (Attempt.forEach visit s (recordsFrom 0 ps)).andThen fun s _ =>
        (s, ((o.ending (frames ps).length (Frame.parse o.limit tail)).mapError ofLog).map
          fun torn => { records := ps.length, lastGood := (frames ps).length, torn }) := by
  have hlast : ((recordsFrom 0 ps).getLast?.map Record.stop).getD 0 = (frames ps).length := by
    rw [lastGood_recordsFrom, Nat.zero_add]
  rw [replay, scan_frames hf hb hp ht]
  congr 1
  funext s _
  dsimp only
  rw [hlast, length_recordsFrom]
  cases o.ending (frames ps).length (Frame.parse o.limit tail) <;> rfl

/-! ## Logs that were cut -/

/-- A log that was cut consists of whole frames and less than the next one. -/
theorem take_frames (ps : List Bytes) (n : Nat) :
    ∃ tail, (frames ps).take n = frames (ps.take (fit (ps.map frame) n)) ++ tail ∧
      (tail = [] ∨ ∃ p, ps[fit (ps.map frame) n]? = some p ∧
        ∃ k < (frame p).length, tail = (frame p).take k) := by
  obtain ⟨tail, ht, hcase⟩ := take_flatten (ps.map frame) n
  refine ⟨tail, by rw [frames, ht, frames, List.map_take], hcase.imp_right ?_⟩
  rintro ⟨b, hb, k, hk, rfl⟩
  rw [List.getElem?_map, Option.map_eq_some_iff] at hb
  obtain ⟨p, hp, rfl⟩ := hb
  exact ⟨p, hp, k, hk, rfl⟩

/-- What may follow the last record without a tolerant reader minding it: nothing, or less than a
record. -/
structure Torn (o : ReadOptions) (tail : Bytes) : Prop where
  noRecord : (Frame.parse o.limit tail).isRecord = false
  ending : ∀ offset, o.ending offset (Frame.parse o.limit tail) = .ok (!tail.isEmpty)

/-- No record stands where a frame was cut. -/
theorem torn_cut {o : ReadOptions} (ho : o.tolerant = true) {tail : Bytes}
    (h : tail = [] ∨ ∃ p, Fits o.limit p ∧ ∃ k < (frame p).length, tail = (frame p).take k) :
    Torn o tail := by
  rcases h with rfl | ⟨p, ⟨hl, hm⟩, k, hk, rfl⟩
  · exact ⟨rfl, fun _ => rfl⟩
  · have hparse := Frame.parse_cut hl hm hk
    by_cases h0 : k = 0
    · subst h0
      exact ⟨rfl, fun _ => rfl⟩
    · have hne : ((frame p).take k).isEmpty = false := by
        cases he : (frame p).take k with
        | nil =>
          have := congrArg List.length he
          rw [List.length_take, List.length_nil] at this
          omega
        | cons => rfl
      rw [if_neg h0] at hparse
      constructor
      · rw [hparse]
        split <;> rfl
      · intro offset
        rw [hparse, hne]
        split <;> simp [ReadOptions.ending, ho]

/-- What begins with less than a header is torn, whatever was to follow. -/
theorem torn_short {o : ReadOptions} (ho : o.tolerant = true) {tail : Bytes}
    (h : tail.length < headerSize) : Torn o tail := by
  have hshort : Frame.parse o.limit tail =
      if tail.isEmpty then .nothing else .shortHeader := by
    have htake : tail.take headerSize = tail := List.take_of_length_le (Nat.le_of_lt h)
    simp only [Frame.parse, Frame.judge, htake, if_pos h]
  cases htail : tail.isEmpty with
  | true =>
    rw [htail, if_pos rfl] at hshort
    exact ⟨by rw [hshort]; rfl, fun _ => by rw [hshort, htail]; rfl⟩
  | false =>
    rw [htail, if_neg Bool.false_ne_true] at hshort
    refine ⟨by rw [hshort]; rfl, fun _ => ?_⟩
    rw [hshort, ReadOptions.ending, if_pos ho, htail]
    rfl

/-- A part of a record is torn, or its header says that the record is beyond the limit. -/
theorem tooLarge_or_torn {o : ReadOptions} (ho : o.tolerant = true) {p : Bytes}
    (hp : p.length ≤ maxLength) {b : Bytes} (hcut : b <+: frame p)
    (hlt : b.length < (frame p).length) :
    (∃ n, Frame.parse o.limit b = .tooLarge n) ∨ Torn o b := by
  have htake : b = (frame p).take b.length := List.prefix_iff_eq_take.1 hcut
  by_cases hl : p.length ≤ o.limit
  · exact Or.inr (torn_cut ho (Or.inr ⟨p, ⟨hl, hp⟩, b.length, hlt, htake⟩))
  · by_cases hhead : headerSize ≤ b.length
    · refine Or.inl ⟨p.length, Frame.parse_oversized (Nat.lt_of_not_le hl) hp hhead ?_⟩
      rw [htake, List.take_take, Nat.min_eq_left hhead]
    · exact Or.inr (torn_short ho (Nat.lt_of_not_le hhead))

/-- The first part of a log, cut at any byte, is made of records that a reader accepts. Then comes
a record beyond its limit, or less than the next record. -/
theorem split_prefix {o : ReadOptions} (ho : o.tolerant = true) {ps : List Bytes}
    (hm : ∀ p ∈ ps, p.length ≤ maxLength) {b : Bytes} (hb : b <+: frames ps) :
    ∃ qs tail, qs <+: ps ∧ b = frames qs ++ tail ∧ (∀ q ∈ qs, Fits o.limit q) ∧
      ((∃ n, Frame.parse o.limit tail = .tooLarge n) ∨
        (Torn o tail ∧ ∀ p, qs ++ [p] <+: ps → tail.length < (frame p).length)) := by
  induction ps generalizing b with
  | nil =>
    have hnil : b = [] := List.prefix_nil.1 hb
    subst hnil
    refine ⟨[], [], List.prefix_refl _, rfl, fun q hq => (by cases hq), Or.inr ⟨?_, ?_⟩⟩
    · exact torn_cut ho (Or.inl rfl)
    · intro p hp
      exact absurd (List.prefix_nil.1 hp) (by simp)
  | cons p rest ih =>
    have hp : p.length ≤ maxLength := hm p List.mem_cons_self
    rw [frames_cons] at hb
    rcases prefix_append_cases hb with ⟨hcut, hlt⟩ | ⟨b', rfl, hb'⟩
    · have hnext : ∀ q, [] ++ [q] <+: p :: rest → b.length < (frame q).length := by
        rintro q ⟨more, hmore⟩
        injection hmore with hqp _
        rw [hqp]
        exact hlt
      exact ⟨[], b, List.nil_prefix, rfl, fun q hq => (by cases hq),
        (tooLarge_or_torn ho hp hcut hlt).imp_right fun htorn => ⟨htorn, hnext⟩⟩
    · by_cases hl : p.length ≤ o.limit
      · -- The record is accepted; the others follow.
        obtain ⟨qs, tail, hqs, rfl, hfits, hend⟩ :=
          ih (fun q hq => hm q (List.mem_cons_of_mem _ hq)) hb'
        refine ⟨p :: qs, tail, (List.prefix_cons_inj p).2 hqs, by simp, ?_, ?_⟩
        · intro q hq
          rcases List.mem_cons.1 hq with rfl | hq
          · exact ⟨hl, hp⟩
          · exact hfits q hq
        · refine hend.imp_right fun ⟨htorn, hlt⟩ => ⟨htorn, fun q hq => hlt q ?_⟩
          exact (List.prefix_cons_inj p).1 hq
      · refine ⟨[], frame p ++ b', List.nil_prefix, rfl, fun q hq => (by cases hq),
          Or.inl ⟨p.length, ?_⟩⟩
        have hlen : headerSize ≤ (frame p).length := by rw [length_frame]; omega
        exact Frame.parse_oversized (Nat.lt_of_not_le hl) hp
          (by rw [List.length_append]; omega) (List.take_append_of_le_length hlen)

/-- A replay leaves what its visitor makes of the records, and succeeds only if both the visitor and
the scan do. -/
theorem replay_of_forEach {σ ε : Type} {o : ReadOptions} {f : File} (ofLog : LogError → ε)
    {visit : σ → Record → Attempt σ ε Unit} {s s' : σ} {result : Except ε Unit}
    (h : Attempt.forEach visit s (scan o f).records = (s', result)) :
    ∃ result', replay o f ofLog visit s = (s', result') ∧
      ∀ stats, result' = .ok stats → result = .ok () ∧ (scan o f).ending = .ok stats.torn ∧
        stats.lastGood = ((scan o f).records.getLast?.map Record.stop).getD 0 := by
  rw [replay]
  dsimp only
  rw [h]
  cases result with
  | error e => exact ⟨.error e, rfl, fun stats hs => (by cases hs)⟩
  | ok _ =>
    simp only [Attempt.andThen]
    cases hending : (scan o f).ending with
    | error e => exact ⟨_, rfl, fun stats hs => (by cases hs)⟩
    | ok torn =>
      refine ⟨_, rfl, fun stats hs => ?_⟩
      injection hs with hs
      subst hs
      exact ⟨trivial, rfl, rfl⟩

/-- A replay of a log that was cut does not fail because of that. -/
theorem replay_torn {σ ε : Type} {o : ReadOptions} {f : File} (hf : f.Usable)
    {ps : List Bytes} {tail : Bytes} (hb : f.bytes = frames ps ++ tail)
    (hp : ∀ p ∈ ps, Fits o.limit p) (ht : Torn o tail)
    (ofLog : LogError → ε) (visit : σ → Record → Attempt σ ε Unit) (s : σ) :
    replay o f ofLog visit s =
      (Attempt.forEach visit s (recordsFrom 0 ps)).andThen fun s _ =>
        (s, .ok
          { records := ps.length, lastGood := (frames ps).length, torn := !tail.isEmpty }) := by
  rw [replay_frames hf hb hp ht.noRecord, ht.ending]
  rfl

end Log

end Bourse
