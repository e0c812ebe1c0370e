import Bourse.Proofs.Lifetime.Reading
import Bourse.Proofs.Log.Placing

/-!
# Reading on from the end of a record

A reader that is opened where a record ends goes on exactly as a reader would that has come there from
the beginning of the file: nothing that it reports depends on where it was opened. Readers that report
the same and stand at the same place of a file are `Alike`, though they may have fetched the file in
different pieces; they stay alike whatever is asked and however the file grows. A reader that has
handed out nothing but records is `Fresh`, that is, alike to one that is opened where it stands.
-/

namespace Bourse.Log

namespace Source

/-- Two sources stand at the same place of a file. -/
structure Alike (f : File) (s s' : Source) : Prop where
  within : s.position ≤ f.size
  within' : s'.position ≤ f.size
  place : ∃ place, s.IsAt f place ∧ s'.IsAt f place

variable {s s' : Source} {f g : File}

theorem Alike.unread (h : s.Alike f s') : s'.unread f = s.unread f := by
  obtain ⟨place, hs, hs'⟩ := h.place
  rw [hs.unread, hs'.unread]

theorem Alike.grow (h : s.Alike f s') (hg : f.bytes <+: g.bytes) : s.Alike g s' := by
  obtain ⟨place, hs, hs'⟩ := h.place
  have hlen := hg.length_le
  rw [File.length_bytes, File.length_bytes] at hlen
  exact ⟨Nat.le_trans h.within hlen, Nat.le_trans h.within' hlen, place, hs.grow hg, hs'.grow hg⟩

theorem position_skips_le (h : s.position ≤ f.size) (sizes : List Nat) :
    (sizes.foldl (skip f) s).position ≤ f.size := by
  induction sizes generalizing s with
  | nil => exact h
  | cons n rest ih => exact ih (position_skip_le h n)

theorem Alike.skips (h : s.Alike f s') (sizes : List Nat) :
    (sizes.foldl (skip f) s).Alike f (sizes.foldl (skip f) s') := by
  obtain ⟨place, hs, hs'⟩ := h.place
  exact ⟨position_skips_le h.within sizes, position_skips_le h.within' sizes, _, hs.skips sizes,
    hs'.skips sizes⟩

end Source

namespace Reader

/-! ## Reading on to the first answer that is no record -/

variable {r r' : Reader} {f g : File} {o : ReadOptions} {offset : Nat} {record : Record}

/-- A record is handed out exactly where one was found. It is counted, and the reader is behind it. -/
theorem after_eq_record {found : Frame} {source : Source}
    (h : r.after found source = (r', .ok (some record))) :
    (∃ rest, found = .record record.payload rest) ∧
      record.stop = r.offset + headerSize + record.payload.length ∧
      r' = { r with source, offset := record.stop, lastGood := record.stop } := by
  by_cases hnothing : found = .nothing
  · subst hnothing
    cases (Prod.mk.inj h).2
  cases hrecord : found.isRecord with
  | false =>
    obtain ⟨_, _, hafter, -, -, hnone, -⟩ := after_lost hrecord hnothing r source
    obtain ⟨-, rfl⟩ := Prod.mk.inj (hafter.symm.trans h)
    exact absurd rfl (hnone record)
  | true =>
    cases found with
    | record payload rest =>
      obtain ⟨rfl, hfound⟩ := Prod.mk.inj h
      obtain rfl := Option.some.inj (Except.ok.inj hfound)
      exact ⟨⟨rest, rfl⟩, rfl, rfl⟩
    | _ => cases hrecord

/-- A call that hands out a record has found it in what was unread. -/
theorem next_eq_record (h : r.next f = (r', .ok (some record))) :
    ∃ rest, Frame.parse r.limit (r.source.unread f) = .record record.payload rest ∧
      record.stop = r.offset + headerSize + record.payload.length ∧
      r' =
        { r with
          source := (r.source.skip f headerSize).skip f record.payload.length
          offset := record.stop
          lastGood := record.stop } := by
  cases hobstacle : r.source.obstacle? f headerSize with
  | some cause =>
    rw [next, hobstacle] at h
    cases (Prod.mk.inj h).2
  | none =>
    rw [next_eq r f hobstacle] at h
    obtain ⟨⟨rest, hfound⟩, hstop, hr'⟩ := after_eq_record h
    rw [hfound] at hr'
    exact ⟨rest, hfound, hstop, hr'⟩

/-- What is unread becomes less with every record. -/
theorem length_unread_lt (h : r.next f = (r', .ok (some record))) :
    (r'.source.unread f).length < (r.source.unread f).length := by
  obtain ⟨rest, hparse, -, rfl⟩ := next_eq_record h
  have hlen := (Frame.rest_of_parse hparse).1
  simp only [Source.unread_skip, List.drop_drop, List.length_drop, headerSize] at hlen ⊢
  omega

/-- What comes of reading on until something else than a record comes. -/
structure Pass where
  records : List Record
  /-- Whether a torn record ended it, or the error. -/
  ending : Except LogError Bool
  /-- The reader then. -/
  reader : Reader
deriving Inhabited

/-- Reads on until something else than a record comes. -/
def pass (f : File) (r : Reader) : Pass :=
  match _h : r.next f with
  | (r', .ok (some record)) =>
    let rest := pass f r'
    { rest with records := record :: rest.records }
  | (r', .ok none) => { records := [], ending := .ok r'.torn, reader := r' }
  | (r', .error e) => { records := [], ending := .error e, reader := r' }
termination_by (r.source.unread f).length
decreasing_by exact length_unread_lt (by assumption)

theorem pass_record (h : r.next f = (r', .ok (some record))) :
    r.pass f = { r'.pass f with records := record :: (r'.pass f).records } := by
  rw [pass]
  split <;> rename_i hnext <;> rw [h] at hnext <;> obtain ⟨rfl, hresult⟩ := Prod.mk.inj hnext
  · obtain rfl := Option.some.inj (Except.ok.inj hresult)
    rfl
  · cases hresult
  · cases hresult

theorem pass_stop {result : Except LogError (Option Record)} (h : r.next f = (r', result))
    (hnone : ∀ record, result ≠ .ok (some record)) :
    r.pass f = { records := [], ending := result.map fun _ => r'.torn, reader := r' } := by
  rw [pass]
  split <;> rename_i hnext <;> obtain ⟨rfl, rfl⟩ := Prod.mk.inj (h.symm.trans hnext)
  · exact absurd rfl (hnone _)
  · rfl
  · rfl

/-- The first record of a pass is what the first call hands out, and the pass goes on from there. -/
theorem next_of_pass {rest : List Record} (h : (r.pass f).records = record :: rest) :
    ∃ r', r.next f = (r', .ok (some record)) ∧ (r'.pass f).records = rest ∧
      (r'.pass f).ending = (r.pass f).ending ∧ (r'.pass f).reader = (r.pass f).reader := by
  rcases hnext : r.next f with ⟨r', e | found⟩
  · rw [pass_stop hnext (by simp)] at h
    cases h
  · cases found with
    | none =>
      rw [pass_stop hnext (by simp)] at h
      cases h
    | some found =>
      rw [pass_record hnext] at h ⊢
      obtain ⟨rfl, rfl⟩ := List.cons.inj h
      exact ⟨r', rfl, rfl, rfl, rfl⟩

/-- The reader after a number of calls. -/
def onward (f : File) : (calls : Nat) → Reader → Reader
  | 0, r => r
  | n + 1, r => onward f n (r.next f).1

/-! ## Readers that cannot be told apart -/

/-- Two readers that report the same and stand at the same place of a file that can be read. -/
structure Alike (f : File) (r r' : Reader) : Prop where
  same : r' = { r with source := r'.source }
  source : r.source.Alike f r'.source
  readable : f.isDirectory = false

/-- What is made of a look at the file does not depend on the source. -/
theorem after_alike (h : r' = { r with source := r'.source }) (found : Frame)
    (source source' : Source) :
    ∃ r₁ r₁' result, r.after found source = (r₁, result) ∧ r'.after found source' = (r₁', result) ∧
      r₁' = { r₁ with source := r₁'.source } ∧ r₁.source = source ∧ r₁'.source = source' := by
  rw [h]
  cases found <;> exact ⟨_, _, _, rfl, rfl, rfl, rfl, rfl⟩

theorem Alike.next (h : r.Alike f r') :
    ∃ r₁ r₁' result, r.next f = (r₁, result) ∧ r'.next f = (r₁', result) ∧ r₁.Alike f r₁' := by
  have hlimit : r'.limit = r.limit := by rw [h.same]
  have hnext := next_eq r f (Source.obstacle?_eq_none h.readable h.source.within _)
  have hnext' := next_eq r' f (Source.obstacle?_eq_none h.readable h.source.within' _)
  rw [hlimit, h.source.unread] at hnext'
  generalize Frame.parse r.limit (r.source.unread f) = found at hnext hnext'
  obtain ⟨r₁, r₁', result, hafter, hafter', hsame, hsource, hsource'⟩ :=
    after_alike h.same found (found.requests.foldl (Source.skip f) r.source)
      (found.requests.foldl (Source.skip f) r'.source)
  refine ⟨r₁, r₁', result, hnext.trans hafter, hnext'.trans hafter', hsame, ?_, h.readable⟩
  rw [hsource, hsource']
  exact h.source.skips _

theorem Alike.pass (h : r.Alike f r') :
    (r'.pass f).records = (r.pass f).records ∧ (r'.pass f).ending = (r.pass f).ending ∧
      (r.pass f).reader.Alike f (r'.pass f).reader := by
  -- By induction on what the first reader has not read, as the pass goes on.
  induction hn : (r.source.unread f).length using Nat.strongRecOn generalizing r r' with
  | ind n ih =>
    obtain ⟨r₁, r₁', result, hnext, hnext', halike⟩ := h.next
    by_cases hrecord : ∃ record, result = .ok (some record)
    · obtain ⟨record, rfl⟩ := hrecord
      obtain ⟨hrecords, hending, hreader⟩ := ih _ (hn ▸ length_unread_lt hnext) halike rfl
      rw [pass_record hnext, pass_record hnext']
      exact ⟨congrArg (record :: ·) hrecords, hending, hreader⟩
    · have hnone : ∀ record, result ≠ .ok (some record) := not_exists.1 hrecord
      have htorn : r₁'.torn = r₁.torn := by rw [halike.same]
      rw [pass_stop hnext hnone, pass_stop hnext' hnone, htorn]
      exact ⟨rfl, rfl, halike⟩

/-! ## Readers that have handed out records only -/

/-- A reader as it is when it was just opened at an offset, but for what it has fetched. -/
structure Fresh (o : ReadOptions) (f : File) (offset : Nat) (r : Reader) : Prop where
  same : r =
    { source := r.source, limit := o.limit, tolerant := o.tolerant, offset, lastGood := offset }
  place : r.source.IsAt f offset
  within : r.source.position ≤ f.size
  readable : f.isDirectory = false

theorem fresh_of_open? (hoffset : offset ≤ f.size) (hf : f.isDirectory = false)
    (h : open? f offset o = .ok r) : r.Fresh o f offset := by
  unfold open? at h
  split at h
  · cases h
  · obtain rfl := Except.ok.inj h
    exact ⟨rfl, ⟨rfl, List.nil_prefix⟩, hoffset, hf⟩

/-- A directory can be opened, and not be read. -/
theorem next_of_open?_directory (hf : f.isDirectory) (h : open? f offset o = .ok r) :
    r.next f = (r, .error (.file .isDirectory)) := by
  obtain ⟨n, rfl⟩ : ∃ n, f = .directory n := by
    cases f with
    | directory n => exact ⟨n, rfl⟩
    | _ => cases hf
  unfold open? at h
  split at h
  · cases h
  · obtain rfl := Except.ok.inj h
    rfl

/-- What can be opened can be opened at any position. -/
theorem exists_open? (h : open? f 0 o = .ok r) (hoffset : offset ≤ File.maxPosition) :
    ∃ r', open? f offset o = .ok r' := by
  have hobstacle : f.obstacle? offset = none := by
    cases f with
    | absent => cases h
    | unnameable => cases h
    | _ => exact if_neg (Nat.not_lt_of_le hoffset)
  rw [open?, hobstacle]
  exact ⟨_, rfl⟩

theorem Fresh.alike (h : r.Fresh o f offset) (h' : r'.Fresh o f offset) : r.Alike f r' where
  same := by rw [h'.same, h.same]
  source := ⟨h.within, h'.within, offset, h.place, h'.place⟩
  readable := h.readable

/-- A reader that hands out a record stays fresh, and stands behind it within the file. -/
theorem Fresh.next (h : r.Fresh o f offset) (hnext : r.next f = (r', .ok (some record))) :
    r'.Fresh o f record.stop ∧ record.stop ≤ f.size := by
  obtain ⟨rest, hparse, hstop, rfl⟩ := next_eq_record hnext
  have hoffset : r.offset = offset := by rw [h.same]
  rw [h.place.unread] at hparse
  have hwithin := (standsIn_of_parse hparse).1
  have hplace := (h.place.skip headerSize).skip record.payload.length
  rw [hoffset] at hstop
  simp only [headerSize] at hwithin hstop hplace
  have hend : offset + min 8 (f.size - offset) +
      min record.payload.length (f.size - (offset + min 8 (f.size - offset))) = record.stop := by
    omega
  rw [hend] at hplace
  refine ⟨⟨?_, hplace, ?_, h.readable⟩, by omega⟩
  · rw [h.same]
  · exact Source.position_skip_le (Source.position_skip_le h.within _) _

/-- Wherever a pass is interrupted, the reader is fresh, and the pass goes on from there. -/
theorem Fresh.onward (h : r.Fresh o f offset) {front rest : List Record}
    (hrecords : (r.pass f).records = front ++ record :: rest) :
    (r.onward f (front.length + 1)).Fresh o f record.stop ∧ record.stop ≤ f.size ∧
      ((r.onward f (front.length + 1)).pass f).records = rest ∧
      ((r.onward f (front.length + 1)).pass f).ending = (r.pass f).ending ∧
      ((r.onward f (front.length + 1)).pass f).reader = (r.pass f).reader := by
  induction front generalizing r offset with
  | nil =>
    obtain ⟨r', hnext, hrest, hending, hreader⟩ := next_of_pass hrecords
    obtain ⟨hfresh, hwithin⟩ := h.next hnext
    have honward : r.onward f 1 = r' := by rw [Reader.onward, Reader.onward, hnext]
    rw [List.length_nil, honward]
    exact ⟨hfresh, hwithin, hrest, hending, hreader⟩
  | cons first front ih =>
    obtain ⟨r', hnext, hrest, hending, hreader⟩ := next_of_pass hrecords
    have honward : r.onward f (front.length + 1 + 1) = r'.onward f (front.length + 1) := by
      rw [Reader.onward, hnext]
    rw [List.length_cons, honward, ← hending, ← hreader]
    exact ih (h.next hnext).1 hrest

end Reader

/-! ## Any calls, while the file grows -/

namespace Reading

/-- Two readings of the same file that went alike so far, and will. -/
structure Alike (s s' : Reading) : Prop where
  file : s'.file = s.file
  answers : s'.answers = s.answers
  reader : s.reader.Alike s.file s'.reader

variable {s s' : Reading}

theorem Alike.turn (h : s.Alike s') (t : Turn) : (s.turn t).Alike (s'.turn t) := by
  cases t with
  | call =>
    obtain ⟨r, r', result, hnext, hnext', halike⟩ := h.reader.next
    show s.call.Alike s'.call
    rw [call_eq hnext, call_eq (h.file.symm ▸ hnext')]
    refine ⟨h.file, ?_, halike⟩
    dsimp only
    rw [h.answers, halike.same]
  | grow more =>
    have hreadable := h.reader.readable
    refine ⟨congrArg (File.append · more) h.file, h.answers, h.reader.same, ?_, ?_⟩
    · exact h.reader.source.grow (s.file.bytes_prefix_append more)
    · exact (s.file.isDirectory_append more).trans hreadable

theorem Alike.run (h : s.Alike s') (turns : List Turn) : (s.run turns).Alike (s'.run turns) := by
  induction turns generalizing s s' with
  | nil => exact h
  | cons t rest ih => exact ih (h.turn t)

end Reading

/-- **Opening a log at the end of a record is the same as going on from there.** Whatever bytes a file
holds, at most as many as have a position: for each record that a reader hands out which was opened at
the beginning, a reader that is opened at the end of that record hands out the records that the first
one hands out after it, and comes to the same end of the file, the same torn record or the same error,
with the same end of the last good record. From there on all that the two report is the same, whatever
is asked, also after an error, and however the file grows. -/
theorem Reader.resumes {f : File} {o : ReadOptions} {r : Reader} {front rest : List Record}
    {record : Record} (hsize : f.size ≤ File.maxPosition) (hopen : Reader.open? f 0 o = .ok r)
    (hrecords : (r.pass f).records = front ++ record :: rest) :
    ∃ r', Reader.open? f record.stop o = .ok r' ∧
      (r'.pass f).records = rest ∧ (r'.pass f).ending = (r.pass f).ending ∧
      (r'.pass f).reader.lastGood = (r.pass f).reader.lastGood ∧
      (r'.pass f).reader.offset = (r.pass f).reader.offset ∧
      ∀ turns,
        (Reading.run { reader := r', file := f } turns).answers =
          (Reading.run { reader := r.onward f (front.length + 1), file := f } turns).answers := by
  -- Nothing is read from a directory, so the file is none.
  have hreadable : f.isDirectory = false := by
    refine Bool.eq_false_iff.2 fun hdirectory => ?_
    rw [Reader.pass_stop (Reader.next_of_open?_directory hdirectory hopen) (by simp)] at hrecords
    exact List.append_ne_nil_of_right_ne_nil front (List.cons_ne_nil record rest) hrecords.symm
  have hfresh := Reader.fresh_of_open? (Nat.zero_le _) hreadable hopen
  obtain ⟨hfresh₁, hwithin, hrest, hending, hreader⟩ := hfresh.onward hrecords
  obtain ⟨r', hopen'⟩ := Reader.exists_open? hopen (Nat.le_trans hwithin hsize)
  have halike := hfresh₁.alike (Reader.fresh_of_open? hwithin hreadable hopen')
  obtain ⟨hrecords', hending', hreader'⟩ := halike.pass
  refine ⟨r', hopen', hrecords'.trans hrest, hending'.trans hending, ?_, ?_, fun turns => ?_⟩
  · rw [hreader'.same, hreader]
  · rw [hreader'.same, hreader]
  · have hstart : Reading.Alike { reader := r.onward f (front.length + 1), file := f }
        { reader := r', file := f } := ⟨rfl, rfl, halike⟩
    exact (hstart.run turns).answers

/-- An empty record and another one follow, and then less than a header. -/
theorem Reader.resumes_before_torn :
    let f := File.ofBytes (frame [1] ++ frame [] ++ frame [2] ++ [5, 0])
    let o : ReadOptions := { tolerant := true }
    f.size ≤ File.maxPosition ∧
      ∃ r r', Reader.open? f 0 o = .ok r ∧ (r.pass f).records = [⟨[1], 9⟩, ⟨[], 17⟩, ⟨[2], 26⟩] ∧
        Reader.open? f 9 o = .ok r' ∧ (r'.pass f).records = [⟨[], 17⟩, ⟨[2], 26⟩] ∧
        (r'.pass f).ending = .ok true ∧ (r'.pass f).reader.lastGood = 26 := by
  intro f o
  have hsize : f.size ≤ File.maxPosition := by decide +kernel
  have hrecords : (Reader.pass f
      { source := { capacity := defaultReadBuffer, position := 0 }, limit := defaultLimit,
        tolerant := true, offset := 0, lastGood := 0 }).records =
      [] ++ ⟨[1], 9⟩ :: [⟨[], 17⟩, ⟨[2], 26⟩] := by decide +kernel
  obtain ⟨r', hopen, hrest, hending, hlast, -, -⟩ := Reader.resumes (o := o) hsize rfl hrecords
  refine ⟨hsize, _, r', rfl, hrecords, hopen, hrest, hending.trans ?_, hlast.trans ?_⟩
  · decide +kernel
  · decide +kernel

end Bourse.Log
