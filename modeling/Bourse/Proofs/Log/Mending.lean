import Bourse.Proofs.Log.Appending

/-!
# Writing a log, cutting it and writing on

A log is written by any number of sessions (`Session`), each of which opens the file, adds records
in batches and flushes every batch. Whatever the buffers are, the file has the frames of the
payloads one behind the other, and the offsets that the writer returned are those that a reader
finds (`writeAll_ok`). So a file that was cut at any byte is read back up to the last record that
was returned an offset within the cut, and goes on from there once the torn end is removed:
`replay_mended`.
-/

namespace Bourse.Log

/-! ## Sessions of a writer -/

/-- A session of a writer: the size of its buffer and the batches of payloads that it adds, each of
which is flushed. -/
structure Session where
  buffer : Nat
  batches : List (List Bytes)

/-- A log that is being written: the writer at its end, its file, and the records that were added,
with the offsets that were returned. -/
structure Draft where
  writer : Writer
  file : File
  records : List Record

namespace Draft

/-- Adds a record. -/
def add (d : Draft) (payload : Bytes) : Except LogError Draft :=
  (d.writer.append d.file payload).map fun (writer, file) =>
    { writer, file, records := d.records ++ [{ payload, stop := writer.offset }] }

/-- Writes what is pending to the file. -/
def flush (d : Draft) : Draft :=
  let (writer, file) := d.writer.flush d.file
  { d with writer, file }

/-- Adds a batch of records and flushes it. -/
def addBatch (d : Draft) (batch : List Bytes) : Except LogError Draft :=
  (batch.foldlM add d).map flush

end Draft

namespace Session

/-- All payloads of a session. -/
def payloads (s : Session) : List Bytes :=
  s.batches.flatten

/-- Carries out a session on a file, of which the records so far are known. -/
def write (log : File × List Record) (s : Session) : Except LogError (File × List Record) :=
  match Writer.open? log.1 s.buffer with
  | (_, .error e) => .error e
  | (file, .ok writer) =>
    (s.batches.foldlM Draft.addBatch { writer, file, records := log.2 }).map fun d =>
      (d.file, d.records)

end Session

/-- Carries out sessions one after the other: the file in the end, and the records that were added,
with the offsets that were returned. -/
def writeAll (file : File) (sessions : List Session) : Except LogError (File × List Record) :=
  sessions.foldlM Session.write (file, [])

/-! ## What sessions write -/

/-- If every step succeeds and adds what it is to add, so does a run of steps. -/
theorem foldlM_ok {σ α β ε : Type} (Inv : σ → List β → Prop) (out : α → List β)
    (step : σ → α → Except ε σ) {l : List α}
    (hstep : ∀ a ∈ l, ∀ s done, Inv s done → ∃ s', step s a = .ok s' ∧ Inv s' (done ++ out a))
    {s : σ} {done : List β} (hs : Inv s done) :
    ∃ s', l.foldlM step s = .ok s' ∧ Inv s' (done ++ l.flatMap out) := by
  induction l generalizing s done with
  | nil => exact ⟨s, rfl, by simpa using hs⟩
  | cons a rest ih =>
    obtain ⟨s₁, h₁, hs₁⟩ := hstep a List.mem_cons_self s done hs
    obtain ⟨s', h', hs'⟩ := ih (fun b hb => hstep b (List.mem_cons_of_mem _ hb)) hs₁
    refine ⟨s', ?_, by simpa using hs'⟩
    rw [List.foldlM_cons, h₁]
    exact h'

theorem Writer.offset_put (w : Writer) (f : File) (b : ByteArray) :
    (w.put f b).1.offset = w.offset := by
  unfold put
  dsimp only
  split
  · rfl
  · split <;> split <;> rfl

/-- What `append` returns is the offset behind the record. -/
theorem Writer.offset_append {w w' : Writer} {f f' : File} {payload : Bytes}
    (h : w.append f payload = .ok (w', f')) :
    w'.offset = w.offset + headerSize + payload.length := by
  rw [append] at h
  split at h
  · cases h
  · rw [Except.ok.injEq, Prod.mk.injEq] at h
    rw [← h.1]
    simp only [offset_put]

/-- A writer begins at the end of its file. -/
theorem Writer.offset_open? {f g : File} {buffer : Nat} {w : Writer}
    (h : open? f buffer = (g, .ok w)) : w.offset = g.size := by
  unfold open? at h
  split at h
  · cases h
  · cases h
    rfl

/-- A draft to which these payloads were added behind the bytes that were there. -/
structure Draft.Holds (old : Bytes) (d : Draft) (ps : List Bytes) : Prop where
  writer : d.writer.Holds d.file (old ++ frames ps)
  offset : d.writer.offset = (old ++ frames ps).length
  records : d.records = recordsFrom old.length ps

theorem Draft.Holds.add {old : Bytes} {d : Draft} {ps : List Bytes} (h : d.Holds old ps)
    {payload : Bytes} (hp : payload.length ≤ maxLength) :
    ∃ d', d.add payload = .ok d' ∧ d'.Holds old (ps ++ [payload]) := by
  obtain ⟨w, f, happ, hw⟩ := h.writer.append hp
  have hoff := Writer.offset_append happ
  have hbytes : old ++ frames ps ++ frame payload = old ++ frames (ps ++ [payload]) := by simp
  refine ⟨⟨w, f, d.records ++ [{ payload, stop := w.offset }]⟩, by rw [Draft.add, happ]; rfl,
    hbytes ▸ hw, ?_, ?_⟩
  · rw [← hbytes, List.length_append, length_frame, ← Nat.add_assoc, ← h.offset]
    exact hoff
  · rw [recordsFrom_append, ← h.records]
    simp only [recordsFrom, hoff, h.offset, List.length_append]

/-- A draft of which nothing is pending. -/
structure Draft.Rests (old : Bytes) (d : Draft) (ps : List Bytes) : Prop extends
    Draft.Holds old d ps where
  bytes : d.file.bytes = old ++ frames ps

theorem Draft.Holds.flush {old : Bytes} {d : Draft} {ps : List Bytes} (h : d.Holds old ps) :
    d.flush.Rests old ps where
  writer := h.writer.flush.1
  offset := h.offset
  records := h.records
  bytes := h.writer.flush.2

theorem Draft.Rests.addBatch {old : Bytes} {d : Draft} {ps : List Bytes} (h : d.Rests old ps)
    {batch : List Bytes} (hp : ∀ p ∈ batch, p.length ≤ maxLength) :
    ∃ d', d.addBatch batch = .ok d' ∧ d'.Rests old (ps ++ batch) := by
  obtain ⟨d', hrun, hd'⟩ := foldlM_ok (Draft.Holds old) (fun p => [p]) Draft.add
    (fun p hmem _ _ hd => Draft.Holds.add hd (hp p hmem)) h.toHolds
  refine ⟨d'.flush, by rw [Draft.addBatch, hrun]; rfl, ?_⟩
  simpa using hd'.flush

/-- A log to which these payloads were added behind the bytes that were there. -/
structure Written (old : Bytes) (log : File × List Record) (ps : List Bytes) : Prop where
  usable : log.1.Usable
  bytes : log.1.bytes = old ++ frames ps
  records : log.2 = recordsFrom old.length ps

theorem Written.session {old : Bytes} {log : File × List Record} {ps : List Bytes}
    (h : Written old log ps) {s : Session}
    (hp : ∀ p ∈ s.payloads, p.length ≤ maxLength) :
    ∃ log', s.write log = .ok log' ∧ Written old log' (ps ++ s.payloads) := by
  obtain ⟨w, f, hopen, hw, hf⟩ := Writer.open?_ok h.usable s.buffer
  have hstart : Draft.Rests old { writer := w, file := f, records := log.2 } ps :=
    { writer := h.bytes ▸ hw
      offset := by rw [Writer.offset_open? hopen, ← File.length_bytes, hf, h.bytes]
      records := h.records
      bytes := by rw [hf, h.bytes] }
  obtain ⟨d, hrun, hd⟩ := foldlM_ok (Draft.Rests old) id Draft.addBatch
    (fun batch hmem _ _ hd => Draft.Rests.addBatch hd fun p hb =>
      hp p (List.mem_flatten_of_mem hmem hb)) hstart
  rw [List.flatMap_id] at hd
  refine ⟨(d.file, d.records), ?_, .inr hd.writer.regular, hd.bytes, hd.records⟩
  rw [Session.write, hopen]
  dsimp only
  rw [hrun]
  rfl

/-- Sessions add the frames of their payloads, and the offsets returned are where these end. -/
theorem writeAll_ok {file : File} (hf : file.Usable) {sessions : List Session}
    (hp : ∀ p ∈ sessions.flatMap Session.payloads, p.length ≤ maxLength) :
    ∃ log, writeAll file sessions = .ok log ∧
      Written file.bytes log (sessions.flatMap Session.payloads) := by
  have hstart : Written file.bytes (file, []) [] := ⟨hf, by simp, rfl⟩
  exact foldlM_ok (Written file.bytes) Session.payloads Session.write
    (fun s hmem _ _ hlog => Written.session hlog fun p hs =>
      hp p (List.mem_flatMap_of_mem hmem hs)) hstart

/-! ## Records within a cut -/

/-- The records that end within the first `n` bytes of the log. -/
def within (records : List Record) (n : Nat) : List Record :=
  records.take (records.countP (·.stop ≤ n))

/-- Where the last of the records ends. -/
def lastStop (records : List Record) : Nat :=
  (records.getLast?.map Record.stop).getD 0

theorem take_recordsFrom (start : Nat) (ps : List Bytes) (k : Nat) :
    (recordsFrom start ps).take k = recordsFrom start (ps.take k) := by
  induction ps generalizing start k with
  | nil => simp [recordsFrom]
  | cons p rest ih =>
    cases k with
    | zero => rfl
    | succ k => simp [recordsFrom, ih]

theorem lt_stop_of_mem {start : Nat} {ps : List Bytes} {r : Record}
    (h : r ∈ recordsFrom start ps) : start < r.stop := by
  induction ps generalizing start with
  | nil => cases h
  | cons p rest ih =>
    rw [recordsFrom, headerSize] at h
    rcases List.mem_cons.1 h with rfl | h
    · show start < start + 8 + p.length
      omega
    · have := ih h
      omega

/-- The records that end within a cut are those whose frames the cut leaves whole. -/
theorem countP_stop (start : Nat) (ps : List Bytes) (n : Nat) :
    (recordsFrom start ps).countP (·.stop ≤ start + n) = fit (ps.map frame) n := by
  induction ps generalizing start n with
  | nil => rfl
  | cons p rest ih =>
    rw [recordsFrom, List.countP_cons, List.map_cons, fit, length_frame]
    by_cases h : headerSize + p.length ≤ n
    · have hn : start + n = start + headerSize + p.length + (n - (headerSize + p.length)) := by
        omega
      rw [if_pos h, hn, ih, if_pos (by simp)]
    · have hrest : (recordsFrom (start + headerSize + p.length) rest).countP
          (·.stop ≤ start + n) = 0 := by
        refine List.countP_eq_zero.2 fun r hr => ?_
        have := lt_stop_of_mem hr
        simp only [decide_eq_true_eq]
        omega
      have hp : ¬ start + headerSize + p.length ≤ start + n := by omega
      rw [if_neg h, hrest, if_neg (by simpa using hp)]

theorem within_recordsFrom (ps : List Bytes) (n : Nat) :
    within (recordsFrom 0 ps) n = recordsFrom 0 (ps.take (fit (ps.map frame) n)) := by
  have := countP_stop 0 ps n
  rw [Nat.zero_add] at this
  rw [within, this, take_recordsFrom]

theorem lastStop_recordsFrom (ps : List Bytes) :
    lastStop (recordsFrom 0 ps) = (frames ps).length := by
  rw [lastStop, lastGood_recordsFrom, Nat.zero_add]

/-- How a strict reader finds the end of a log that was cut `rest` bytes behind a record. -/
def cutEnding (stop rest : Nat) : Except LogError Bool :=
  if rest = 0 then .ok false
  else if rest < headerSize then .error (.truncatedHeader stop)
  else .error (.truncatedPayload stop)

theorem ending_cut {o : ReadOptions} (ho : o.tolerant = false) {p : Bytes} (hp : Fits o.limit p)
    {k : Nat} (hk : k < (frame p).length) (stop : Nat) :
    o.ending stop (Frame.parse o.limit ((frame p).take k)) = cutEnding stop k := by
  rw [Frame.parse_cut hp.1 hp.2 hk, cutEnding]
  by_cases h0 : k = 0
  · rw [if_pos h0, if_pos h0]
    rfl
  · rw [if_neg h0, if_neg h0]
    by_cases h8 : k < headerSize
    · rw [if_pos h8, if_pos h8]
      simp [ReadOptions.ending, ho]
    · rw [if_neg h8, if_neg h8]
      simp [ReadOptions.ending, ho]

/-- What a strict reader finds behind the records of a log that was cut. -/
theorem ending_behind {o : ReadOptions} {tail : Bytes}
    (h : tail = [] ∨ ∃ p, Fits o.limit p ∧ ∃ j < (frame p).length, tail = (frame p).take j)
    (stop : Nat) :
    ReadOptions.ending { o with tolerant := false } stop (Frame.parse o.limit tail) =
      cutEnding stop tail.length := by
  rcases h with rfl | ⟨p, hfits, j, hj, rfl⟩
  · rfl
  · rw [List.length_take, Nat.min_eq_left (Nat.le_of_lt hj)]
    exact ending_cut (o := { o with tolerant := false }) rfl hfits hj stop

/-- What comes of a log of these records when it is cut to its first `n` bytes. -/
structure Mendable (o : ReadOptions) (file : File) (written : List Record) (n : Nat) : Prop where
  lastStop_le : lastStop (within written n) ≤ n
  /-- A tolerant replay hands out the records within the cut, and notices whether there is more. -/
  tolerant : ∀ {σ ε : Type} (ofLog : LogError → ε) (visit : σ → Record → Attempt σ ε Unit) (s : σ),
    replay { o with tolerant := true } (file.truncate n) ofLog visit s =
      (Attempt.forEach visit s (within written n)).andThen fun s _ =>
        (s, .ok
          { records := (within written n).length
            lastGood := lastStop (within written n)
            torn := decide (lastStop (within written n) < n) })
  /-- A strict replay hands out the same records and minds whatever follows them. -/
  strict : ∀ {σ ε : Type} (ofLog : LogError → ε) (visit : σ → Record → Attempt σ ε Unit) (s : σ),
    replay { o with tolerant := false } (file.truncate n) ofLog visit s =
      (Attempt.forEach visit s (within written n)).andThen fun s _ =>
        (s, ((cutEnding (lastStop (within written n))
            (n - lastStop (within written n))).mapError ofLog).map fun torn =>
          { records := (within written n).length
            lastGood := lastStop (within written n)
            torn })
  /-- Once the torn end is removed, more can be written, and a strict replay hands out the old
  records and the new ones, with offsets that leave no gap. -/
  mended : ∀ sessions : List Session,
    (∀ p ∈ sessions.flatMap Session.payloads, Fits o.limit p) →
    ∃ log,
      writeAll ((file.truncate n).truncate (lastStop (within written n))) sessions = .ok log ∧
      log.2.map Record.payload = sessions.flatMap Session.payloads ∧
      within written n ++ log.2 =
        recordsFrom 0 ((within written n ++ log.2).map Record.payload) ∧
      ∀ {σ ε : Type} (ofLog : LogError → ε) (visit : σ → Record → Attempt σ ε Unit) (s : σ),
        replay { o with tolerant := false } log.1 ofLog visit s =
          (Attempt.forEach visit s (within written n ++ log.2)).andThen fun s _ =>
            (s, .ok
              { records := (within written n ++ log.2).length
                lastGood := lastStop (within written n ++ log.2)
                torn := false })

/-- More is written behind whole records, and a strict replay hands out the old records and the new
ones. -/
theorem writeAll_behind {o : ReadOptions} {f : File} (hf : f.Usable) {qs : List Bytes}
    (hb : f.bytes = frames qs) (hqs : ∀ p ∈ qs, Fits o.limit p) {sessions : List Session}
    (hfits : ∀ p ∈ sessions.flatMap Session.payloads, Fits o.limit p) :
    ∃ log, writeAll f sessions = .ok log ∧
      log.2.map Record.payload = sessions.flatMap Session.payloads ∧
      recordsFrom 0 qs ++ log.2 = recordsFrom 0 (qs ++ sessions.flatMap Session.payloads) ∧
      ∀ {σ ε : Type} (ofLog : LogError → ε) (visit : σ → Record → Attempt σ ε Unit) (s : σ),
        replay { o with tolerant := false } log.1 ofLog visit s =
          (Attempt.forEach visit s (recordsFrom 0 qs ++ log.2)).andThen fun s _ =>
            (s, .ok
              { records := (recordsFrom 0 qs ++ log.2).length
                lastGood := lastStop (recordsFrom 0 qs ++ log.2)
                torn := false }) := by
  obtain ⟨log, hrun, hlog⟩ := writeAll_ok hf fun p hmem => (hfits p hmem).2
  rw [hb] at hlog
  have hrecords : recordsFrom 0 qs ++ log.2 =
      recordsFrom 0 (qs ++ sessions.flatMap Session.payloads) := by
    rw [recordsFrom_append, hlog.records, Nat.zero_add]
  have hnew : log.1.bytes = frames (qs ++ sessions.flatMap Session.payloads) ++ [] := by
    rw [hlog.bytes, frames_append, List.append_nil]
  have hall : ∀ p ∈ qs ++ sessions.flatMap Session.payloads, Fits o.limit p :=
    fun p hmem => (List.mem_append.1 hmem).elim (hqs p) (hfits p)
  refine ⟨log, hrun, ?_, hrecords, fun ofLog visit s => ?_⟩
  · rw [hlog.records, map_payload_recordsFrom]
  · rw [hrecords, lastStop_recordsFrom, length_recordsFrom]
    exact replay_frames (o := { o with tolerant := false }) hlog.usable hnew hall rfl ofLog visit s

theorem mendable_of_frames {o : ReadOptions} {f : File} (hf : f.Usable) {ps : List Bytes}
    (hb : f.bytes = frames ps) (hp : ∀ p ∈ ps, Fits o.limit p) {n : Nat} (hn : n ≤ f.size) :
    Mendable o f (recordsFrom 0 ps) n := by
  obtain ⟨tail, htake, hcut⟩ := take_frames ps n
  have hwithin := within_recordsFrom ps n
  generalize fit (ps.map frame) n = k at htake hcut hwithin
  have hqs : ∀ p ∈ ps.take k, Fits o.limit p := fun p hmem => hp p (List.mem_of_mem_take hmem)
  have hlast : lastStop (recordsFrom 0 (ps.take k)) = (frames (ps.take k)).length :=
    lastStop_recordsFrom _
  have hbytes : (f.truncate n).bytes = frames (ps.take k) ++ tail := by
    rw [File.bytes_truncate, hb, htake]
  have hlen : n = (frames (ps.take k)).length + tail.length := by
    rw [← List.length_append, ← hbytes, File.bytes_truncate, List.length_take, File.length_bytes,
      Nat.min_eq_left hn]
  have hcut' : tail = [] ∨ ∃ p, Fits o.limit p ∧ ∃ j < (frame p).length, tail = (frame p).take j :=
    hcut.imp_right fun ⟨p, hmem, hj⟩ => ⟨p, hp p (List.mem_of_getElem? hmem), hj⟩
  have htorn : Torn { o with tolerant := true } tail := torn_cut rfl hcut'
  constructor
  case lastStop_le =>
    rw [hwithin, hlast]
    omega
  case tolerant =>
    intro σ ε ofLog visit s
    have hmore : (!tail.isEmpty) = decide ((frames (ps.take k)).length < n) := by
      cases tail with
      | nil => simp [hlen]
      | cons b rest => simp [hlen]
    rw [hwithin, hlast, ← hmore, length_recordsFrom]
    exact replay_torn (o := { o with tolerant := true }) (hf.truncate n) hbytes hqs htorn
      ofLog visit s
  case strict =>
    intro σ ε ofLog visit s
    have hrest : n - (frames (ps.take k)).length = tail.length := by omega
    rw [hwithin, hlast, hrest, length_recordsFrom, ← ending_behind hcut']
    exact replay_frames (o := { o with tolerant := false }) (hf.truncate n) hbytes hqs
      htorn.noRecord ofLog visit s
  case mended =>
    intro sessions hfits
    rw [hwithin, hlast]
    have hkept : ((f.truncate n).truncate (frames (ps.take k)).length).bytes =
        frames (ps.take k) := by
      rw [File.bytes_truncate, hbytes, List.take_left]
    obtain ⟨log, hrun, hpayloads, hrecords, hreplay⟩ :=
      writeAll_behind ((hf.truncate n).truncate _) hkept hqs hfits
    refine ⟨log, hrun, hpayloads, ?_, hreplay⟩
    rw [hrecords, map_payload_recordsFrom]

/-- **A log can be cut at any byte and written on.** What any sessions wrote is read back up to the
last record that ends within the cut, at the offsets that `append` returned. A strict reader minds
the rest, and says whether it is less than a header; once it is removed, the log goes on where the
last whole record ended. -/
theorem replay_mended {o : ReadOptions} {sessions : List Session}
    (hfits : ∀ p ∈ sessions.flatMap Session.payloads, Fits o.limit p) :
    ∃ log, writeAll .absent sessions = .ok log ∧
      log.2.map Record.payload = sessions.flatMap Session.payloads ∧
      ∀ n ≤ log.1.size, Mendable o log.1 log.2 n := by
  obtain ⟨log, hrun, hlog⟩ := writeAll_ok (.inl rfl) fun p hmem => (hfits p hmem).2
  have hrecords : log.2 = recordsFrom 0 (sessions.flatMap Session.payloads) := hlog.records
  refine ⟨log, hrun, by rw [hrecords, map_payload_recordsFrom], fun n hn => ?_⟩
  rw [hrecords]
  exact mendable_of_frames hlog.usable hlog.bytes hfits hn

/-- Two sessions write three records, the second of which is empty. The log is cut within the header
of the third, and a strict replay says so after the first two. -/
theorem replay_mended_header :
    ∃ log, writeAll .absent [⟨1, [[[1, 2, 3], []]]⟩, ⟨0, [[[7]]]⟩] = .ok log ∧
      within log.2 22 = [⟨[1, 2, 3], 11⟩, ⟨[], 19⟩] ∧ Mendable {} log.1 log.2 22 := by
  obtain ⟨log, hrun, -, hmend⟩ :=
    @replay_mended {} [⟨1, [[[1, 2, 3], []]]⟩, ⟨0, [[[7]]]⟩] (by decide)
  have hlog : (writeAll .absent [⟨1, [[[1, 2, 3], []]]⟩, ⟨0, [[[7]]]⟩]).map
      (fun log => (log.1.size, log.2)) =
        .ok (28, [⟨[1, 2, 3], 11⟩, ⟨[], 19⟩, ⟨[7], 28⟩]) := by
    rfl
  rw [hrun] at hlog
  obtain ⟨hsize, hrecords⟩ := Prod.mk.inj (Except.ok.inj hlog)
  refine ⟨log, hrun, ?_, hmend 22 (by rw [hsize]; decide)⟩
  rw [hrecords]
  rfl

end Bourse.Log
