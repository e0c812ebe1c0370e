import Bourse.Log.Writer
import Bourse.Proofs.Log.Scanning

/-!
# What a writer adds to a log

A writer and its file together hold the bytes of the file and behind them those that are pending.
However the buffer splits them, adding a record appends its frame to these contents, and the file
itself only ever grows by a first part of what is pending.
-/

namespace Bourse.Log.Writer

/-- The bytes of a log including those that are not yet in its file. -/
def contents (w : Writer) (f : File) : Bytes :=
  f.bytes ++ w.pending.data.toList

/-- A step of a writer that adds `more` to the log. -/
structure Adds (w : Writer) (f : File) (more : Bytes) (w' : Writer) (f' : File) : Prop where
  regular : f'.isRegular
  contents : w'.contents f' = w.contents f ++ more
  grows : f.bytes <+: f'.bytes

theorem bytes_prefix_contents (w : Writer) (f : File) : f.bytes <+: w.contents f :=
  List.prefix_append ..

theorem Adds.trans {w w' w'' : Writer} {f f' f'' : File} {more more' : Bytes}
    (h : Adds w f more w' f') (h' : Adds w' f' more' w'' f'') :
    Adds w f (more ++ more') w'' f'' where
  regular := h'.regular
  contents := by rw [h'.contents, h.contents, List.append_assoc]
  grows := h.grows.trans h'.grows

theorem bytes_append_of_regular {f : File} (h : f.isRegular) (more : ByteArray) :
    (f.append more).bytes = f.bytes ++ more.data.toList ∧ (f.append more).isRegular := by
  cases f with
  | regular content => exact ⟨File.bytes_append content more, rfl⟩
  | _ => cases h

theorem contents_flush {w : Writer} {f : File} (h : f.isRegular) :
    (w.flush f).2.bytes = w.contents f ∧ (w.flush f).2.isRegular := by
  exact bytes_append_of_regular h w.pending

/-- Flushing moves what is pending into the file. -/
theorem adds_flush {w : Writer} {f : File} (h : f.isRegular) :
    Adds w f [] (w.flush f).1 (w.flush f).2 := by
  obtain ⟨hb, hr⟩ := contents_flush (w := w) h
  refine ⟨hr, ?_, ?_⟩
  · show (w.flush f).2.bytes ++ [] = w.contents f ++ []
    rw [hb]
  · rw [hb]
    exact bytes_prefix_contents w f

/-- Bytes that go around an empty buffer. -/
theorem adds_direct {w : Writer} {f : File} (h : f.isRegular) (hw : w.pending.data.toList = [])
    (b : ByteArray) : Adds w f b.data.toList w (f.append b) := by
  obtain ⟨hb, hr⟩ := bytes_append_of_regular h b
  refine ⟨hr, ?_, ?_⟩
  · rw [Writer.contents, Writer.contents, hb, hw]
    simp
  · rw [hb]
    exact List.prefix_append ..

/-- Bytes that find room in the buffer. -/
theorem adds_buffered {w : Writer} {f : File} (h : f.isRegular) (b : ByteArray) :
    Adds w f b.data.toList { w with pending := w.pending ++ b } f where
  regular := h
  contents := by simp [Writer.contents]
  grows := List.prefix_refl _

theorem pending_eq_nil_of_size {w : Writer} (h : w.pending.size = 0) :
    w.pending.data.toList = [] := by
  have : w.pending.data.toList.length = 0 := by simpa using h
  exact List.length_eq_zero_iff.1 this

theorem adds_put {w : Writer} {f : File} (h : f.isRegular) (hw : w.pending.size ≤ w.capacity)
    (b : ByteArray) : Adds w f b.data.toList (w.put f b).1 (w.put f b).2 := by
  unfold put
  dsimp only
  split
  · exact adds_buffered h b
  · next hroom =>
    by_cases hlt : w.capacity - w.pending.size < b.size
    · have hfl := adds_flush (w := w) h
      rw [if_pos hlt]
      split
      · exact hfl.trans (adds_direct hfl.regular rfl b)
      · exact hfl.trans (adds_buffered hfl.regular b)
    · rw [if_neg hlt]
      dsimp only
      split
      · next hcap =>
        -- The piece is as large as the buffer and there is room for it, so nothing is pending.
        exact adds_direct h (pending_eq_nil_of_size (by omega)) b
      · exact adds_buffered h b

theorem capacity_put {w : Writer} {f : File} (b : ByteArray) :
    (w.put f b).1.capacity = w.capacity := by
  unfold put
  dsimp only
  split
  · rfl
  · split <;> split <;> rfl

theorem pending_put_le {w : Writer} {f : File} (hw : w.pending.size ≤ w.capacity)
    (b : ByteArray) : (w.put f b).1.pending.size ≤ (w.put f b).1.capacity := by
  rw [capacity_put]
  unfold put
  dsimp only
  split
  · next hroom =>
    rw [ByteArray.size_append]
    omega
  · split
    · split
      · exact Nat.zero_le _
      · show (ByteArray.empty ++ b).size ≤ w.capacity
        rw [ByteArray.size_append]
        have : ¬ w.capacity ≤ b.size := by assumption
        show 0 + b.size ≤ w.capacity
        omega
    · split
      · exact hw
      · show (w.pending ++ b).size ≤ w.capacity
        rw [ByteArray.size_append]
        have : ¬ w.capacity - w.pending.size < b.size := by assumption
        omega

/-- A writer whose buffer is not overfull. -/
def Sound (w : Writer) : Prop :=
  w.pending.size ≤ w.capacity

/-- A record whose length fits the header can always be added. -/
theorem append_ok {w : Writer} {f : File} (h : f.isRegular) (hw : w.Sound) {payload : Bytes}
    (hp : payload.length ≤ maxLength) :
    ∃ w' f', w.append f payload = .ok (w', f') ∧ Adds w f (frame payload) w' f' ∧ w'.Sound := by
  have h₁ := adds_put h hw ((frame payload).take headerSize).toByteArray
  have hw₁ := pending_put_le (f := f) hw ((frame payload).take headerSize).toByteArray
  generalize hput : w.put f ((frame payload).take headerSize).toByteArray = first at h₁ hw₁
  obtain ⟨w₁, f₁⟩ := first
  have h₂ := adds_put h₁.regular hw₁ payload.toByteArray
  have hw₂ := pending_put_le (f := f₁) hw₁ payload.toByteArray
  generalize hput' : w₁.put f₁ payload.toByteArray = second at h₂ hw₂
  obtain ⟨w₂, f₂⟩ := second
  refine ⟨{ w₂ with offset := w₂.offset + headerSize + payload.length }, f₂, ?_, ?_, hw₂⟩
  · rw [append, if_neg (Nat.not_lt.2 hp), hput]
    dsimp only
    rw [hput']
  · have := h₁.trans h₂
    simp only [List.data_toByteArray, List.toList_toArray, frame_take_headerSize] at this
    exact ⟨this.regular, this.contents, this.grows⟩

/-- A writer at the end of a regular file, together with which it holds these bytes. -/
structure Holds (w : Writer) (f : File) (bytes : Bytes) : Prop where
  regular : f.isRegular
  sound : w.Sound
  contents : w.contents f = bytes

theorem Holds.append {w : Writer} {f : File} {bytes payload : Bytes} (h : w.Holds f bytes)
    (hp : payload.length ≤ maxLength) :
    ∃ w' f', w.append f payload = .ok (w', f') ∧ w'.Holds f' (bytes ++ frame payload) := by
  obtain ⟨w', f', happ, hadds, hsound⟩ := append_ok h.regular h.sound hp
  refine ⟨w', f', happ, hadds.regular, hsound, ?_⟩
  rw [hadds.contents, h.contents]

/-- Flushing brings everything into the file. -/
theorem Holds.flush {w : Writer} {f : File} {bytes : Bytes} (h : w.Holds f bytes) :
    (w.flush f).1.Holds (w.flush f).2 bytes ∧ (w.flush f).2.bytes = bytes := by
  have hadds := adds_flush (w := w) h.regular
  refine ⟨⟨hadds.regular, Nat.zero_le _, ?_⟩, ?_⟩
  · rw [hadds.contents, h.contents, List.append_nil]
  · rw [(contents_flush h.regular).1, h.contents]

/-- A payload that no header can announce is refused. -/
theorem append_refused {w : Writer} {f : File} {payload : Bytes} (hp : maxLength < payload.length) :
    w.append f payload = .error (.payloadTooLarge w.offset payload.length maxLength) := by
  rw [append, if_pos hp]

/-- A file that can be written is opened at its end. -/
theorem open?_ok {f : File} (h : f.Usable) (buffer : Nat) :
    ∃ w g, open? f buffer = (g, .ok w) ∧ w.Holds g f.bytes ∧ g.bytes = f.bytes := by
  obtain ⟨g, hg, hr, hbytes⟩ := h.create
  refine ⟨{ capacity := bufferSize buffer, offset := g.size }, g, ?_, ⟨hr, Nat.zero_le _, ?_⟩,
    hbytes⟩
  · rw [open?, hg]
  · rw [← hbytes]
    simp [contents]

theorem capacity_open? {f g : File} {buffer : Nat} {w : Writer}
    (h : open? f buffer = (g, .ok w)) : w.capacity = bufferSize buffer := by
  unfold open? at h
  split at h
  · cases h
  · cases h
    rfl

/-- Opening a file adds nothing to it. -/
theorem bytes_of_open? {f g : File} {buffer : Nat} {result : Except LogError Writer}
    (h : open? f buffer = (g, result)) : g.bytes = f.bytes := by
  have hsame (husable : f.Usable) : g.bytes = f.bytes := by
    obtain ⟨created, hcreate, -, hbytes⟩ := husable.create
    rw [open?, hcreate] at h
    obtain ⟨rfl, -⟩ := Prod.mk.inj h
    exact hbytes
  cases f with
  | absent => exact hsame (Or.inl rfl)
  | regular content => exact hsame (Or.inr rfl)
  | directory =>
    cases h
    rfl
  | unnameable =>
    cases h
    rfl

/-- A writer that was opened stands at the end of its file, to which nothing was added. -/
theorem holds_of_open? {f g : File} {buffer : Nat} {w : Writer}
    (h : open? f buffer = (g, .ok w)) : w.Holds g f.bytes ∧ g.bytes = f.bytes := by
  have husable : f.Usable := by
    cases f with
    | absent => exact Or.inl rfl
    | regular content => exact Or.inr rfl
    | directory => cases h
    | unnameable => cases h
  obtain ⟨w', g', hopen, hholds⟩ := open?_ok husable buffer
  rw [h] at hopen
  cases hopen
  exact hholds

/-- Opening a regular file changes nothing. -/
theorem open?_of_regular {f : File} (h : f.isRegular) (buffer : Nat) :
    ∃ w, open? f buffer = (f, .ok w) ∧ w.Holds f f.bytes := by
  obtain ⟨w, g, hopen, hholds, hsame⟩ := open?_ok (Or.inr h) buffer
  obtain rfl : g = f := File.eq_of_bytes_eq hholds.regular h hsame
  exact ⟨w, hopen, hholds⟩

/-- Flushing changes nothing when everything is in the file. -/
theorem Holds.flush_eq {w : Writer} {f : File} (h : w.Holds f f.bytes) : (w.flush f).2 = f := by
  obtain ⟨hflushed, hbytes⟩ := h.flush
  exact File.eq_of_bytes_eq hflushed.regular h.regular hbytes

end Bourse.Log.Writer
