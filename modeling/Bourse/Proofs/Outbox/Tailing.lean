import Bourse.Proofs.Lifetime.Reading
import Bourse.Proofs.Log.Mending
import Bourse.Proofs.Log.Parsing

/-!
# Reading behind a writer

A reader that follows a file has to cope with any bytes in it, and with more of them each time it
looks. `Finds` says which records there are from an offset on: those of the one reading of the
bytes behind it. They stay when the file grows, and a chunk hands out the next of them.
-/

namespace Bourse

namespace Log

/-- The records that stand in a file from an offset on. -/
structure Finds (limit : Nat) (f : File) (offset : Nat) (records : List Record) : Prop where
  within : offset ≤ f.size
  parsed : ∃ ps rest, Parsed limit (f.bytes.drop offset) ps rest ∧ records = recordsFrom offset ps

/-- Where the last of some records ends that begin at an offset. -/
def endOf (offset : Nat) (records : List Record) : Nat :=
  (records.getLast?.map Record.stop).getD offset

@[simp] theorem endOf_nil (offset : Nat) : endOf offset [] = offset := rfl

theorem endOf_concat (offset : Nat) (records : List Record) (r : Record) :
    endOf offset (records ++ [r]) = r.stop := by
  simp [endOf]

theorem endOf_cons (offset : Nat) (r : Record) (records : List Record) :
    endOf offset (r :: records) = endOf r.stop records := by
  rcases List.eq_nil_or_concat records with rfl | ⟨front, last, rfl⟩
  · rfl
  · rw [List.concat_eq_append, ← List.cons_append, endOf_concat, endOf_concat]

theorem endOf_append (offset : Nat) (front records : List Record) :
    endOf offset (front ++ records) = endOf (endOf offset front) records := by
  induction front generalizing offset with
  | nil => rfl
  | cons r front ih => rw [List.cons_append, endOf_cons, endOf_cons, ih]

/-- Records end one behind the other. -/
theorem pairwise_recordsFrom (offset : Nat) (ps : List Bytes) :
    (recordsFrom offset ps).Pairwise fun r r' => r.stop < r'.stop := by
  induction ps generalizing offset with
  | nil => exact List.Pairwise.nil
  | cons p rest ih => exact List.pairwise_cons.2 ⟨fun _ h => lt_stop_of_mem h, ih _⟩

variable {limit offset : Nat} {f g : File} {records : List Record}

theorem exists_finds (limit : Nat) (h : offset ≤ f.size) :
    ∃ records, Finds limit f offset records := by
  obtain ⟨ps, rest, hparsed⟩ := exists_parsed limit (f.bytes.drop offset)
  exact ⟨_, h, ps, rest, hparsed, rfl⟩

/-- What a file grows by adds records and takes none away. -/
theorem Finds.grow (h : Finds limit f offset records) (hg : f.bytes <+: g.bytes) :
    ∃ more, Finds limit g offset (records ++ more) := by
  obtain ⟨hwithin, ps, rest, hparsed, rfl⟩ := h
  obtain ⟨added, hadded⟩ := hg
  obtain ⟨qs, rest', hmore⟩ := exists_parsed limit (rest ++ added)
  have hlen : f.bytes.length ≤ g.bytes.length := by
    rw [← hadded, List.length_append]
    omega
  rw [File.length_bytes, File.length_bytes] at hlen
  have hdrop : g.bytes.drop offset = frames ps ++ (rest ++ added) := by
    have hshort : offset ≤ f.bytes.length := by rwa [File.length_bytes]
    rw [← hadded, List.drop_append_of_le_length hshort, hparsed.bytes, List.append_assoc]
  refine ⟨recordsFrom (offset + (frames ps).length) qs, Nat.le_trans hwithin hlen, ps ++ qs, rest',
    ?_, ?_⟩
  · rw [hdrop]
    exact hmore.append hparsed.fits
  · rw [recordsFrom_append]

/-- The record that stands at the offset is the first one, and the others stand behind it. -/
theorem Finds.cons (h : Finds limit f offset records) {payload rest : Bytes}
    (hparse : Frame.parse limit (f.bytes.drop offset) = .record payload rest) :
    ∃ more, records = ⟨payload, offset + headerSize + payload.length⟩ :: more ∧
      Finds limit f (offset + headerSize + payload.length) more := by
  obtain ⟨hwithin, ps, rest', hparsed, rfl⟩ := h
  obtain ⟨hbytes, hfits⟩ := Frame.parse_eq_record_iff.1 hparse
  have hlen := congrArg List.length hbytes
  rw [List.length_drop, File.length_bytes, List.length_append, length_frame] at hlen
  have hend : offset + headerSize + payload.length ≤ f.size := by omega
  have hdrop : f.bytes.drop (offset + headerSize + payload.length) = rest := by
    rw [Nat.add_assoc, ← List.drop_drop, hbytes, ← length_frame, List.drop_left]
  obtain ⟨qs, rest'', hmore⟩ := exists_parsed limit rest
  have hwhole := hmore.cons hfits
  rw [← hbytes] at hwhole
  obtain ⟨rfl, rfl⟩ := hparsed.unique hwhole
  refine ⟨recordsFrom (offset + headerSize + payload.length) qs, rfl, hend, qs, rest'', ?_, rfl⟩
  rw [hdrop]
  exact hmore

/-- The first of the records stands at the offset, and the others stand behind it. -/
theorem Finds.next {r : Record} (h : Finds limit f offset (r :: records)) :
    ∃ rest, Frame.parse limit (f.bytes.drop offset) = .record r.payload rest ∧
      r = ⟨r.payload, offset + headerSize + r.payload.length⟩ ∧ Finds limit f r.stop records := by
  have hall := h
  obtain ⟨-, ps, rest, hparsed, heq⟩ := h
  cases ps with
  | nil => cases heq
  | cons p ps =>
    have hp := hparsed.fits p List.mem_cons_self
    have hparse : Frame.parse limit (f.bytes.drop offset) = .record p (frames ps ++ rest) := by
      refine Frame.parse_eq_record_iff.2 ⟨?_, hp⟩
      rw [hparsed.bytes, frames_cons, List.append_assoc]
    obtain ⟨more, hcons, hmore⟩ := hall.cons hparse
    cases hcons
    cases heq
    exact ⟨_, hparse, rfl, hmore⟩

/-- Where no records are found none stands. -/
theorem Finds.isRecord_eq_false (h : Finds limit f offset []) :
    (Frame.parse limit (f.bytes.drop offset)).isRecord = false := by
  cases hparse : Frame.parse limit (f.bytes.drop offset) with
  | record payload rest =>
    obtain ⟨more, hcons, -⟩ := h.cons hparse
    cases hcons
  | _ => rfl

/-- Where there is no file there are no records. -/
theorem Finds.eq_nil (h : Finds limit .absent offset records) : records = [] := by
  cases records with
  | nil => rfl
  | cons r more =>
    obtain ⟨rest, hparse, -, -⟩ := Finds.next h
    have hlen := (Frame.rest_of_parse hparse).1
    have hnone : (File.bytes .absent).drop offset = [] := List.drop_nil
    rw [hnone, List.length_nil, headerSize] at hlen
    omega

/-- Behind some of the records stand the others. -/
theorem Finds.drop {front : List Record} (h : Finds limit f offset (front ++ records)) :
    Finds limit f (endOf offset front) records := by
  induction front generalizing offset with
  | nil => exact h
  | cons r front ih =>
    obtain ⟨-, -, -, hmore⟩ := Finds.next h
    rw [endOf_cons]
    exact ih hmore

end Log

namespace Publisher

variable {limit offset : Nat} {outbox : File} {records : List Log.Record} {r : Log.Reader}

/-- A chunk has the next records, as many as it has room for. It is full unless there are fewer. A
reader that is kept stands behind them. -/
theorem readChunk_finds (hreg : outbox.isRegular) (n : Nat)
    (h : Log.Finds limit outbox offset records) (hr : r.StandsAt outbox offset)
    (hlimit : r.limit = limit) :
    ∃ r' ending, readChunk outbox n r = (r', records.take n, ending) ∧
      (ending = .more ↔ n ≤ records.length) ∧
      (ending = .more → r'.StandsAt outbox (Log.endOf offset (records.take n)) ∧
        r'.limit = limit) := by
  induction n generalizing r offset records with
  | zero => exact ⟨r, .more, rfl, by simp, fun _ => ⟨hr, hlimit⟩⟩
  | succ n ih =>
    rw [readChunk]
    cases records with
    | nil =>
      have hnone := h.isRecord_eq_false
      rcases hnext : r.next outbox with ⟨r', e | found⟩
      · refine ⟨r', _, rfl, ?_⟩
        split <;> simp
      · cases found with
        | none => exact ⟨r', .idle, rfl, by simp⟩
        | some found =>
          obtain ⟨rest, hparse, -, -⟩ := hr.next hreg hnext
          rw [hlimit] at hparse
          rw [hparse] at hnone
          cases hnone
    | cons found more =>
      obtain ⟨rest, hparse, hfound, hmore⟩ := Log.Finds.next h
      rw [← hlimit] at hparse
      obtain ⟨r₁, hnext, hlimit₁, hstands⟩ := hr.next_record hreg hparse
      rw [← hfound] at hnext
      have hstop : found.stop = offset + Log.headerSize + found.payload.length := by rw [hfound]
      rw [← hstop] at hstands
      obtain ⟨r', ending, hchunk, hend, hkeep⟩ := ih hmore hstands (hlimit₁.trans hlimit)
      rw [hnext]
      dsimp only
      rw [hchunk]
      refine ⟨r', ending, rfl, ?_, ?_⟩
      · rw [hend, List.length_cons, Nat.succ_le_succ_iff]
      · rw [List.take_succ_cons, Log.endOf_cons]
        exact hkeep

end Publisher

end Bourse
