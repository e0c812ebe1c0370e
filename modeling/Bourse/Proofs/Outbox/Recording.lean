import Bourse.Outbox.Emitter

/-!
# What an emitter puts

Recording a command comes down to putting a list of events one after the other: the events of the
command and the one that closes it or, for a command with too many events, as many as there are
places for. Their places are their positions in that list, so no two of them share one.
-/

namespace Bourse

/-- Gives events of one command their places, counted from `start`. -/
def Event.numberFrom (seq : Seq) (request : UInt64) (start : Nat) (kinds : List EventKind) :
    List Event :=
  (kinds.zipIdx start).map fun (kind, i) => { seq, idx := UInt16.ofNat i, request, kind }

/-- The kinds of event that are put for a command, in order. -/
def recordedKinds (kinds : List EventKind) : List EventKind :=
  if kinds.length ≤ maxEvents then kinds ++ [.commandEnd] else kinds.take maxEvents

/-- The events that are put for a command. -/
def Event.recorded (seq : Seq) (request : UInt64) (kinds : List EventKind) : List Event :=
  Event.number seq request (recordedKinds kinds)

theorem Event.numberFrom_cons (seq : Seq) (request : UInt64) (start : Nat) (kind : EventKind)
    (kinds : List EventKind) :
    numberFrom seq request start (kind :: kinds) =
      { seq, idx := UInt16.ofNat start, request, kind } ::
        numberFrom seq request (start + 1) kinds := by
  simp [numberFrom, List.zipIdx_cons]

namespace Emitter

variable {σ : Type}

/-- After a failure nothing more is put. -/
theorem foldl_emit_of_failure (put : Sink σ) {e : Emitter σ} (h : e.failure.isSome)
    (kinds : List EventKind) : kinds.foldl (emit put) e = e := by
  induction kinds with
  | nil => rfl
  | cons kind rest ih =>
    have hstay : emit put e kind = e := by rw [emit, if_pos h]
    rw [List.foldl_cons, hstay, ih]

/-- What is still put once `count` events were. -/
def remaining (count : Nat) (kinds : List EventKind) : List EventKind :=
  if count + kinds.length ≤ maxEvents then kinds ++ [.commandEnd]
  else kinds.take (maxEvents - count)

/-- What becomes of a command after `count` of its events. -/
def outcome (count : Nat) (kinds : List EventKind) : Except LogError Nat :=
  if count + kinds.length ≤ maxEvents then .ok (count + kinds.length) else .error .tooManyEvents

theorem remaining_cons {count : Nat} (h : count < maxEvents) (kind : EventKind)
    (rest : List EventKind) :
    remaining count (kind :: rest) = kind :: remaining (count + 1) rest := by
  have hsum : count + (kind :: rest).length = count + 1 + rest.length := by
    rw [List.length_cons]
    omega
  unfold remaining
  rw [hsum]
  split
  · rfl
  · rw [show maxEvents - count = (maxEvents - (count + 1)) + 1 by omega, List.take_succ_cons]

theorem outcome_cons (count : Nat) (kind : EventKind) (rest : List EventKind) :
    outcome count (kind :: rest) = outcome (count + 1) rest := by
  have hsum : count + (kind :: rest).length = count + 1 + rest.length := by
    rw [List.length_cons]
    omega
  rw [outcome, outcome, hsum]

/-- The emitter goes through the events that are left and then reports what became of them. -/
theorem finish_foldl_emit (put : Sink σ) (seq : Seq) (request : UInt64) (sink : σ) (count : Nat)
    (h : count ≤ maxEvents) (kinds : List EventKind) :
    (kinds.foldl (emit put) { sink, seq, request, count }).finish put =
      (Attempt.forEach put sink (Event.numberFrom seq request count (remaining count kinds))).andThen
        fun sink _ => (sink, outcome count kinds) := by
  induction kinds generalizing sink count with
  | nil =>
    have hroom : count + ([] : List EventKind).length ≤ maxEvents := h
    rw [remaining, outcome, if_pos hroom, if_pos hroom, List.nil_append, Event.numberFrom_cons]
    simp only [List.foldl_nil, finish, Attempt.forEach]
    rcases put sink _ with ⟨sink', _ | _⟩ <;> rfl
  | cons kind rest ih =>
    by_cases hfull : maxEvents ≤ count
    · -- There is no place for this event: nothing of the rest is put.
      have hstop : emit put { sink, seq, request, count } kind =
          { sink, seq, request, count, failure := some .tooManyEvents } := by
        simp [emit, hfull]
      have hover : ¬ count + (kind :: rest).length ≤ maxEvents := by
        rw [List.length_cons]
        omega
      have hzero : maxEvents - count = 0 := by omega
      rw [List.foldl_cons, hstop, foldl_emit_of_failure put rfl, remaining, outcome,
        if_neg hover, if_neg hover, hzero, List.take_zero]
      rfl
    · have hlt : count < maxEvents := Nat.lt_of_not_le hfull
      rw [remaining_cons hlt, outcome_cons, Event.numberFrom_cons, List.foldl_cons]
      simp only [Attempt.forEach, emit, Option.isSome_none, Bool.false_eq_true, if_false,
        if_neg hfull]
      rcases hput : put sink { seq, idx := UInt16.ofNat count, request, kind } with ⟨sink', _ | _⟩
      · rw [foldl_emit_of_failure put rfl]
        rfl
      · exact ih sink' (count + 1) hlt

/-- Recording a command puts its events one after the other. -/
theorem record_eq (put : Sink σ) (sink : σ) (seq : Seq) (request : UInt64)
    (kinds : List EventKind) :
    record put sink seq request kinds =
      (Attempt.forEach put sink (Event.recorded seq request kinds)).andThen fun sink _ =>
        (sink, outcome 0 kinds) := by
  have hrest : remaining 0 kinds = recordedKinds kinds := by
    rw [remaining, recordedKinds, Nat.zero_add, Nat.sub_zero]
  rw [record, finish_foldl_emit put seq request sink 0 (Nat.zero_le _) kinds, hrest]
  rfl

end Emitter

/-! ## The places of recorded events -/

namespace Event

theorem length_recordedKinds_le (kinds : List EventKind) :
    (recordedKinds kinds).length ≤ maxEvents + 1 := by
  unfold recordedKinds
  split
  · rw [List.length_append, List.length_singleton]
    omega
  · rw [List.length_take]
    omega

theorem getElem?_recorded {seq : Seq} {request : UInt64} {kinds : List EventKind} {i : Nat}
    {e : Event} (h : (recorded seq request kinds)[i]? = some e) :
    e.seq = seq ∧ e.idx.toNat = i ∧ e.request = request ∧ (recordedKinds kinds)[i]? = some e.kind := by
  rw [recorded, number, List.getElem?_map, Option.map_eq_some_iff] at h
  obtain ⟨⟨kind, k⟩, hk, rfl⟩ := h
  rw [List.getElem?_zipIdx, Option.map_eq_some_iff] at hk
  obtain ⟨kind', hkind, heq⟩ := hk
  obtain ⟨rfl, rfl⟩ := Prod.mk.inj heq
  have hlt : i < maxEvents + 1 :=
    Nat.lt_of_lt_of_le (List.getElem?_eq_some_iff.1 hkind).1 (length_recordedKinds_le kinds)
  refine ⟨rfl, ?_, rfl, hkind⟩
  show (UInt16.ofNat (0 + i)).toNat = i
  rw [Nat.zero_add, UInt16.toNat_ofNat']
  exact Nat.mod_eq_of_lt hlt

end Event

end Bourse
