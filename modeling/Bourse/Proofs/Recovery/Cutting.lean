import Bourse.Proofs.Recovery.Recovering

/-!
# Files that were cut

A log of a journal that is cut at any byte holds the records of its first commands and less than
another record. An outbox that is cut holds the events of its first commands, then events of a
command that is not closed, and then less than a record. How many commands there are is decided by
where their records end.
-/

namespace Bourse.Recovery

/-- Of how many commands the part of a log, which has this size for the first commands of a list,
ends within the first `n` bytes. -/
def whole (size : List Command → Nat) (cs : List Command) (n : Nat) : Nat :=
  (List.range cs.length).countP fun t => size (cs.take (t + 1)) ≤ n

/-- A count of an initial part of a range. -/
theorem countP_range {n k : Nat} (hk : k ≤ n) {p : Nat → Bool}
    (h : ∀ t < n, p t = true ↔ t < k) : (List.range n).countP p = k := by
  induction n generalizing k with
  | zero => simp at hk; simp [hk]
  | succ n ih =>
    rw [List.range_succ, List.countP_append, List.countP_singleton]
    rcases Nat.lt_or_eq_of_le hk with hlt | rfl
    · have hn : ¬ p n = true := by
        rw [h n (Nat.lt_succ_self n)]
        omega
      rw [ih (Nat.le_of_lt_succ hlt) fun t ht => h t (Nat.lt_succ_of_lt ht), if_neg hn,
        Nat.add_zero]
    · have hn : p n = true := (h n (Nat.lt_succ_self n)).2 (Nat.lt_succ_self n)
      have hrest := ih (Nat.le_refl n) fun t ht => by
        rw [h t (Nat.lt_succ_of_lt ht)]
        omega
      rw [hrest, if_pos hn]

theorem whole_eq {size : List Command → Nat} {cs : List Command} {n k : Nat} (hk : k ≤ cs.length)
    (h : ∀ t < cs.length, size (cs.take (t + 1)) ≤ n ↔ t < k) : whole size cs n = k := by
  refine countP_range hk fun t ht => ?_
  rw [decide_eq_true_eq]
  exact h t ht

/-- The beginning of a record, or nothing. -/
def Begun (ps : List Bytes) (tail : Bytes) : Prop :=
  tail = [] ∨ ∃ p ∈ ps, ∃ k < (Log.frame p).length, tail = (Log.frame p).take k

theorem begun_nil (ps : List Bytes) : Begun ps [] :=
  Or.inl rfl

theorem Begun.mono {ps qs : List Bytes} {tail : Bytes} (h : Begun ps tail)
    (hsub : ∀ p ∈ ps, p ∈ qs) : Begun qs tail := by
  rcases h with rfl | ⟨p, hp, k, hk, rfl⟩
  · exact Or.inl rfl
  · exact Or.inr ⟨p, hsub p hp, k, hk, rfl⟩

theorem Begun.torn {o : Log.ReadOptions} (ho : o.tolerant = true) {ps : List Bytes}
    (hp : ∀ p ∈ ps, Log.Fits o.limit p) {tail : Bytes} (h : Begun ps tail) : Log.Torn o tail := by
  rcases h with rfl | ⟨p, hmem, k, hk, rfl⟩
  · exact Log.torn_cut ho (Or.inl rfl)
  · exact Log.torn_cut ho (Or.inr ⟨p, hp p hmem, k, hk, rfl⟩)

/-- Frames that were cut. -/
theorem frames_cut (ps : List Bytes) (n : Nat) :
    ∃ m tail, m ≤ ps.length ∧ (Log.frames ps).take n = Log.frames (ps.take m) ++ tail ∧
      Begun ps tail ∧
      ∀ t < ps.length, (Log.frames (ps.take (t + 1))).length ≤ n ↔ t < m := by
  obtain ⟨tail, ht, hcase⟩ := Log.take_frames ps n
  have hle := Log.fit_le_length (ps.map Log.frame) n
  rw [List.length_map] at hle
  refine ⟨_, tail, hle, ht, ?_, ?_⟩
  · rcases hcase with rfl | ⟨p, hp, k, hk, rfl⟩
    · exact Or.inl rfl
    · exact Or.inr ⟨p, List.mem_of_getElem? hp, k, hk, rfl⟩
  · intro t hlt
    have hfit := Log.le_fit_iff (ps.map Log.frame) n (t + 1) (by rw [List.length_map]; omega)
    rw [← List.map_take] at hfit
    exact hfit.symm

/-- A log of commands that was cut. -/
theorem log_cut (f : Format) (cs : List Command) (n : Nat) :
    ∃ m tail, m ≤ cs.length ∧
      (Journal.logBytes f cs).take n = Journal.logBytes f (cs.take m) ++ tail ∧
      Begun (Journal.payloads f (Actor.number 0 cs)) tail ∧
      ∀ t < cs.length, (Journal.logBytes f (cs.take (t + 1))).length ≤ n ↔ t < m := by
  have htake (k : Nat) : Journal.logBytes f (cs.take k) =
      Log.frames ((Journal.payloads f (Actor.number 0 cs)).take k) := by
    rw [Journal.logBytes, ← Actor.number_take, Journal.payloads, List.map_take]
    rfl
  obtain ⟨m, tail, hm, hcut, hbegun, hiff⟩ := frames_cut (Journal.payloads f (Actor.number 0 cs)) n
  have hlen : (Journal.payloads f (Actor.number 0 cs)).length = cs.length := by
    simp [Journal.payloads]
  refine ⟨m, tail, by omega, ?_, hbegun, ?_⟩
  · rw [htake]
    exact hcut
  · intro t ht
    rw [htake]
    exact hiff t (by omega)

/-- Events of one command that were cut: unless all of them are there, none closes the command. -/
theorem group_cut (f : Format) {front : List Event} (hfront : Event.Open front) (last : List Event)
    {n : Nat} (hn : last = [] ∨ n < (Journal.eventBytes f (front ++ last)).length)
    (hlast : last.length ≤ 1) :
    ∃ dangling tail, (Journal.eventBytes f (front ++ last)).take n =
        Journal.eventBytes f dangling ++ tail ∧ Event.Open dangling ∧
      (∀ e ∈ dangling, e ∈ front ++ last) ∧ Begun ((front ++ last).map f.encodeEvent) tail := by
  obtain ⟨m, tail, hm, hcut, hbegun, hiff⟩ := frames_cut ((front ++ last).map f.encodeEvent) n
  have hle : m ≤ front.length := by
    rcases hn with rfl | hn
    · simpa using hm
    · refine Nat.le_of_not_lt fun hgt => ?_
      have hlen : front.length < ((front ++ last).map f.encodeEvent).length := by omega
      have hall := (hiff front.length hlen).2 (by omega)
      rw [List.length_map, List.length_append] at hlen
      rw [List.take_of_length_le (by rw [List.length_map, List.length_append]; omega)] at hall
      exact absurd hall (Nat.not_le.2 hn)
  refine ⟨front.take m, tail, ?_, ?_, ?_, hbegun⟩
  · rw [Journal.eventBytes, hcut, ← List.map_take, List.take_append_of_le_length hle]
    rfl
  · intro e he
    exact hfront e (List.mem_of_mem_take he)
  · intro e he
    exact List.mem_append_left _ (List.mem_of_mem_take he)

/-- The first `n` bytes of an outbox: all events of the first `k` commands, events of a command that
is not closed, and less than a record. -/
structure OutboxCut (f : Format) (b : Book) (last : Seq) (cs : List Command) (n k : Nat)
    (dangling : List Event) (tail : Bytes) : Prop where
  le_length : k ≤ cs.length
  modest : b.Modest (cs.take k)
  bytes : (Journal.eventBytes f (Journal.events b (Actor.number last cs))).take n =
    Journal.eventBytes f (Journal.events b (Actor.number last (cs.take k))) ++
      Journal.eventBytes f dangling ++ tail
  unclosed : Event.Open dangling
  mem : ∀ e ∈ dangling, e ∈ Journal.events b (Actor.number last cs)
  begun : Begun ((Journal.events b (Actor.number last cs)).map f.encodeEvent) tail
  /-- The first `k` commands are those whose events end within the first `n` bytes. -/
  closed_iff : ∀ t < cs.length, b.Modest (cs.take (t + 1)) →
    ((Journal.eventBytes f (Journal.events b (Actor.number last (cs.take (t + 1))))).length ≤ n
      ↔ t < k)

section OutboxCut

variable {f : Format} {b : Book} {last : Seq} {c : Command} {rest : List Command} {n k : Nat}
  {dangling : List Event} {tail : Bytes}

theorem OutboxCut.nil : OutboxCut f b last [] n 0 [] [] where
  le_length := Nat.le_refl _
  modest := trivial
  bytes := List.take_nil
  unclosed := fun e he => (by cases he)
  mem := fun e he => (by cases he)
  begun := begun_nil _
  closed_iff := fun t ht => (by cases ht)

/-- The first command is closed within the cut, which goes on in the events of the others. -/
theorem OutboxCut.cons (hle : (b.execute c).2.length ≤ maxEvents)
    (hfit : (Journal.eventBytes f (Journal.group b (last + 1, c))).length ≤ n)
    (h : OutboxCut f (b.execute c).1 (last + 1) rest
      (n - (Journal.eventBytes f (Journal.group b (last + 1, c))).length) k dangling tail) :
    OutboxCut f b last (c :: rest) n (k + 1) dangling tail := by
  have hcons := Journal.events_cons_of_le hle last
  refine ⟨Nat.succ_le_succ h.le_length, ⟨hle, h.modest⟩, ?_, h.unclosed, ?_, ?_, ?_⟩
  · rw [List.take_succ_cons, hcons, hcons, Journal.eventBytes_append, Journal.eventBytes_append,
      List.take_append, List.take_of_length_le hfit, h.bytes]
    simp only [List.append_assoc]
  · intro e he
    rw [hcons]
    exact List.mem_append_right _ (h.mem e he)
  · refine h.begun.mono fun p hp => ?_
    rw [hcons, List.map_append]
    exact List.mem_append_right _ hp
  · intro t ht hm
    rw [List.take_succ_cons, hcons, Journal.eventBytes_append, List.length_append]
    cases t with
    | zero => simpa using hfit
    | succ t =>
      have hiff := h.closed_iff t (Nat.lt_of_succ_lt_succ ht) hm.2
      omega

/-- The cut is within the events of the first command, or that one has too many and is never closed. -/
theorem OutboxCut.within
    (hcut : (Journal.eventBytes f (Journal.events b (Actor.number last (c :: rest)))).take n =
      Journal.eventBytes f dangling ++ tail)
    (hopen : Event.Open dangling) (hmem : ∀ e ∈ dangling, e ∈ Journal.group b (last + 1, c))
    (hbegun : Begun ((Journal.group b (last + 1, c)).map f.encodeEvent) tail)
    (hlt : (b.execute c).2.length ≤ maxEvents →
      n < (Journal.eventBytes f (Journal.group b (last + 1, c))).length) :
    OutboxCut f b last (c :: rest) n 0 dangling tail := by
  refine ⟨Nat.zero_le _, trivial, hcut, hopen, ?_, ?_, ?_⟩
  · intro e he
    rw [Journal.events_cons]
    exact List.mem_append_left _ (hmem e he)
  · refine hbegun.mono fun p hp => ?_
    rw [Journal.events_cons, List.map_append]
    exact List.mem_append_left _ hp
  · intro t _ hm
    have hless := hlt hm.1
    rw [List.take_succ_cons, Journal.events_cons_of_le hm.1, Journal.eventBytes_append,
      List.length_append]
    omega

end OutboxCut

/-- An outbox that was cut. -/
theorem outbox_cut (f : Format) (b : Book) (last : Seq) (cs : List Command) (n : Nat) :
    ∃ k dangling tail, OutboxCut f b last cs n k dangling tail := by
  induction cs generalizing b last n with
  | nil => exact ⟨0, [], [], .nil⟩
  | cons c rest ih =>
    rcases Journal.group_cases b (last + 1, c) with ⟨hle, front, e, hg, hfront, -⟩ | ⟨hlt, hopen⟩
    · by_cases hfit : (Journal.eventBytes f (Journal.group b (last + 1, c))).length ≤ n
      · obtain ⟨k, dangling, tail, hrest⟩ := ih (b.execute c).1 (last + 1)
          (n - (Journal.eventBytes f (Journal.group b (last + 1, c))).length)
        exact ⟨k + 1, dangling, tail, .cons hle hfit hrest⟩
      · have hlt := Nat.lt_of_not_le hfit
        obtain ⟨dangling, tail, hcut, hopen, hmem, hbegun⟩ :=
          group_cut f hfront [e] (Or.inr (hg ▸ hlt)) (Nat.le_refl _)
        rw [← hg] at hcut hmem hbegun
        refine ⟨0, dangling, tail, .within ?_ hopen hmem hbegun fun _ => hlt⟩
        rw [Journal.events_cons, Journal.eventBytes_append,
          List.take_append_of_le_length (Nat.le_of_lt hlt), hcut]
    · obtain ⟨dangling, tail, hcut, hopen, hmem, hbegun⟩ :=
        group_cut f (n := n) hopen [] (Or.inl rfl) (Nat.zero_le _)
      rw [List.append_nil] at hcut hmem hbegun
      refine ⟨0, dangling, tail, .within ?_ hopen hmem hbegun ?_⟩
      · rw [Journal.events_cons_of_lt hlt, hcut]
      · intro hle
        exact absurd hle (Nat.not_le.2 hlt)

end Bourse.Recovery
