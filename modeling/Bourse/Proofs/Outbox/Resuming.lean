import Bourse.Proofs.Lifetime.Publishing
import Bourse.Proofs.Log.Mending
import Mathlib.Data.List.DropRight

/-!
# Going back to the end of a command

A publisher that fails goes back behind the last end of a command that it came to. So what it deals
with is one run of postings after the other, each of which begins where the run before it has
committed: `Resumes`. `Follows` says what a history of publications and stored cursors owes to such
runs, and `Reached` is what has to be known of them to add the next posting, to go back, or to store
the cursor.
-/

namespace Bourse

/-- What a publisher does that others can see. -/
inductive Effect where
  | published (event : Event)
  | stored (offset : Nat)
deriving DecidableEq

namespace Effect

def event? : Effect → Option Event
  | published event => some event
  | stored _ => none

def offset? : Effect → Option Nat
  | published _ => none
  | stored offset => some offset

/-- The events that were published, in order. -/
def events (past : List Effect) : List Event :=
  past.filterMap event?

/-- The cursor that was stored last. -/
def cursor? (past : List Effect) : Option Nat :=
  (past.filterMap offset?).getLast?

@[simp] theorem events_append (past more : List Effect) :
    events (past ++ more) = events past ++ events more :=
  List.filterMap_append ..

@[simp] theorem events_published (event : Event) : events [published event] = [event] := rfl

@[simp] theorem events_stored (offset : Nat) : events [stored offset] = [] := rfl

@[simp] theorem cursor?_published (past : List Effect) (event : Event) :
    cursor? (past ++ [published event]) = cursor? past := by
  simp [cursor?, offset?]

@[simp] theorem cursor?_stored (past : List Effect) (offset : Nat) :
    cursor? (past ++ [stored offset]) = some offset := by
  simp [cursor?, offset?]

end Effect

theorem eraseDups_concat_of_mem {l : List Nat} {a : Nat} (h : a ∈ l) :
    (l ++ [a]).eraseDups = l.eraseDups := by
  simp [List.eraseDups_append, List.removeAll, h]

theorem eraseDups_concat_of_not_mem {l : List Nat} {a : Nat} (h : a ∉ l) :
    (l ++ [a]).eraseDups = l.eraseDups ++ [a] := by
  simp [List.eraseDups_append, List.removeAll, h, List.eraseDups_cons]

/-- An event with its record. -/
structure Posting where
  record : Log.Record
  event : Event
deriving DecidableEq

namespace Posting

/-- The events that some records hold, up to the first record that holds none. -/
def read (f : Format) : List Log.Record → List Posting
  | [] => []
  | r :: rest =>
    match f.decodeEvent r.payload with
    | .error _ => []
    | .ok event => ⟨r, event⟩ :: read f rest

/-- The postings that are to be published. -/
def business (l : List Posting) : List Posting :=
  l.filter fun x => !x.event.isCommandEnd

/-- Where the records of the postings end. -/
def positions (l : List Posting) : List Nat :=
  l.map fun x => x.record.stop

/-- The postings up to the last one that closes a command. -/
def committed (l : List Posting) : List Posting :=
  l.rdropWhile fun x => !x.event.isCommandEnd

/-- Runs of postings that follow those of `before`. Each begins behind the last end of a command
that lies behind the run before it. -/
def Resumes (all : List Posting) : (before : List Posting) → List (List Posting) → Prop
  | _, [] => True
  | before, run :: runs => before ++ run <+: all ∧ Resumes all (committed (before ++ run)) runs

/-- The postings behind which the next run begins. -/
def resume (before : List Posting) (runs : List (List Posting)) : List Posting :=
  runs.foldl (fun before run => committed (before ++ run)) before

/-- A history of what was done about some postings. What was published are the events of runs of
postings, without the ends of commands, and every run begins behind the last end of a command that
the one before it came to. Without those that were published before, these are the first of all that
are to be published. A stored cursor is the end of a command, and what lies before it was
published. -/
structure Follows (all : List Posting) (runs : List (List Posting)) (past : List Effect) :
    Prop where
  resumes : Resumes all [] runs
  published : Effect.events past = (business runs.flatten).map Posting.event
  distinct : (positions (business runs.flatten)).eraseDups <+: positions (business all)
  stored : ∀ offset, Effect.cursor? past = some offset → ∃ front x, front ++ [x] <+: all ∧
    x.event.isCommandEnd = true ∧ x.record.stop = offset ∧
      ∀ y ∈ business front, y ∈ business runs.flatten

/-- The postings that lie behind a publisher in the last of its runs. -/
def front (runs : List (List Posting)) (run : List Posting) : List Posting :=
  resume [] runs ++ run

/-- A publisher is in a run that follows others. It has come to all the postings of `done` and to no
others, and it was in order at every moment. -/
structure Reached (all : List Posting) (runs : List (List Posting)) (run done : List Posting)
    (past : List Effect) : Prop where
  follows : Follows all (runs ++ [run]) past
  behind : front runs run <+: done
  within : done <+: all
  distinct : (positions (business (runs ++ [run]).flatten)).eraseDups = positions (business done)
  earlier : ∀ q, q <+: past → ∃ runs, Follows all runs q

/-! ## Postings -/

section Lists

variable {f : Format} {rs : List Log.Record} {l more all before run : List Posting} {x : Posting}
  {runs : List (List Posting)}

theorem read_cons {r : Log.Record} {event : Event} (h : f.decodeEvent r.payload = .ok event)
    (rest : List Log.Record) : read f (r :: rest) = ⟨r, event⟩ :: read f rest := by
  rw [read, h]

theorem prefix_read (f : Format) (rs more : List Log.Record) :
    read f rs <+: read f (rs ++ more) := by
  induction rs with
  | nil => exact List.nil_prefix
  | cons r rest ih =>
    rw [List.cons_append, read, read]
    split
    · exact List.prefix_refl _
    · exact (List.prefix_cons_inj _).2 ih

theorem read_take (f : Format) (rs : List Log.Record) (n : Nat) :
    read f (rs.take n) = (read f rs).take n := by
  induction rs generalizing n with
  | nil => rw [List.take_nil, read, List.take_nil]
  | cons r rest ih =>
    cases n with
    | zero => rfl
    | succ n =>
      rw [List.take_succ_cons, read, read]
      split
      · rfl
      · rw [ih, List.take_succ_cons]

theorem map_record_read (f : Format) (rs : List Log.Record) :
    (read f rs).map Posting.record <+: rs := by
  induction rs with
  | nil => exact List.prefix_refl _
  | cons r rest ih =>
    rw [read]
    split
    · exact List.nil_prefix
    · exact (List.prefix_cons_inj _).2 ih

/-- Behind some of the postings lie those of the records behind theirs. -/
theorem read_eq_append (h : l <+: read f rs) :
    ∃ rest, rs = l.map Posting.record ++ rest ∧ read f rs = l ++ read f rest := by
  induction l generalizing rs with
  | nil => exact ⟨rs, rfl, rfl⟩
  | cons x l ih =>
    cases rs with
    | nil => exact absurd (List.prefix_nil.1 h) (List.cons_ne_nil x l)
    | cons r rs =>
      rw [read] at h ⊢
      split at h
      · exact absurd (List.prefix_nil.1 h) (List.cons_ne_nil x l)
      · obtain ⟨rfl, hl⟩ := List.cons_prefix_cons.1 h
        obtain ⟨rest, rfl, hread⟩ := ih hl
        exact ⟨rest, rfl, by rw [hread]; rfl⟩

@[simp] theorem business_append (l more : List Posting) :
    business (l ++ more) = business l ++ business more :=
  List.filter_append ..

theorem business_of_end (h : x.event.isCommandEnd = true) : business [x] = [] := by
  simp [business, h]

theorem business_of_not_end (h : x.event.isCommandEnd = false) : business [x] = [x] := by
  simp [business, h]

@[simp] theorem positions_nil : positions [] = [] := rfl

@[simp] theorem positions_append (l more : List Posting) :
    positions (l ++ more) = positions l ++ positions more :=
  List.map_append

theorem prefix_positions_business (h : l <+: all) :
    positions (business l) <+: positions (business all) := by
  obtain ⟨more, rfl⟩ := h
  rw [business_append, positions_append]
  exact List.prefix_append ..

theorem prefix_committed (l : List Posting) : committed l <+: l :=
  List.rdropWhile_prefix _ l

@[simp] theorem committed_committed (l : List Posting) : committed (committed l) = committed l :=
  List.rdropWhile_idempotent ..

theorem committed_concat_of_end (h : x.event.isCommandEnd = true) (l : List Posting) :
    committed (l ++ [x]) = l ++ [x] :=
  List.rdropWhile_concat_neg _ _ _ (by simp [h])

theorem committed_concat_of_not_end (h : x.event.isCommandEnd = false) (l : List Posting) :
    committed (l ++ [x]) = committed l :=
  List.rdropWhile_concat_pos _ _ _ (by simp [h])

/-- What is committed ends with the end of a command. -/
theorem isCommandEnd_of_committed (h : committed l = before ++ [x]) :
    x.event.isCommandEnd = true := by
  have hne : committed l ≠ [] := by simp [h]
  have hlast := List.rdropWhile_last_not (fun x : Posting => !x.event.isCommandEnd) l hne
  change ¬ (!((committed l).getLast hne).event.isCommandEnd) = true at hlast
  simpa [h] using hlast

/-! ## Runs -/

theorem resumes_concat : Resumes all before (runs ++ [run]) ↔
    Resumes all before runs ∧ resume before runs ++ run <+: all := by
  induction runs generalizing before with
  | nil => simp [Resumes, resume]
  | cons first runs ih =>
    rw [List.cons_append, Resumes, Resumes, ih, and_assoc]
    rfl

theorem resume_concat (before : List Posting) (runs : List (List Posting)) (run : List Posting) :
    resume before (runs ++ [run]) = committed (resume before runs ++ run) := by
  simp [resume]

theorem Resumes.mono (h : Resumes all before runs) (hall : all <+: more) :
    Resumes more before runs := by
  induction runs generalizing before with
  | nil => trivial
  | cons run runs ih => exact ⟨h.1.trans hall, ih h.2⟩

theorem mem_of_mem_resume (h : x ∈ resume before runs) : x ∈ before ∨ x ∈ runs.flatten := by
  induction runs generalizing before with
  | nil => exact Or.inl h
  | cons run runs ih =>
    rw [List.flatten_cons, List.mem_append]
    rcases ih h with hx | hx
    · rcases List.mem_append.1 ((prefix_committed _).subset hx) with hx | hx
      · exact Or.inl hx
      · exact Or.inr (Or.inl hx)
    · exact Or.inr (Or.inr hx)

theorem mem_of_mem_front (h : x ∈ front runs run) : x ∈ (runs ++ [run]).flatten := by
  rw [List.flatten_concat, List.mem_append]
  rcases List.mem_append.1 h with hx | hx
  · rcases mem_of_mem_resume hx with hnil | hx
    · cases hnil
    · exact Or.inl hx
  · exact Or.inr hx

theorem flatten_concat_nil (runs : List (List Posting)) :
    (runs ++ [[]]).flatten = runs.flatten := by
  rw [List.flatten_concat, List.append_nil]

theorem flatten_concat_concat (runs : List (List Posting)) (run : List Posting) (x : Posting) :
    (runs ++ [run ++ [x]]).flatten = (runs ++ [run]).flatten ++ [x] := by
  rw [List.flatten_concat, List.flatten_concat, List.append_assoc]

end Lists

/-! ## What a history owes to its runs -/

variable {all more run done : List Posting} {runs : List (List Posting)} {past : List Effect}
  {x : Posting}

theorem Follows.mono (h : Follows all runs past) (hall : all <+: more) :
    Follows more runs past where
  resumes := h.resumes.mono hall
  published := h.published
  distinct := h.distinct.trans (prefix_positions_business hall)
  stored offset hoffset := by
    obtain ⟨front, x, hfront, hx⟩ := h.stored offset hoffset
    exact ⟨front, x, hfront.trans hall, hx⟩

theorem reached_nil (all : List Posting) : Reached all [] [] [] [] := by
  have hfollows : Follows all [[]] [] := by
    refine ⟨⟨List.nil_prefix, trivial⟩, rfl, List.nil_prefix, ?_⟩
    intro offset hoffset
    cases hoffset
  refine ⟨hfollows, List.nil_prefix, List.nil_prefix, rfl, ?_⟩
  intro q hq
  rw [List.prefix_nil.1 hq]
  exact ⟨_, hfollows⟩

theorem Reached.mono (h : Reached all runs run done past) (hall : all <+: more) :
    Reached more runs run done past where
  follows := h.follows.mono hall
  behind := h.behind
  within := h.within.trans hall
  distinct := h.distinct
  earlier q hq := by
    obtain ⟨runs, hq⟩ := h.earlier q hq
    exact ⟨runs, hq.mono hall⟩

/-- A history that is in order with one more effect was in order at every moment. -/
theorem earlier_concat (h : ∀ q, q <+: past → ∃ runs, Follows all runs q) {effect : Effect}
    (hfollows : Follows all runs (past ++ [effect])) :
    ∀ q, q <+: past ++ [effect] → ∃ runs, Follows all runs q := by
  intro q hq
  rcases List.prefix_concat_iff.1 hq with rfl | hq
  · exact ⟨runs, hfollows⟩
  · exact h q hq

/-- The next posting is one that the publisher has come to before, or the first that it has not. -/
theorem Reached.distinct_next (h : Reached all runs run done past)
    (hstops : (positions all).Pairwise (· < ·)) (hnext : front runs run ++ [x] <+: all) :
    ∃ done', front runs run ++ [x] <+: done' ∧ done' <+: all ∧
      (positions (business ((runs ++ [run]).flatten ++ [x]))).eraseDups =
        positions (business done') := by
  rw [business_append, positions_append]
  cases hx : x.event.isCommandEnd with
  | true =>
    have hnone := business_of_end hx
    rw [hnone, positions_nil, List.append_nil, h.distinct]
    rcases prefix_concat_cases h.behind h.within hnext with hseen | hlast
    · exact ⟨done, hseen, h.within, rfl⟩
    · refine ⟨front runs run ++ [x], List.prefix_refl _, hnext, ?_⟩
      rw [business_append, hnone, List.append_nil, hlast]
  | false =>
    have hone := business_of_not_end hx
    have hmem : ∀ n, n ∈ positions (business (runs ++ [run]).flatten) ↔
        n ∈ positions (business done) := fun n => by rw [← h.distinct, List.mem_eraseDups]
    rw [hone]
    rcases prefix_concat_cases h.behind h.within hnext with hseen | hlast
    · refine ⟨done, hseen, h.within, ?_⟩
      have hbefore : x.record.stop ∈ positions (business done) := by
        refine (prefix_positions_business hseen).subset ?_
        simp [hone, positions]
      exact (eraseDups_concat_of_mem ((hmem _).2 hbefore)).trans h.distinct
    · refine ⟨front runs run ++ [x], List.prefix_refl _, hnext, ?_⟩
      -- The positions before this one are smaller.
      have hnew : x.record.stop ∉ positions (business done) := by
        intro hbefore
        rw [← hlast] at hbefore
        have horder := hstops.sublist (List.IsPrefix.sublist (hnext.map _))
        rw [List.map_append, List.pairwise_append] at horder
        obtain ⟨y, hy, hstop⟩ := List.mem_map.1 hbefore
        have hlt := horder.2.2 y.record.stop (List.mem_map_of_mem (List.mem_filter.1 hy).1)
          x.record.stop (List.mem_singleton_self _)
        omega
      rw [business_append, hone, positions_append, hlast, ← h.distinct]
      exact eraseDups_concat_of_not_mem fun hbefore => hnew ((hmem _).1 hbefore)

/-- Dealing with the next posting publishes it, unless it is the end of a command. -/
theorem Reached.next (h : Reached all runs run done past)
    (hstops : (positions all).Pairwise (· < ·)) (hnext : front runs run ++ [x] <+: all) :
    ∃ done', Reached all runs (run ++ [x]) done'
      (past ++ (business [x]).map fun y => .published y.event) := by
  obtain ⟨done', hfront, hdone, hdistinct⟩ := h.distinct_next hstops hnext
  have hflatten := flatten_concat_concat runs run x
  have hresumes : Resumes all [] (runs ++ [run ++ [x]]) := by
    obtain ⟨hruns, -⟩ := resumes_concat.1 h.follows.resumes
    refine resumes_concat.2 ⟨hruns, ?_⟩
    rw [← List.append_assoc]
    exact hnext
  have hbusiness : (positions (business (runs ++ [run ++ [x]]).flatten)).eraseDups =
      positions (business done') := by rw [hflatten, hdistinct]
  have hfollows : Follows all (runs ++ [run ++ [x]])
      (past ++ (business [x]).map fun y => .published y.event) := by
    refine ⟨hresumes, ?_, ?_, ?_⟩
    · rw [hflatten, business_append, List.map_append, Effect.events_append, h.follows.published]
      cases hx : x.event.isCommandEnd with
      | true => rw [business_of_end hx]; rfl
      | false => rw [business_of_not_end hx]; rfl
    · rw [hbusiness]
      exact prefix_positions_business hdone
    · intro offset hoffset
      have hbefore : Effect.cursor? past = some offset := by
        cases hx : x.event.isCommandEnd with
        | true => simpa [business_of_end hx] using hoffset
        | false => simpa [business_of_not_end hx] using hoffset
      obtain ⟨front, y, hy, hend, hstop, hall⟩ := h.follows.stored offset hbefore
      refine ⟨front, y, hy, hend, hstop, fun z hz => ?_⟩
      rw [hflatten, business_append]
      exact List.mem_append_left _ (hall z hz)
  refine ⟨done', hfollows, ?_, hdone, hbusiness, ?_⟩
  · rw [front, ← List.append_assoc]
    exact hfront
  · cases hx : x.event.isCommandEnd with
    | true =>
      rw [business_of_end hx, List.map_nil, List.append_nil]
      exact h.earlier
    | false =>
      rw [business_of_not_end hx] at hfollows ⊢
      exact earlier_concat h.earlier hfollows

/-- Going back begins another run. -/
theorem Reached.back (h : Reached all runs run done past) :
    Reached all (runs ++ [run]) [] done past := by
  have hflatten := flatten_concat_nil (runs ++ [run])
  have hback : front (runs ++ [run]) [] <+: front runs run := by
    rw [front, List.append_nil, resume_concat]
    exact prefix_committed _
  have hdone := hback.trans h.behind
  refine ⟨⟨?_, ?_, ?_, ?_⟩, hdone, h.within, by rw [hflatten, h.distinct], h.earlier⟩
  · exact resumes_concat.2 ⟨h.follows.resumes, hdone.trans h.within⟩
  · rw [hflatten, h.follows.published]
  · rw [hflatten]
    exact h.follows.distinct
  · rw [hflatten]
    exact h.follows.stored

/-- What is committed may be stored. -/
theorem Reached.store (h : Reached all runs run done past) {before : List Posting}
    (hcommitted : committed (front runs run) = before ++ [x]) :
    Reached all runs run done (past ++ [.stored x.record.stop]) := by
  have hfront : before ++ [x] <+: front runs run := hcommitted ▸ prefix_committed _
  have hfollows : Follows all (runs ++ [run]) (past ++ [.stored x.record.stop]) := by
    refine ⟨h.follows.resumes, ?_, h.follows.distinct, ?_⟩
    · rw [Effect.events_append, Effect.events_stored, List.append_nil, h.follows.published]
    · intro offset hoffset
      rw [Effect.cursor?_stored] at hoffset
      injection hoffset with hoffset
      refine ⟨before, x, hfront.trans (h.behind.trans h.within),
        isCommandEnd_of_committed hcommitted, hoffset, fun y hy => ?_⟩
      obtain ⟨hbefore, hbusiness⟩ := List.mem_filter.1 hy
      have hy' : y ∈ front runs run := hfront.subset (List.mem_append_left _ hbefore)
      exact List.mem_filter.2 ⟨mem_of_mem_front hy', hbusiness⟩
  exact ⟨hfollows, h.behind, h.within, h.distinct, earlier_concat h.earlier hfollows⟩

end Posting

end Bourse
