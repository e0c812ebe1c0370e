import Bourse.Proofs.Outbox.Emptying
import Bourse.Proofs.Outbox.Surroundings

/-!
# A cursor beyond the outbox

An outbox can become shorter than the stored cursor. The publisher then begins at the end of the
outbox, wherever that is. If a command ends there, nothing of what comes later is lost; if another
command has begun, its first events are never published: `clamped`.
-/

namespace Bourse

namespace Publisher

variable {σ : Type} {o : Outlet σ}

/-- A publisher that begins at an offset. -/
def Progress.startAt (offset : Nat) : Progress :=
  { committed := offset, stored := offset, offset }

/-- A publisher begins at the end of the outbox if the cursor lies beyond that. -/
theorem start_beyond {s : σ} {cursor : Nat} (hload : Cursor.load (o.cursor s) = .ok cursor)
    (hreg : (o.outbox s).isRegular) (hbeyond : (o.outbox s).size < cursor) :
    start o s = some (.startAt (o.outbox s).size, (o.store s (o.outbox s).size).1) := by
  have hlength : (o.outbox s).length?.getD cursor = (o.outbox s).size := by
    cases hfile : o.outbox s with
    | regular content => rfl
    | _ => rw [hfile] at hreg; cases hreg
  unfold start
  rw [hload]
  dsimp only
  rw [hlength, Nat.min_eq_right (Nat.le_of_lt hbeyond), if_pos hbeyond]
  rfl

end Publisher

/-! ## Events behind others -/

/-- The postings of events that stand in an outbox behind others. -/
def Posting.behind (f : Format) (es more : List Event) : List Posting :=
  read f (Log.recordsFrom (Journal.eventBytes f es).length (more.map f.encodeEvent))

theorem Posting.map_event_business (l : List Posting) :
    (business l).map event = Event.business (l.map event) := by
  rw [business, Event.business, List.filter_map]
  rfl

theorem Posting.map_event_read (f : Format) (offset : Nat) (es : List Event) :
    (read f (Log.recordsFrom offset (es.map f.encodeEvent))).map event = es := by
  induction es generalizing offset with
  | nil => rfl
  | cons e rest ih =>
    rw [List.map_cons, Log.recordsFrom, read_cons (f.decodeEvent_encodeEvent e), List.map_cons, ih]

/-- Nothing but these events is found behind the others, if no record stands behind them. -/
theorem Posting.read_of_finds {f : Format} {limit : Nat} {outbox : File} {es more : List Event}
    {torn : Bytes} {rs : List Log.Record}
    (hfinds : Log.Finds limit outbox (Journal.eventBytes f es).length rs)
    (hbytes : outbox.bytes = Journal.eventBytes f (es ++ more) ++ torn)
    (hfits : ∀ e ∈ more, (f.encodeEvent e).length ≤ limit)
    (htorn : ∀ p, Log.Fits limit p → ¬ Log.frame p <+: torn) : read f rs = behind f es more := by
  obtain ⟨-, ps, rest, hparsed, rfl⟩ := hfinds
  have hdrop : outbox.bytes.drop (Journal.eventBytes f es).length =
      Journal.eventBytes f more ++ torn := by
    rw [hbytes, Journal.eventBytes_append, List.append_assoc, List.drop_left]
  have hmore : Log.Parsed limit (outbox.bytes.drop (Journal.eventBytes f es).length)
      (more.map f.encodeEvent) torn := by
    refine ⟨hdrop, fun p hp => ?_, htorn⟩
    obtain ⟨e, he, rfl⟩ := List.mem_map.1 hp
    exact ⟨hfits e he, f.length_encodeEvent_le e⟩
  obtain ⟨rfl, -⟩ := hparsed.unique hmore
  rfl

/-- The end of an outbox is where a command ends, or the beginning, unless there is more behind the
last command that ended. -/
theorem Event.end_closed_iff {f : Format} {es dangling : List Event} {tail : Bytes}
    (hclosed : Event.Closed es) (hopen : Event.Open dangling) :
    (∃ front, front <+: es ++ dangling ∧ Event.Closed front ∧
      (Journal.eventBytes f (es ++ dangling) ++ tail).length =
        (Journal.eventBytes f front).length) ↔ dangling = [] ∧ tail = [] := by
  constructor
  · rintro ⟨front, ⟨rest, hfront⟩, hend, hlength⟩
    rw [← hfront, Journal.eventBytes_append, List.length_append, List.length_append] at hlength
    have htail : tail = [] := List.eq_nil_of_length_eq_zero (by omega)
    have hrest : rest = [] := by
      cases rest with
      | nil => rfl
      | cons e rest =>
        have hframe : 0 < (Journal.eventBytes f (e :: rest)).length := by
          rw [Journal.eventBytes, List.map_cons, Log.frames_cons, List.length_append,
            Log.length_frame, Log.headerSize]
          omega
        omega
    rw [hrest, List.append_nil] at hfront
    refine ⟨?_, htail⟩
    -- The last of the events ends a command, so it is none of those that have only begun one.
    rcases List.eq_nil_or_concat dangling with hnil | ⟨before, last, hlast⟩
    · exact hnil
    · rw [List.concat_eq_append] at hlast
      have hnot := hopen last (by simp [hlast])
      rcases hend with hnone | ⟨e, he, hcommand⟩
      · rw [hnone] at hfront
        simp [hlast] at hfront
      · rw [hfront, hlast, ← List.append_assoc, List.getLast?_concat] at he
        injection he with he
        rw [he, hcommand] at hnot
        cases hnot
  · rintro ⟨rfl, rfl⟩
    exact ⟨es, List.prefix_append .., hclosed, by simp⟩

namespace Feed

open Publisher (chunkSize)

variable {f : Format} {maxPayload start : Nat} {rs : List Log.Record} {front todo : List Posting}
  {p : Publisher.Progress} {s : Feed}

/-! ## What was done before -/

/-- The feed when the publisher has done something before. -/
def after (before : List Effect) (s : Feed) : Feed :=
  { s with past := before ++ s.past }

theorem outlet_ignores (before : List Effect) : outlet.Ignores (after before) where
  outbox _ := rfl
  cursor _ := rfl
  cancelled _ := rfl
  publish s e := by
    unfold outlet after
    dsimp only
    cases s.turn.taken with
    | nil => rfl
    | cons taken rest =>
      cases taken with
      | true =>
        dsimp only
        rw [if_pos rfl, if_pos rfl, List.append_assoc]
      | false => rfl
  store s offset := by
    rcases hstore : s.files.storeCursor offset with ⟨files, replaced⟩
    unfold outlet after keep
    dsimp only
    rw [hstore]
    cases s.turn.stored <;> cases replaced <;> simp

theorem step_after (before : List Effect) (s : Feed) (move : Move) :
    step f maxPayload (s.after before) move = (step f maxPayload s move).after before := by
  cases move with
  | grow more => rfl
  | turn t =>
    have hstart := (outlet_ignores before).start { s with turn := t }
    have hturn (p : Publisher.Progress) :=
      (outlet_ignores before).turn f maxPayload p { s with turn := t }
    unfold after at hstart hturn
    unfold step after
    dsimp only at hstart hturn ⊢
    by_cases hstopped : s.stopped = true
    · rw [if_pos hstopped, if_pos hstopped]
    · rw [if_neg hstopped, if_neg hstopped]
      cases hp : s.progress with
      | none =>
        rw [hp] at hstart
        dsimp only
        rw [hstart]
        cases Publisher.start outlet { s with turn := t, progress := none } with
        | none =>
          show _ = { s with past := before ++ s.past }
          rw [hp]
          rfl
        | some _ => rfl
      | some p =>
        rw [hp] at hturn
        dsimp only
        rw [hturn]

/-- What was done before makes no difference to what is done next. -/
theorem run_after (before : List Effect) (s : Feed) (moves : List Move) :
    run f maxPayload (s.after before) moves = (run f maxPayload s moves).after before := by
  induction moves generalizing s with
  | nil => rfl
  | cons move moves ih =>
    show run f maxPayload (step f maxPayload (s.after before) move) moves = _
    rw [step_after]
    exact ih _

/-! ## Turns in which nothing fails -/

/-- A turn in which no event is refused. -/
def willing : Turn where
  taken := List.replicate chunkSize true

/-- Subscribers that will take so many events take these. -/
theorem takes {es : List Event} {taken : List Bool}
    (h : s.turn.taken = List.replicate es.length true ++ taken) :
    outlet.Takes s es { s with
      turn := { s.turn with taken }, past := s.past ++ es.map .published } := by
  induction es generalizing s with
  | nil =>
    rw [List.length_nil, List.replicate_zero, List.nil_append] at h
    subst h
    show _ = s
    simp
  | cons e rest ih =>
    rw [List.length_cons, List.replicate_succ, List.cons_append] at h
    refine ⟨{ s with
      turn := { s.turn with taken := List.replicate rest.length true ++ taken }
      past := s.past ++ [.published e] }, ?_, ?_⟩
    · unfold outlet
      dsimp only
      rw [h]
      rfl
    · have hrest := ih (s := { s with
        turn := { s.turn with taken := List.replicate rest.length true ++ taken }
        past := s.past ++ [.published e] }) rfl
      simpa using hrest

/-- A publisher adds to what was done, and leaves the outbox alone. -/
theorem outlet_keeps (past : List Effect) (outbox : File) :
    outlet.Keeps fun s => past <+: s.past ∧ s.files.outbox = outbox where
  publish s e h := by
    rcases s.publish_cases e with ⟨turn, hpublish⟩ | ⟨turn, hpublish⟩
    · rw [hpublish]
      exact ⟨h.1.trans (List.prefix_append ..), h.2⟩
    · rw [hpublish]
      exact h
  store s offset h := by
    obtain ⟨files, replaced, saved, hstore, houtbox, -⟩ := s.store_cases offset
    rw [hstore]
    refine ⟨h.1.trans ?_, houtbox.trans h.2⟩
    cases replaced with
    | true => exact List.prefix_append ..
    | false => exact List.prefix_refl _

theorem past_step (f : Format) (maxPayload : Nat) (s : Feed) (move : Move) :
    s.past <+: (step f maxPayload s move).past := by
  cases move with
  | grow more => exact List.prefix_refl _
  | turn t =>
    have hkeeps := outlet_keeps s.past s.files.outbox
    have hnow : s.past <+: ({ s with turn := t } : Feed).past ∧
        ({ s with turn := t } : Feed).files.outbox = s.files.outbox := ⟨List.prefix_refl _, rfl⟩
    unfold step
    dsimp only
    split
    · exact List.prefix_refl _
    · split
      · split
        · exact List.prefix_refl _
        · next hstart => exact (hkeeps.start hnow hstart).1
      · next p _ => exact (hkeeps.turn f maxPayload p hnow).1

/-- What was done stays done. -/
theorem past_run (f : Format) (maxPayload : Nat) (s : Feed) (moves : List Move) :
    s.past <+: (run f maxPayload s moves).past := by
  induction moves generalizing s with
  | nil => exact List.prefix_refl _
  | cons move moves ih => exact (past_step f maxPayload s move).trans (ih _)

/-- A publisher stands behind the postings of `front` and has those of `todo` before it. -/
structure Stands (f : Format) (limit start : Nat) (front todo : List Posting) (s : Feed) :
    Prop where
  regular : s.files.outbox.isRegular
  range : s.files.outbox.size ≤ File.maxPosition
  finds : ∃ rs, Log.Finds limit s.files.outbox start rs ∧ Posting.read f rs = front ++ todo
  running : s.stopped = false
  progress : ∃ p, s.progress = some p ∧ p.Past start front ∧ Reads limit s.files.outbox p

/-- A turn in which nothing fails publishes the next postings, at most a chunk of them. -/
theorem Stands.turn (h : Stands f ({ maxPayload } : Log.ReadOptions).limit start front todo s) :
    ∃ s', s.step f maxPayload (.turn willing) = s' ∧
      (∀ y ∈ Posting.business (todo.take chunkSize), .published y.event ∈ s'.past) ∧
      (chunkSize ≤ todo.length → Stands f ({ maxPayload } : Log.ReadOptions).limit start
        (front ++ todo.take chunkSize) (todo.drop chunkSize) s') := by
  obtain ⟨rs, hfinds, hread⟩ := h.finds
  obtain ⟨p, hp, hpast, hreads⟩ := h.progress
  have hle : ((Posting.business (todo.take chunkSize)).map Posting.event).length ≤ chunkSize := by
    rw [List.length_map]
    exact Nat.le_trans (List.length_filter_le ..) (List.length_take_le ..)
  obtain ⟨taken, htaken⟩ : ∃ taken, willing.taken =
      List.replicate ((Posting.business (todo.take chunkSize)).map Posting.event).length true ++
        taken := by
    obtain ⟨n, hn⟩ := Nat.exists_eq_add_of_le hle
    refine ⟨List.replicate n true, ?_⟩
    rw [← List.replicate_add, ← hn]
    rfl
  have htakes := takes (s := { s with turn := willing, progress := some p }) htaken
  obtain ⟨p₁, p', hpast₁, -, hturn, hcommitted, -, hmore⟩ := Publisher.turn_takes
    (s := { s with turn := willing, progress := some p }) h.regular h.range hfinds hread hpast
    hreads htakes
  obtain ⟨hsaved, houtbox⟩ := (outlet_keeps _ s.files.outbox).save p₁ (s := { s with
    turn := { willing with taken }
    past := s.past ++ ((Posting.business (todo.take chunkSize)).map Posting.event).map .published
    progress := some p }) ⟨List.prefix_refl _, rfl⟩
  rcases hsave : Publisher.save outlet p₁ _ with ⟨p₂, s₂⟩
  rw [hsave] at hturn hsaved houtbox
  refine ⟨{ s₂ with progress := some p', stopped := false }, ?_, fun y hy => ?_,
    fun hfull => ?_⟩
  · unfold step
    dsimp only
    rw [if_neg (by rw [h.running]; exact Bool.false_ne_true), hp]
    dsimp only
    rw [hturn]
    dsimp only
    rw [show outlet.cancelled { s with turn := willing, progress := some p } = false from rfl,
      ite_self]
  · exact hsaved.subset (List.mem_append_right _ (List.mem_map_of_mem (List.mem_map_of_mem hy)))
  · obtain ⟨hoffset, hreads'⟩ := hmore hfull
    have hbehind : p'.Past start (front ++ todo.take chunkSize) :=
      ⟨hoffset.trans hpast₁.offset, hcommitted.trans hpast₁.committed⟩
    refine ⟨?_, ?_, ⟨rs, ?_, ?_⟩, rfl, ⟨p', rfl, hbehind, ?_⟩⟩
    · exact houtbox ▸ h.regular
    · exact houtbox ▸ h.range
    · exact houtbox ▸ hfinds
    · rw [hread, List.append_assoc, List.take_append_drop]
    · exact houtbox ▸ hreads'

/-- In time such turns publish everything. -/
theorem Stands.run (h : Stands f ({ maxPayload } : Log.ReadOptions).limit start front todo s)
    {n : Nat} (hn : todo.length / chunkSize < n) :
    ∀ y ∈ Posting.business todo,
      .published y.event ∈ (run f maxPayload s (List.replicate n (.turn willing))).past := by
  induction n generalizing s front todo with
  | zero => exact absurd hn (Nat.not_lt_zero _)
  | succ n ih =>
    intro y hy
    obtain ⟨s', hstep, hpublished, hmore⟩ := h.turn
    have hpast := past_run f maxPayload s' (List.replicate n (.turn willing))
    rw [List.replicate_succ]
    show .published y.event ∈ (Feed.run f maxPayload (s.step f maxPayload (.turn willing)) _).past
    rw [hstep]
    by_cases hfull : chunkSize ≤ todo.length
    · rw [← List.take_append_drop chunkSize todo, Posting.business_append, List.mem_append] at hy
      rcases hy with hy | hy
      · exact hpast.subset (hpublished y hy)
      · refine ih (hmore hfull) ?_ y hy
        rw [List.length_drop]
        rw [chunkSize] at hn hfull ⊢
        omega
    · rw [List.take_of_length_le (Nat.le_of_not_le hfull)] at hpublished
      exact hpast.subset (hpublished y hy)

/-! ## The end of the outbox as the cursor -/

/-- A publisher that has just begun at an offset. -/
def begun (files : SymbolFiles) (past : List Effect) (t : Turn) (offset : Nat) : Feed where
  files := files
  past := past
  turn := t
  progress := some (.startAt offset)

/-- A publisher whose cursor lies beyond the outbox begins at the end of the outbox, and tries to
store that. -/
theorem begins_beyond {files : SymbolFiles} {cursor : Nat}
    (hload : Cursor.load files.cursor = .ok cursor) (hreg : files.outbox.isRegular)
    (hbeyond : files.outbox.size < cursor) (f : Format) (maxPayload : Nat) (t : Turn) :
    ∃ files' past, step f maxPayload { files } (.turn t) =
        begun files' past t files.outbox.size ∧ files'.outbox = files.outbox ∧
      files'.cursor = Effect.cursorFile files.cursor past ∧
      (past = [] ∨ past = [.stored files.outbox.size]) ∧
      (t.stored = .done → files.scratch.Usable → past = [.stored files.outbox.size]) := by
  have hstart := Publisher.start_beyond (o := outlet) (s := { files, turn := t }) hload hreg hbeyond
  obtain ⟨files', replaced, saved, hstore, houtbox, hcursor⟩ :=
    store_cases { files, turn := t } files.outbox.size
  have hstep : step f maxPayload { files } (.turn t) =
      begun files' (if replaced then [.stored files.outbox.size] else []) t files.outbox.size := by
    have hsize : outlet.outbox { files, turn := t } = files.outbox := rfl
    unfold step
    dsimp only
    rw [if_neg Bool.false_ne_true, hstart, hsize]
    dsimp only
    rw [hstore]
    rfl
  refine ⟨files', _, hstep, houtbox, ?_, ?_, fun hdone hscratch => ?_⟩
  · rw [hcursor]
    cases replaced <;> rfl
  · cases replaced
    · exact .inl rfl
    · exact .inr rfl
  · -- A cursor that was read can be replaced.
    have husable : files.cursor.Usable := by
      cases hfile : files.cursor with
      | absent => exact .inl rfl
      | regular content => exact .inr rfl
      | _ => rw [hfile] at hload; cases hload
    have hpast := congrArg Feed.past (congrArg Prod.fst hstore)
    unfold outlet at hpast
    dsimp only at hpast
    rw [SymbolFiles.storeCursor_of_usable husable hscratch, hdone] at hpast
    exact hpast.symm

theorem progress_run_eq_none {moves : List Move} (h : (run f maxPayload s moves).progress = none) :
    s.progress = none := by
  induction moves generalizing s with
  | nil => exact h
  | cons move moves ih => exact progress_eq_none (ih h)

/-- Whatever happens to a feed that has just begun, its publisher skips nothing behind the place
where it began. -/
theorem begun_carries {files : SymbolFiles} (hout : files.outbox.Usable)
    (hwithin : start ≤ files.outbox.size) (past : List Effect) (t : Turn) (f : Format)
    (maxPayload : Nat) (moves : List Move) :
    ∃ s rs p runs last done, run f maxPayload (begun files past t start) moves = s.after past ∧
      s.files.outbox.Usable ∧
      Log.Finds ({ maxPayload } : Log.ReadOptions).limit s.files.outbox start rs ∧
      s.progress = some p ∧
      Carries f start files.cursor s.files.outbox rs runs last done p s ∧
      Reads ({ maxPayload } : Log.ReadOptions).limit s.files.outbox p := by
  have hforget : begun files past t start = (begun files [] t start).after past := by
    unfold begun after
    rw [List.append_nil]
  obtain ⟨rs, hfinds⟩ := Log.exists_finds ({ maxPayload } : Log.ReadOptions).limit hwithin
  have hbegin : Tracks f ({ maxPayload } : Log.ReadOptions).limit start files.cursor
      (begun files [] t start) :=
    ⟨hout, rs, hfinds, .inr ⟨_, [], [], [], rfl,
      ⟨Posting.reached_nil _, rfl, rfl, rfl, rfl, fun _ => rfl⟩, reads_none rfl⟩⟩
  obtain ⟨husable, rs', hfinds', hcase⟩ := hbegin.run (fun hnone => by cases hnone) moves
  rw [hforget, run_after]
  rcases hcase with ⟨hnone, -⟩ | ⟨p, runs, last, done, hp, hcarries, hreads⟩
  · have hbegun := progress_run_eq_none hnone
    cases hbegun
  · exact ⟨_, rs', p, runs, last, done, rfl, husable, hfinds', hp, hcarries, hreads⟩

/-- A publisher that has come so far without skipping anything publishes what is left, if there are
enough turns in which nothing fails. -/
theorem Carries.delivers {cursor : File} {runs : List (List Posting)} {last done : List Posting}
    (h : Carries f start cursor s.files.outbox rs runs last done p s)
    (hreg : s.files.outbox.isRegular) (hrange : s.files.outbox.size ≤ File.maxPosition)
    (hfinds : Log.Finds ({ maxPayload } : Log.ReadOptions).limit s.files.outbox start rs)
    (hp : s.progress = some p) (hreads : Reads ({ maxPayload } : Log.ReadOptions).limit
      s.files.outbox p) (hrunning : s.stopped = false) {n : Nat}
    (hn : (Posting.read f rs).length / chunkSize < n) :
    ∀ y ∈ Posting.business (Posting.read f rs),
      .published y.event ∈ (run f maxPayload s (List.replicate n (.turn willing))).past := by
  intro y hy
  obtain ⟨rest, -, hread⟩ := h.finds hfinds
  have hstands : Stands f ({ maxPayload } : Log.ReadOptions).limit start
      (Posting.front runs last) (Posting.read f rest) s :=
    ⟨hreg, hrange, ⟨rs, hfinds, hread⟩, hrunning, p, hp, ⟨h.offset, h.committed⟩, hreads⟩
  rw [hread, Posting.business_append, List.mem_append] at hy
  rcases hy with hy | hy
  · -- What lies behind the publisher was published.
    obtain ⟨hfront, hbusiness⟩ := List.mem_filter.1 hy
    have hevent : y.event ∈ Effect.events s.past := by
      rw [h.reached.follows.published]
      exact List.mem_map_of_mem (List.mem_filter.2 ⟨Posting.mem_of_mem_front hfront, hbusiness⟩)
    obtain ⟨effect, heffect, hsome⟩ := List.mem_filterMap.1 hevent
    cases effect with
    | stored offset => cases hsome
    | published e =>
      cases hsome
      exact (past_run f maxPayload s _).subset heffect
  · refine hstands.run (Nat.lt_of_le_of_lt (Nat.div_le_div_right ?_) hn) y hy
    rw [hread, List.length_append]
    exact Nat.le_add_left ..

/-- **A cursor beyond the outbox.** An outbox holds some commands that have ended, perhaps the first
events of another command, and perhaps some torn bytes. Its publisher finds a cursor that lies
beyond the end; it begins at the end, and stores that if it can. A command ends there exactly if
nothing stands behind those that have ended. If there are no torn bytes, then whatever happens, as
soon as whole events stand behind the end, what was published follows just them, and after enough
turns in which nothing fails all of them were published. So nothing is lost when no other command
has begun. -/
theorem clamped {files : SymbolFiles} {f : Format} {es dangling : List Event} {tail : Bytes}
    {cursor : Nat}
    (hout : files.outbox = .ofBytes (Journal.eventBytes f (es ++ dangling) ++ tail))
    (hclosed : Event.Closed es) (hopen : Event.Open dangling)
    (hload : Cursor.load files.cursor = .ok cursor) (hbeyond : files.outbox.size < cursor)
    (maxPayload : Nat) (t : Turn) :
    ∃ now, step f maxPayload { files } (.turn t) = now ∧
      now.progress = some (.startAt files.outbox.size) ∧
      now.files.cursor = Effect.cursorFile files.cursor now.past ∧
      (now.past = [] ∨ now.past = [.stored files.outbox.size]) ∧
      (t.stored = .done → files.scratch.Usable → now.past = [.stored files.outbox.size]) ∧
      ((∃ front, front <+: es ++ dangling ∧ Event.Closed front ∧
        files.outbox.size = (Journal.eventBytes f front).length) ↔ dangling = [] ∧ tail = []) ∧
      (tail = [] → ∀ moves later more torn, run f maxPayload now moves = later →
        later.files.outbox.bytes = Journal.eventBytes f (es ++ dangling ++ more) ++ torn →
        (∀ e ∈ more, (f.encodeEvent e).length ≤ ({ maxPayload } : Log.ReadOptions).limit) →
        (∀ p, Log.Fits ({ maxPayload } : Log.ReadOptions).limit p → ¬ Log.frame p <+: torn) →
        (∃ past, later.past = now.past ++ past ∧ ∀ past', past' <+: past →
          ∃ runs, Posting.Follows (Posting.behind f (es ++ dangling) more) runs past') ∧
        (later.stopped = false → later.files.outbox.size ≤ File.maxPosition →
          ∀ n, more.length / chunkSize < n → ∀ e ∈ Event.business more,
            .published e ∈
              (run f maxPayload later (List.replicate n (.turn willing))).past)) := by
  have hreg : files.outbox.isRegular := by
    rw [hout]
    rfl
  have hsize : files.outbox.size = (Journal.eventBytes f (es ++ dangling) ++ tail).length := by
    rw [← File.length_bytes, hout, File.bytes_ofBytes]
  obtain ⟨files', past, hstep, houtbox, hcursor, hpast, hstored⟩ :=
    begins_beyond hload hreg hbeyond f maxPayload t
  refine ⟨_, hstep, rfl, hcursor, hpast, hstored, ?_, ?_⟩
  · rw [hsize]
    exact Event.end_closed_iff hclosed hopen
  rintro rfl moves later more torn rfl hbytes hfits htorn
  rw [List.append_nil] at hsize
  obtain ⟨s, rs, p, runs, last, done, hrun, husable, hfinds, hp, hcarries, hreads⟩ :=
    begun_carries (.inr (houtbox ▸ hreg)) (Nat.le_of_eq (congrArg File.size houtbox.symm)) past t f
      maxPayload moves
  rw [hrun] at hbytes ⊢
  have hread : Posting.read f rs = Posting.behind f (es ++ dangling) more :=
    Posting.read_of_finds (hsize ▸ hfinds) hbytes hfits htorn
  refine ⟨⟨s.past, rfl, hread ▸ hcarries.reached.earlier⟩, fun hrunning hrange n hn e he => ?_⟩
  have hevents : (Posting.read f rs).map Posting.event = more := by
    rw [hread]
    exact Posting.map_event_read ..
  have hregular : s.files.outbox.isRegular := by
    rcases husable with habsent | hregular
    · -- Without an outbox there are no events.
      rw [habsent] at hfinds
      rw [hfinds.eq_nil] at hevents
      rw [← hevents] at he
      cases he
    · exact hregular
  rw [← hevents, ← Posting.map_event_business] at he
  obtain ⟨y, hy, rfl⟩ := List.mem_map.1 he
  rw [← hevents, List.length_map] at hn
  rw [run_after]
  exact List.mem_append_right past
    (hcarries.delivers hregular hrange hfinds hp hreads hrunning hn y hy)

/-- An outbox with some events, and a cursor far beyond it. -/
def shortened (es : List Event) : SymbolFiles where
  outbox := .ofBytes (Journal.eventBytes .csv es)
  cursor := .ofBytes (Cursor.encode 1000)

/-- Behind a whole command the next one is published as a whole. -/
theorem clamped_shortened :
    let files := shortened [rejection 1 0, ending 1 1]
    let added := Journal.eventBytes .csv [rejection 2 0, ending 2 1]
    files.outbox = .ofBytes (Journal.eventBytes .csv ([rejection 1 0, ending 1 1] ++ []) ++ []) ∧
      Event.Closed [rejection 1 0, ending 1 1] ∧ Event.Open [] ∧
      Cursor.load files.cursor = .ok 1000 ∧ files.outbox.size < 1000 ∧
      (run .csv 0 { files } [.turn {}, .grow added, .turn willing]).past =
        [.stored 45, .published (rejection 2 0), .stored 90] ∧
      ∃ now, step .csv 0 { files } (.turn {}) = now ∧
        now.progress = some (.startAt files.outbox.size) ∧
        (∃ front, front <+: [rejection 1 0, ending 1 1] ++ [] ∧ Event.Closed front ∧
          files.outbox.size = (Journal.eventBytes .csv front).length) ∧
        ∀ n, 0 < n → .published (rejection 2 0) ∈
          (run .csv 0 (run .csv 0 now [.grow added]) (List.replicate n (.turn willing))).past := by
  have hclosed : Event.Closed [rejection 1 0, ending 1 1] := .inr ⟨_, rfl, rfl⟩
  have hopen : Event.Open [] := fun e he => by cases he
  have hload : Cursor.load (shortened [rejection 1 0, ending 1 1]).cursor = .ok 1000 := by
    decide +kernel
  have hbeyond : (shortened [rejection 1 0, ending 1 1]).outbox.size < 1000 := by decide +kernel
  have hout : (shortened [rejection 1 0, ending 1 1]).outbox =
      .ofBytes (Journal.eventBytes .csv ([rejection 1 0, ending 1 1] ++ []) ++ []) := rfl
  refine ⟨hout, hclosed, hopen, hload, hbeyond, by decide +kernel, ?_⟩
  obtain ⟨now, hstep, hprogress, -, -, -, hend, hlater⟩ :=
    clamped hout hclosed hopen hload hbeyond 0 {}
  refine ⟨now, hstep, hprogress, hend.2 ⟨rfl, rfl⟩, fun n hn => ?_⟩
  subst hstep
  refine (hlater rfl [.grow (Journal.eventBytes .csv [rejection 2 0, ending 2 1])] _
    [rejection 2 0, ending 2 1] [] rfl (by decide +kernel) (by decide +kernel) ?_).2
    (by decide +kernel) (by decide +kernel) n hn _ (by decide +kernel)
  intro p _ hp
  have hle := hp.length_le
  rw [Log.length_frame, Log.headerSize, List.length_nil] at hle
  omega

/-- Where a command has begun the publisher begins within it, and the first event of the command is
never published. -/
theorem unpublished_beyond :
    let files := shortened [rejection 1 0]
    let added := Journal.eventBytes .csv [rejection 1 1, ending 1 2]
    Cursor.load files.cursor = .ok 1000 ∧ files.outbox.size < 1000 ∧
      Cursor.load (step .csv 0 { files } (.turn {})).files.cursor = .ok 27 ∧
      (¬ ∃ front, front <+: [rejection 1 0] ∧ Event.Closed front ∧
        27 = (Journal.eventBytes .csv front).length) ∧
      let later := run .csv 0 { files } [.turn {}, .grow added, .turn willing]
      later.files.outbox.bytes =
          Journal.eventBytes .csv [rejection 1 0, rejection 1 1, ending 1 2] ∧
        later.past = [.stored 27, .published (rejection 1 1), .stored 72] := by
  refine ⟨by decide +kernel, by decide +kernel, by decide +kernel, ?_, by decide +kernel,
    by decide +kernel⟩
  have hopen : Event.Open [rejection 1 0] := by
    intro e he
    rw [List.mem_singleton.1 he]
    rfl
  have hlength : 27 = (Journal.eventBytes .csv ([] ++ [rejection 1 0]) ++ []).length := by
    decide +kernel
  rintro ⟨front, hfront, hclosed, hend⟩
  rw [hlength] at hend
  cases ((Event.end_closed_iff (.inl rfl) hopen).1 ⟨front, hfront, hclosed, hend⟩).1

end Feed

end Bourse
