import Bourse.Proofs.Outbox.Resuming
import Bourse.Proofs.Outbox.Tailing

/-!
# A publisher behind any writer

An outbox may hold any bytes, and more of them each time the publisher looks. `Feed` is such an
outbox with its publisher, and `Feed.run` is what comes of growth and turns in any order, whatever
events are refused and whichever cursors are not stored. Nothing is skipped: `Feed.nothing_skipped`.
-/

namespace Bourse

/-- An outbox that grows, and the publisher that reads it. -/
structure Feed where
  files : SymbolFiles
  /-- What the publisher has done so far. -/
  past : List Effect := []
  turn : Turn := {}
  progress : Option Publisher.Progress := none
  stopped : Bool := false

namespace Feed

/-- What happens to a feed. -/
inductive Move where
  /-- The outbox grows by some bytes, whatever they are. -/
  | grow (more : Bytes)
  /-- The publisher begins, or takes a turn. -/
  | turn (t : Turn)

/-- Keeps what became of the attempt to replace the cursor. -/
def keep (s : Feed) (offset : Nat) (files : SymbolFiles) (replaced : Bool) : Feed :=
  { s with files, past := if replaced then s.past ++ [.stored offset] else s.past }

/-- The surroundings of the publisher. -/
def outlet : Publisher.Outlet Feed where
  outbox s := s.files.outbox
  cursor s := s.files.cursor
  cancelled s := s.turn.asked
  publish s e :=
    match s.turn.taken with
    | [] => (s, false)
    | taken :: rest =>
      ({ s with
        turn := { s.turn with taken := rest }
        past := if taken then s.past ++ [.published e] else s.past }, taken)
  store s offset :=
    let (files, replaced) := s.files.storeCursor offset
    match s.turn.stored with
    | .done => (s.keep offset files replaced, replaced)
    | .refused => (s, false)
    | .unsure => (s.keep offset files replaced, false)

def step (f : Format) (maxPayload : Nat) (s : Feed) : Move → Feed
  | .grow more => { s with files := { s.files with
      outbox := .ofBytes (s.files.outbox.bytes ++ more) } }
  | .turn t =>
    if s.stopped then s
    else
      match s.progress with
      | none =>
        match Publisher.start outlet { s with turn := t } with
        | none => s
        | some (p, s) => { s with progress := some p }
      | some p =>
        let (p, s, stopped) := Publisher.turn outlet f maxPayload p { s with turn := t }
        { s with progress := some p, stopped }

def run (f : Format) (maxPayload : Nat) (s : Feed) (moves : List Move) : Feed :=
  moves.foldl (step f maxPayload) s

end Feed

/-- The cursor file after what was done, when it was `cursor` before. -/
def Effect.cursorFile (cursor : File) (past : List Effect) : File :=
  match cursor? past with
  | none => cursor
  | some offset => .ofBytes (Cursor.encode offset)

/-- Where the last of some postings ends that begin at an offset. -/
def Posting.endOf (offset : Nat) (l : List Posting) : Nat :=
  Log.endOf offset (l.map Posting.record)

@[simp] theorem Posting.endOf_nil (offset : Nat) : Posting.endOf offset [] = offset := rfl

@[simp] theorem Posting.endOf_concat (offset : Nat) (l : List Posting) (x : Posting) :
    Posting.endOf offset (l ++ [x]) = x.record.stop := by
  rw [endOf, List.map_append]
  exact Log.endOf_concat ..

@[simp] theorem Posting.front_concat (runs : List (List Posting)) (run : List Posting)
    (x : Posting) : front runs (run ++ [x]) = front runs run ++ [x] :=
  (List.append_assoc ..).symm

namespace Feed

/-! ## What the publisher can do to a feed -/

theorem publish_cases (s : Feed) (e : Event) :
    (∃ turn, outlet.publish s e = ({ s with turn, past := s.past ++ [.published e] }, true)) ∨
      ∃ turn, outlet.publish s e = ({ s with turn }, false) := by
  unfold outlet
  dsimp only
  split
  · exact Or.inr ⟨s.turn, rfl⟩
  · next taken rest _ =>
    cases taken with
    | true => exact Or.inl ⟨_, rfl⟩
    | false => exact Or.inr ⟨_, rfl⟩

theorem storeCursor_cases (files : SymbolFiles) (offset : Nat) :
    ∃ files' replaced, files.storeCursor offset = (files', replaced) ∧
      files'.outbox = files.outbox ∧
      files'.cursor = if replaced then .ofBytes (Cursor.encode offset) else files.cursor := by
  unfold SymbolFiles.storeCursor
  split
  · exact ⟨files, false, rfl, rfl, rfl⟩
  · split
    · next cursor hstore =>
      refine ⟨_, true, rfl, rfl, ?_⟩
      unfold Cursor.store at hstore
      split at hstore
      · cases hstore
      · cases hstore
      · injection hstore with hstore
        exact hstore.symm
    · exact ⟨_, false, rfl, rfl, rfl⟩

theorem store_cases (s : Feed) (offset : Nat) :
    ∃ files replaced saved, outlet.store s offset = (s.keep offset files replaced, saved) ∧
      files.outbox = s.files.outbox ∧
      files.cursor = if replaced then .ofBytes (Cursor.encode offset) else s.files.cursor := by
  obtain ⟨files, replaced, hstore, houtbox, hcursor⟩ := storeCursor_cases s.files offset
  unfold outlet
  dsimp only
  rw [hstore]
  split
  · exact ⟨files, replaced, replaced, rfl, houtbox, hcursor⟩
  · exact ⟨s.files, false, false, rfl, rfl, rfl⟩
  · exact ⟨files, replaced, false, rfl, houtbox, hcursor⟩

/-! ## How the publisher stands to the postings -/

/-- A publisher has come as far as `p` says in its last run through the records of an outbox. -/
structure Carries (f : Format) (start : Nat) (cursor outbox : File) (rs : List Log.Record)
    (runs : List (List Posting)) (last done : List Posting) (p : Publisher.Progress) (s : Feed) :
    Prop where
  reached : Posting.Reached (Posting.read f rs) runs last done s.past
  outbox : s.files.outbox = outbox
  cursor : s.files.cursor = Effect.cursorFile cursor s.past
  offset : p.offset = Posting.endOf start (Posting.front runs last)
  committed : p.committed = Posting.endOf start (Posting.committed (Posting.front runs last))
  stored : Posting.committed (Posting.front runs last) = [] → p.stored = start

/-- A reader that is kept stands where the publisher has come to. -/
def Reads (limit : Nat) (outbox : File) (p : Publisher.Progress) : Prop :=
  ∀ r, p.reader = some r → outbox.isRegular ∧ r.StandsAt outbox p.offset ∧ r.limit = limit

variable {f : Format} {limit start : Nat} {cursor outbox : File} {rs rest : List Log.Record}
  {runs : List (List Posting)} {last done : List Posting} {p : Publisher.Progress} {s : Feed}

/-- Behind the end of a command it is committed; behind any other event it is published. A record
that is no event, or an event that is refused, leaves the publisher where it is. -/
theorem Carries.handle (h : Carries f start cursor outbox rs runs last done p s)
    (hstops : (Posting.positions (Posting.read f rs)).Pairwise (· < ·)) {r : Log.Record}
    (hread : Posting.read f rs = Posting.front runs last ++ Posting.read f (r :: rest)) :
    ∃ last' done' p' s' result, Publisher.handle outlet f (p, s) r = ((p', s'), result) ∧
      Carries f start cursor outbox rs runs last' done' p' s' ∧
      (result = .ok () → p'.offset = r.stop ∧
        Posting.read f rs = Posting.front runs last' ++ Posting.read f rest) := by
  cases hdecode : f.decodeEvent r.payload with
  | error e =>
    refine ⟨last, done, p, s, .error (), by simp only [Publisher.handle, hdecode], h, fun hok => ?_⟩
    cases hok
  | ok e =>
    rw [Posting.read_cons hdecode, List.append_cons] at hread
    have hnext : Posting.front runs last ++ [⟨r, e⟩] <+: Posting.read f rs :=
      ⟨Posting.read f rest, hread.symm⟩
    obtain ⟨done', hreached⟩ := h.reached.next hstops hnext
    rw [← Posting.front_concat] at hread
    cases he : e.isCommandEnd with
    | true =>
      rw [Posting.business_of_end he, List.map_nil, List.append_nil] at hreached
      refine ⟨_, done', _, s, _, Publisher.handle_of_end hdecode he,
        ⟨hreached, h.outbox, h.cursor, ?_, ?_, ?_⟩, ?_⟩
      · rw [Posting.front_concat, Posting.endOf_concat]
      · rw [Posting.front_concat, Posting.committed_concat_of_end he, Posting.endOf_concat]
      · rw [Posting.front_concat, Posting.committed_concat_of_end he]
        intro hnil
        simp at hnil
      · exact fun _ => ⟨rfl, hread⟩
    | false =>
      rw [Posting.business_of_not_end he] at hreached
      have hcommitted := Posting.committed_concat_of_not_end (x := ⟨r, e⟩) he
        (Posting.front runs last)
      rcases s.publish_cases e with ⟨turn, hpublish⟩ | ⟨turn, hpublish⟩
      · refine ⟨_, done', _, _, _, Publisher.handle_of_taken hdecode he hpublish,
          ⟨hreached, h.outbox, ?_, ?_, ?_, ?_⟩, ?_⟩
        · simp only [Effect.cursorFile, Effect.cursor?_published]
          exact h.cursor
        · rw [Posting.front_concat, Posting.endOf_concat]
        · rw [Posting.front_concat, hcommitted]
          exact h.committed
        · rw [Posting.front_concat, hcommitted]
          exact h.stored
        · exact fun _ => ⟨rfl, hread⟩
      · refine ⟨last, done, p, _, _, Publisher.handle_of_refused hdecode he hpublish, { h with },
          fun hok => ?_⟩
        cases hok

/-- A chunk is dealt with record by record, up to the first that fails. -/
theorem Carries.forEach (h : Carries f start cursor outbox rs runs last done p s)
    (hstops : (Posting.positions (Posting.read f rs)).Pairwise (· < ·)) {chunk : List Log.Record}
    (hread : Posting.read f rs = Posting.front runs last ++ Posting.read f (chunk ++ rest)) :
    ∃ last' done' p' s' result,
      Attempt.forEach (Publisher.handle outlet f) (p, s) chunk = ((p', s'), result) ∧
      Carries f start cursor outbox rs runs last' done' p' s' ∧
      (result = .ok () → p'.offset = Log.endOf p.offset chunk) := by
  induction chunk generalizing last done p s with
  | nil => exact ⟨last, done, p, s, .ok (), rfl, h, fun _ => rfl⟩
  | cons r chunk ih =>
    obtain ⟨last₁, done₁, p₁, s₁, result, hhandle, h₁, hok⟩ := h.handle hstops hread
    rw [Attempt.forEach_cons, hhandle]
    cases result with
    | error u =>
      refine ⟨last₁, done₁, p₁, s₁, .error u, rfl, h₁, fun hend => ?_⟩
      cases hend
    | ok _ =>
      obtain ⟨hoffset, hread₁⟩ := hok rfl
      obtain ⟨last', done', p', s', result, hrun, h', hend⟩ := ih h₁ hread₁
      refine ⟨last', done', p', s', result, hrun, h', fun hresult => ?_⟩
      rw [Log.endOf_cons, hend hresult, hoffset]

/-- A cursor is stored only behind the end of a command. -/
theorem Carries.save (h : Carries f start cursor outbox rs runs last done p s) :
    ∃ stored s', Publisher.save outlet p s = ({ p with stored }, s') ∧
      Carries f start cursor outbox rs runs last done { p with stored } s' := by
  unfold Publisher.save
  by_cases hsame : p.committed = p.stored
  · rw [if_pos hsame]
    exact ⟨p.stored, s, rfl, h⟩
  · rw [if_neg hsame]
    rcases List.eq_nil_or_concat (Posting.committed (Posting.front runs last)) with
      hnil | ⟨before, x, hconcat⟩
    · -- Nothing is committed beyond the place where the publisher began.
      rw [h.committed, hnil, h.stored hnil] at hsame
      exact absurd rfl hsame
    · rw [List.concat_eq_append] at hconcat
      obtain ⟨files, replaced, saved, hstore, houtbox, hcursor⟩ := s.store_cases p.committed
      rw [hstore]
      have hstop : p.committed = x.record.stop := by
        rw [h.committed, hconcat, Posting.endOf_concat]
      refine ⟨if saved then p.committed else p.stored, s.keep p.committed files replaced, ?_, ?_⟩
      · cases saved <;> rfl
      · refine ⟨?_, houtbox.trans h.outbox, ?_, h.offset, h.committed, ?_⟩
        · cases replaced with
          | true =>
            show Posting.Reached _ runs last done (s.past ++ [.stored p.committed])
            rw [hstop]
            exact h.reached.store hconcat
          | false => exact h.reached
        · show files.cursor = _
          cases replaced with
          | true =>
            show _ = Effect.cursorFile cursor (s.past ++ [.stored p.committed])
            rw [hcursor, Effect.cursorFile, Effect.cursor?_stored]
            rfl
          | false => exact hcursor.trans h.cursor
        · rw [hconcat]
          intro hnil
          simp at hnil

/-- Going back behind what is committed begins another run. -/
theorem Carries.back (h : Carries f start cursor outbox rs runs last done p s) :
    Carries f start cursor outbox rs (runs ++ [last]) [] done
      { p with reader := none, offset := p.committed } s := by
  have hfront : Posting.front (runs ++ [last]) [] =
      Posting.committed (Posting.front runs last) := by
    rw [Posting.front, List.append_nil, Posting.resume_concat]
    rfl
  refine ⟨h.reached.back, h.outbox, h.cursor, ?_, ?_, ?_⟩
  · rw [hfront]
    exact h.committed
  · rw [hfront, Posting.committed_committed]
    exact h.committed
  · rw [hfront, Posting.committed_committed]
    exact h.stored

theorem reads_none {p : Publisher.Progress} (h : p.reader = none) : Reads limit outbox p := by
  intro r hr
  rw [h] at hr
  cases hr

/-- A reader that is opened has the limit of its options, and there is a file. -/
theorem reads_open (hout : outbox.Usable) {offset : Nat} (hwithin : offset ≤ outbox.size)
    {o : Log.ReadOptions} {r : Log.Reader} (h : Log.Reader.open? outbox offset o = .ok r) :
    outbox.isRegular ∧ r.StandsAt outbox offset ∧ r.limit = o.limit := by
  refine ⟨?_, Log.Reader.standsAt_of_open? hwithin h, ?_⟩
  · rcases hout with rfl | hreg
    · cases h
    · exact hreg
  · unfold Log.Reader.open? at h
    split at h
    · cases h
    · injection h with h
      rw [← h]

/-- The postings behind a publisher and those of the records that it will find. -/
theorem Carries.finds (h : Carries f start cursor outbox rs runs last done p s)
    (hfinds : Log.Finds limit outbox start rs) :
    ∃ rest, Log.Finds limit outbox p.offset rest ∧
      Posting.read f rs = Posting.front runs last ++ Posting.read f rest := by
  obtain ⟨rest, hrs, hread⟩ := Posting.read_eq_append (h.reached.behind.trans h.reached.within)
  refine ⟨rest, ?_, hread⟩
  rw [hrs] at hfinds
  rw [h.offset]
  exact hfinds.drop

theorem pairwise_positions (f : Format) (h : Log.Finds limit outbox start rs) :
    (Posting.positions (Posting.read f rs)).Pairwise (· < ·) := by
  obtain ⟨-, ps, rest, -, rfl⟩ := h
  have hstops := (Log.pairwise_recordsFrom start ps).sublist
    (Posting.map_record_read f (Log.recordsFrom start ps)).sublist
  rw [Posting.positions, List.pairwise_map]
  rwa [List.pairwise_map] at hstops

/-- A turn goes on with the last run, and goes back if anything fails. -/
theorem Carries.turn (h : Carries f start cursor outbox rs runs last done p s)
    (hout : outbox.Usable) {maxPayload : Nat}
    (hfinds : Log.Finds ({ maxPayload } : Log.ReadOptions).limit outbox start rs)
    (hreads : Reads ({ maxPayload } : Log.ReadOptions).limit outbox p) :
    ∃ runs' last' done' p' s' stops,
      Publisher.turn outlet f maxPayload p s = (p', s', stops) ∧
      Carries f start cursor outbox rs runs' last' done' p' s' ∧
      Reads ({ maxPayload } : Log.ReadOptions).limit outbox p' := by
  obtain ⟨rest, hrest, hread⟩ := h.finds hfinds
  have houtbox : outlet.outbox s = outbox := h.outbox
  cases hopened : p.opened (outlet.outbox s) maxPayload with
  | error e =>
    rw [Publisher.turn_of_unopened hopened]
    exact ⟨runs, last, done, p, s, _, rfl, h, hreads⟩
  | ok r =>
    obtain ⟨hreg, hstands, hlimit⟩ : outbox.isRegular ∧ r.StandsAt outbox p.offset ∧
        r.limit = ({ maxPayload } : Log.ReadOptions).limit := by
      rcases Publisher.Progress.opened_eq_ok_iff.1 hopened with hsome | ⟨-, hopen⟩
      · exact hreads r hsome
      · rw [houtbox] at hopen
        obtain ⟨hreg, hstands, hlimit⟩ := reads_open hout hrest.within hopen
        exact ⟨hreg, hstands, hlimit⟩
    obtain ⟨r', ending, hchunk, -, hkeep⟩ :=
      Publisher.readChunk_finds hreg Publisher.chunkSize hrest hstands hlimit
    rw [← houtbox] at hchunk
    rw [← List.take_append_drop Publisher.chunkSize rest] at hread
    obtain ⟨last₁, done₁, p₁, s₁, handled, hrun, h₁, hoffset⟩ :=
      h.forEach (pairwise_positions f hfinds) hread
    obtain ⟨stored, s₂, hsave, h₂⟩ := h₁.save
    rw [Publisher.turn_of_opened hopened hchunk hrun hsave]
    have hback := h₂.back
    have hnone : Reads ({ maxPayload } : Log.ReadOptions).limit outbox
        { p₁ with stored, reader := none, offset := p₁.committed } := reads_none rfl
    cases handled with
    | error u => exact ⟨_, _, _, _, s₂, _, rfl, hback, hnone⟩
    | ok _ =>
      cases ending with
      | more =>
        refine ⟨runs, last₁, done₁, _, s₂, _, rfl, { h₂ with }, ?_⟩
        intro r hr
        injection hr with hr
        subst hr
        obtain ⟨hstands', hlimit'⟩ := hkeep rfl
        refine ⟨hreg, ?_, hlimit'⟩
        show r'.StandsAt outbox p₁.offset
        rw [hoffset rfl]
        exact hstands'
      | idle => exact ⟨runs, last₁, done₁, _, s₂, _, rfl, { h₂ with }, reads_none rfl⟩
      | failed => exact ⟨_, _, _, _, s₂, _, rfl, hback, hnone⟩

/-! ## Any schedule -/

/-- A feed before its publisher has begun, or with one that has come so far without skipping
anything. -/
structure Tracks (f : Format) (limit start : Nat) (cursor : File) (s : Feed) : Prop where
  usable : s.files.outbox.Usable
  finds : ∃ rs, Log.Finds limit s.files.outbox start rs ∧
    ((s.progress = none ∧ s.past = [] ∧ s.files.cursor = cursor) ∨
      ∃ p runs last done, s.progress = some p ∧
        Carries f start cursor s.files.outbox rs runs last done p s ∧ Reads limit s.files.outbox p)

theorem Reads.grow {more : File} (h : Reads limit outbox p) (hreg : more.isRegular)
    (hmore : outbox.bytes <+: more.bytes) : Reads limit more p := by
  intro r hr
  obtain ⟨-, hstands, hlimit⟩ := h r hr
  exact ⟨hreg, hstands.grow hmore, hlimit⟩

theorem Tracks.grow (h : Tracks f limit start cursor s) (maxPayload : Nat) (more : Bytes) :
    Tracks f limit start cursor (s.step f maxPayload (.grow more)) := by
  have hgrow : s.files.outbox.bytes <+:
      (File.ofBytes (s.files.outbox.bytes ++ more)).bytes := by
    rw [File.bytes_ofBytes]
    exact List.prefix_append ..
  obtain ⟨rs, hfinds, hcase⟩ := h.finds
  obtain ⟨new, hfinds'⟩ := hfinds.grow hgrow
  refine ⟨File.usable_ofBytes _, rs ++ new, hfinds', ?_⟩
  rcases hcase with hidle | ⟨p, runs, last, done, hp, hcarries, hreads⟩
  · exact Or.inl hidle
  · refine Or.inr ⟨p, runs, last, done, hp, ?_, hreads.grow rfl hgrow⟩
    exact ⟨hcarries.reached.mono (Posting.prefix_read ..), rfl, hcarries.cursor, hcarries.offset,
      hcarries.committed, hcarries.stored⟩

theorem Tracks.turn {maxPayload : Nat}
    (h : Tracks f ({ maxPayload } : Log.ReadOptions).limit start cursor s)
    (hload : s.progress = none → Cursor.load cursor = .ok start) (t : Turn) :
    Tracks f ({ maxPayload } : Log.ReadOptions).limit start cursor
      (s.step f maxPayload (.turn t)) := by
  obtain ⟨rs, hfinds, hcase⟩ := h.finds
  unfold step
  dsimp only
  split
  · exact h
  · rcases hcase with ⟨hprogress, hpast, hcursor⟩ | ⟨p, runs, last, done, hp, hcarries, hreads⟩
    · have hload := hload hprogress
      rw [← hcursor] at hload
      have hstart := Publisher.start_within (o := outlet)
        (s := { s with turn := t, progress := none }) hload hfinds.within
      rw [hprogress]
      dsimp only
      rw [hstart]
      refine ⟨h.usable, rs, hfinds, Or.inr ⟨_, [], [], [], rfl, ?_, reads_none rfl⟩⟩
      refine ⟨?_, rfl, ?_, rfl, rfl, fun _ => rfl⟩
      · show Posting.Reached _ [] [] [] s.past
        rw [hpast]
        exact Posting.reached_nil _
      · show s.files.cursor = Effect.cursorFile cursor s.past
        rw [hpast]
        exact hcursor
    · have hturn : Carries f start cursor s.files.outbox rs runs last done p
          { s with turn := t, progress := some p } :=
        { hcarries with }
      obtain ⟨runs', last', done', p', s', stops, hrun, hcarries', hreads'⟩ :=
        hturn.turn h.usable hfinds hreads
      rw [hp]
      dsimp only
      rw [hrun]
      have hout : s'.files.outbox = s.files.outbox := hcarries'.outbox
      refine ⟨?_, rs, ?_, Or.inr ⟨p', runs', last', done', rfl, ?_, ?_⟩⟩
      · exact hout ▸ h.usable
      · exact hout ▸ hfinds
      · show Carries f start cursor s'.files.outbox rs runs' last' done' p' _
        rw [hout]
        exact { hcarries' with }
      · exact hout ▸ hreads'

/-- A publisher that has begun does not begin again. -/
theorem progress_eq_none {maxPayload : Nat} {move : Move}
    (h : (s.step f maxPayload move).progress = none) : s.progress = none := by
  cases hp : s.progress with
  | none => rfl
  | some p =>
    cases move with
    | grow more =>
      rw [← hp]
      exact h
    | turn t =>
      unfold step at h
      dsimp only at h
      split at h
      · rw [hp] at h
        cases h
      · rw [hp] at h
        cases h

theorem Tracks.run {maxPayload : Nat}
    (h : Tracks f ({ maxPayload } : Log.ReadOptions).limit start cursor s)
    (hload : s.progress = none → Cursor.load cursor = .ok start) (moves : List Move) :
    Tracks f ({ maxPayload } : Log.ReadOptions).limit start cursor (s.run f maxPayload moves) := by
  induction moves generalizing s with
  | nil => exact h
  | cons move moves ih =>
    refine ih ?_ fun hnone => hload (progress_eq_none hnone)
    cases move with
    | grow more => exact h.grow maxPayload more
    | turn t => exact h.turn hload t

/-- **A publisher skips nothing.** Take an outbox with any bytes and a cursor within it, and let the
outbox grow by any bytes, also by parts of records, between the turns of the publisher, of which any
may fail to publish or to store. The bytes behind the cursor are read in one way, as the frames of
some payloads and a rest. At every moment the history `Follows` the events of these payloads, and
the cursor file is the one from the beginning or that of the last stored cursor. -/
theorem nothing_skipped (f : Format) (maxPayload : Nat) {files : SymbolFiles} {start : Nat}
    (hout : files.outbox.Usable) (hload : Cursor.load files.cursor = .ok start)
    (hwithin : start ≤ files.outbox.size) (moves : List Move) :
    ∃ ps rest,
      Log.Parsed ({ maxPayload } : Log.ReadOptions).limit
        ((run f maxPayload { files } moves).files.outbox.bytes.drop start) ps rest ∧
      (∀ past, past <+: (run f maxPayload { files } moves).past →
        ∃ runs, Posting.Follows (Posting.read f (Log.recordsFrom start ps)) runs past) ∧
      (run f maxPayload { files } moves).files.cursor =
        Effect.cursorFile files.cursor (run f maxPayload { files } moves).past := by
  obtain ⟨rs, hfinds⟩ := Log.exists_finds ({ maxPayload } : Log.ReadOptions).limit hwithin
  have hbegin : Tracks f ({ maxPayload } : Log.ReadOptions).limit start files.cursor { files } :=
    ⟨hout, rs, hfinds, Or.inl ⟨rfl, rfl, rfl⟩⟩
  obtain ⟨-, rs', ⟨-, ps, rest, hparsed, rfl⟩, hcase⟩ := hbegin.run (fun _ => hload) moves
  refine ⟨ps, rest, hparsed, ?_⟩
  rcases hcase with ⟨-, hpast, hcursor⟩ | ⟨p, runs, last, done, -, hcarries, -⟩
  · rw [hpast]
    exact ⟨(Posting.reached_nil _).earlier, hcursor⟩
  · exact ⟨hcarries.reached.earlier, hcarries.cursor⟩

/-- An event of a command that is rejected. -/
def rejection (seq : Seq) (idx : UInt16) : Event :=
  { seq, idx, request := 7, kind := .rejected 0 0 .badCancel }

/-- The end of a command. -/
def ending (seq : Seq) (idx : UInt16) : Event :=
  { seq, idx, request := 7, kind := .commandEnd }

/-- Of the first two events the second is refused at first, and the end of their command cannot be
stored at first. Then comes a command whose first record is written in two parts. -/
def setbacks : List Move :=
  let added := Journal.eventBytes .csv [rejection 2 0, ending 2 1]
  [.turn {}, .turn { taken := [true, false] }, .turn { taken := [true, true], stored := .refused },
    .grow (added.take 20), .turn {}, .grow (added.drop 20), .turn { taken := [true] }]

/-- The outbox before that. -/
def beginning : SymbolFiles :=
  { outbox := .ofBytes (Journal.eventBytes .csv [rejection 1 0, rejection 1 1, ending 1 2]) }

/-- The first event is published twice, and none is left out. -/
theorem nothing_skipped_setbacks :
    let now := run .csv 0 { files := beginning } setbacks
    beginning.outbox.Usable ∧ Cursor.load beginning.cursor = .ok 0 ∧
      0 ≤ beginning.outbox.size ∧
      now.past = [.published (rejection 1 0), .published (rejection 1 0),
        .published (rejection 1 1), .stored 72, .published (rejection 2 0), .stored 117] ∧
      ∃ ps rest,
        Log.Parsed ({ maxPayload := 0 } : Log.ReadOptions).limit (now.files.outbox.bytes.drop 0)
          ps rest ∧
        (∀ past, past <+: now.past →
          ∃ runs, Posting.Follows (Posting.read .csv (Log.recordsFrom 0 ps)) runs past) ∧
        now.files.cursor = Effect.cursorFile beginning.cursor now.past := by
  have hout : beginning.outbox.Usable := File.usable_ofBytes _
  have hload : Cursor.load beginning.cursor = .ok 0 := rfl
  refine ⟨hout, hload, Nat.zero_le _, ?_,
    nothing_skipped .csv 0 hout hload (Nat.zero_le _) setbacks⟩
  decide +kernel

end Feed

end Bourse
