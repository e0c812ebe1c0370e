import Bourse.Engine.Basic
import Bourse.Proofs.Lifetime.Unhindered
import Bourse.Proofs.Outbox.Following

/-!
# Emptying an outbox

A publisher that is asked to stop first hands on what it can read. When nothing is refused, it comes
through all records from its cursor to the first one that is no event, however they fall into chunks,
and hands each event on once: `emptied`.
-/

namespace Bourse

/-- Where some of the postings are committed is within the outbox. -/
theorem Posting.endOf_committed_le {f : Format} {limit start : Nat} {outbox : File}
    {rs : List Log.Record} {front : List Posting} (hfinds : Log.Finds limit outbox start rs)
    (h : front <+: read f rs) : endOf start (committed front) ≤ outbox.size := by
  obtain ⟨rest, hrs, -⟩ := read_eq_append ((prefix_committed front).trans h)
  rw [hrs] at hfinds
  exact hfinds.drop.within

namespace Publisher

variable {σ : Type} {o : Outlet σ} {able : σ → Prop} {taken : σ → List Event} {f : Format}

/-! ## Coming past postings -/

/-- A publisher that began at an offset has dealt with these postings. -/
structure Progress.Past (p : Progress) (start : Nat) (front : List Posting) : Prop where
  offset : p.offset = Posting.endOf start front
  committed : p.committed = Posting.endOf start (Posting.committed front)

/-- Records are dealt with up to the first one that is no event. -/
theorem forEach_takes {start : Nat} {front : List Posting} {records : List Log.Record}
    {p : Progress} {s s' : σ} (hp : p.Past start front)
    (htakes : o.Takes s ((Posting.business (Posting.read f records)).map Posting.event) s') :
    ∃ p' result, Attempt.forEach (handle o f) (p, s) records = ((p', s'), result) ∧
      p'.Past start (front ++ Posting.read f records) ∧ p'.stored = p.stored ∧
      (result = .ok () ↔ (Posting.read f records).length = records.length) := by
  induction records generalizing p s front with
  | nil =>
    obtain rfl : s' = s := htakes
    exact ⟨p, .ok (), rfl, by rwa [Posting.read, List.append_nil], rfl, by simp [Posting.read]⟩
  | cons r rest ih =>
    rw [Attempt.forEach_cons]
    cases hdecode : f.decodeEvent r.payload with
    | error cause =>
      have hread : Posting.read f (r :: rest) = [] := by rw [Posting.read, hdecode]
      rw [hread] at htakes ⊢
      obtain rfl : s' = s := htakes
      refine ⟨p, .error (), by simp only [handle, hdecode, Attempt.andThen], ?_, rfl, by simp⟩
      rwa [List.append_nil]
    | ok e =>
      rw [Posting.read_cons hdecode] at htakes ⊢
      rw [List.append_cons, List.length_cons, List.length_cons, Nat.succ_inj]
      cases he : e.isCommandEnd with
      | true =>
        rw [← List.singleton_append, Posting.business_append, Posting.business_of_end he] at htakes
        rw [handle_of_end hdecode he]
        refine ih ⟨?_, ?_⟩ htakes
        · rw [Posting.endOf_concat]
        · rw [Posting.committed_concat_of_end he, Posting.endOf_concat]
      | false =>
        rw [← List.singleton_append, Posting.business_append, Posting.business_of_not_end he] at htakes
        obtain ⟨s₁, hpublish, hrest⟩ := htakes
        rw [handle_of_taken hdecode he hpublish]
        refine ih ⟨?_, ?_⟩ hrest
        · rw [Posting.endOf_concat]
        · rw [Posting.committed_concat_of_not_end he]
          exact hp.committed

/-! ## A turn in which nothing is refused -/

variable {limit start maxPayload : Nat} {rs : List Log.Record} {front todo : List Posting}
  {p : Progress} {s s₁ : σ}

/-- The records behind some postings have the postings that follow them. -/
theorem read_behind (hfinds : Log.Finds limit outbox start rs)
    (hread : Posting.read f rs = front ++ todo) :
    ∃ rest, Log.Finds limit outbox (Posting.endOf start front) rest ∧
      Posting.read f rest = todo := by
  obtain ⟨rest, rfl, hrest⟩ := Posting.read_eq_append (f := f) ⟨todo, hread.symm⟩
  exact ⟨rest, hfinds.drop, (List.append_cancel_left (hread.symm.trans hrest)).symm⟩

/-- Saving the cursor leaves the publisher where it is. -/
theorem exists_save (o : Outlet σ) (p : Progress) (s : σ) :
    ∃ stored s', save o p s = ({ p with stored }, s') := by
  unfold save
  split
  · exact ⟨p.stored, s, rfl⟩
  · rcases o.store s p.committed with ⟨s', saved⟩
    refine ⟨if saved then p.committed else p.stored, s', ?_⟩
    cases saved <;> rfl

/-- Where postings end whose records are all events. -/
theorem endOf_full {rest : List Log.Record} {n : Nat} (hfull : n ≤ (Posting.read f rest).length)
    (start : Nat) (front : List Posting) :
    Posting.endOf start (front ++ Posting.read f (rest.take n)) =
      Log.endOf (Posting.endOf start front) (rest.take n) := by
  have hle := (Posting.map_record_read f rest).length_le
  rw [List.length_map] at hle
  have hrecords : (Posting.read f (rest.take n)).map Posting.record = rest.take n := by
    refine (Posting.map_record_read f _).eq_of_length ?_
    rw [List.length_map, Posting.read_take, List.length_take, List.length_take]
    omega
  rw [Posting.endOf, List.map_append, hrecords, Log.endOf_append, ← Posting.endOf]

/-- A turn in which the next postings are taken, at most a chunk, comes past them. The publisher is
ready to stop when there are fewer, and otherwise it reads on. -/
theorem turn_takes (hreg : (o.outbox s).isRegular) (hrange : (o.outbox s).size ≤ File.maxPosition)
    (hfinds : Log.Finds ({ maxPayload } : Log.ReadOptions).limit (o.outbox s) start rs)
    (hread : Posting.read f rs = front ++ todo) (hp : p.Past start front)
    (hreads : Feed.Reads ({ maxPayload } : Log.ReadOptions).limit (o.outbox s) p)
    (htakes : o.Takes s ((Posting.business (todo.take chunkSize)).map Posting.event) s₁) :
    ∃ p₁ p', p₁.Past start (front ++ todo.take chunkSize) ∧ p₁.stored = p.stored ∧
      turn o f maxPayload p s =
        (p', (save o p₁ s₁).2, if chunkSize ≤ todo.length then false else o.cancelled s) ∧
      p'.committed = p₁.committed ∧ p'.stored = (save o p₁ s₁).1.stored ∧
      (chunkSize ≤ todo.length → p'.offset = p₁.offset ∧
        Feed.Reads ({ maxPayload } : Log.ReadOptions).limit (o.outbox s) p') := by
  obtain ⟨rest, hrest, rfl⟩ := read_behind hfinds hread
  rw [← hp.offset] at hrest
  rw [← Posting.read_take] at htakes ⊢
  obtain ⟨p₁, result, hrun, hpast, hstored, hresult⟩ := forEach_takes hp htakes
  obtain ⟨stored, s₂, hsave⟩ := exists_save o p₁ s₁
  obtain ⟨r, hopened, hlimit, hstands⟩ := exists_reader maxPayload hreg hrest.within
    hrange fun r hr => (hreads r hr).2.symm
  obtain ⟨r', ending, hchunk, hend, hkeep⟩ := readChunk_finds hreg chunkSize hrest hstands hlimit
  have hle := (Posting.map_record_read f rest).length_le
  rw [List.length_map] at hle
  rw [Posting.read_take, List.length_take, List.length_take] at hresult
  by_cases hmore : chunkSize ≤ (Posting.read f rest).length
  · -- The chunk is full of events, so the reader stays where it stands behind them.
    obtain rfl : result = .ok () := hresult.2 (by omega)
    obtain rfl : ending = .more := hend.2 (Nat.le_trans hmore hle)
    obtain ⟨hstands, hlimit⟩ := hkeep rfl
    refine ⟨p₁, { p₁ with stored, reader := some r' }, hpast, hstored, ?_, rfl, by rw [hsave],
      fun _ => ⟨rfl, ?_⟩⟩
    · rw [hsave, turn_of_opened hopened hchunk hrun hsave, if_pos hmore]
      rfl
    · intro r'' hr''
      injection hr'' with hr''
      subst hr''
      refine ⟨hreg, ?_, hlimit⟩
      show r'.StandsAt _ p₁.offset
      rw [hpast.offset, endOf_full hmore, ← hp.offset]
      exact hstands
  · -- Either a record is no event, or the chunk has room for more records than there are.
    refine ⟨p₁, { p₁ with
        stored
        reader := none
        offset := if result = .ok () ∧ ending ≠ .failed then p₁.offset else p₁.committed },
      hpast, hstored, ?_, rfl, by rw [hsave], fun h => absurd h hmore⟩
    rw [hsave, if_neg hmore]
    cases result with
    | error e =>
      rw [turn_of_opened hopened hchunk hrun hsave, if_neg (by simp)]
      rfl
    | ok _ =>
      have hfew : ending ≠ .more := by
        rw [Ne, hend]
        have := hresult.1 rfl
        omega
      rw [turn_of_opened hopened hchunk hrun hsave]
      cases ending with
      | more => exact absurd rfl hfew
      | idle =>
        rw [if_pos ⟨rfl, by simp⟩]
        rfl
      | failed =>
        rw [if_neg (by simp)]
        rfl

/-! ## Surroundings that refuse nothing -/

/-- From one state to another some events were taken. Of what a publisher sees nothing else has
changed but the cursor. -/
structure Outlet.Took (o : Outlet σ) (taken : σ → List Event) (s s' : σ) (es : List Event) :
    Prop where
  taken : taken s' = taken s ++ es
  outbox : o.outbox s' = o.outbox s
  cancelled : o.cancelled s' = o.cancelled s

/-- Surroundings in which every event is taken and every cursor stored, as long as they are `able`
to, which they stay. What was taken is told by `taken`. -/
structure Outlet.Obliges (o : Outlet σ) (able : σ → Prop) (taken : σ → List Event) : Prop where
  publish : ∀ s e, able s → ∃ s', o.publish s e = (s', true) ∧ able s' ∧
    o.Took taken s s' [e] ∧ o.cursor s' = o.cursor s
  store : ∀ s offset, able s → ∃ s', o.store s offset = (s', true) ∧ able s' ∧
    o.Took taken s s' [] ∧ o.cursor s' = .ofBytes (Cursor.encode offset)

theorem Outlet.Took.refl (s : σ) : o.Took taken s s [] :=
  ⟨(List.append_nil _).symm, rfl, rfl⟩

theorem Outlet.Took.trans {s s' s'' : σ} {es more : List Event} (h : o.Took taken s s' es)
    (h' : o.Took taken s' s'' more) : o.Took taken s s'' (es ++ more) where
  taken := by rw [h'.taken, h.taken, List.append_assoc]
  outbox := h'.outbox.trans h.outbox
  cancelled := h'.cancelled.trans h.cancelled

/-- All of some events are taken, and the cursor stays. -/
theorem Outlet.Obliges.takes (ho : o.Obliges able taken) {s : σ} (hs : able s)
    (es : List Event) :
    ∃ s', o.Takes s es s' ∧ able s' ∧ o.Took taken s s' es ∧ o.cursor s' = o.cursor s := by
  induction es generalizing s with
  | nil => exact ⟨s, rfl, hs, .refl s, rfl⟩
  | cons e rest ih =>
    obtain ⟨s₁, hpublish, hs₁, htook, hcursor⟩ := ho.publish s e hs
    obtain ⟨s', hrest, hs', htook', hcursor'⟩ := ih hs₁
    exact ⟨s', ⟨s₁, hpublish, hrest⟩, hs', htook.trans htook', hcursor'.trans hcursor⟩

/-- A publisher that began at an offset has handed on the postings of `front`, and its cursor is
stored. -/
structure Progress.Comes (p : Progress) (limit start : Nat) (outbox cursor : File)
    (front : List Posting) : Prop where
  past : p.Past start front
  stored : p.stored = p.committed
  cursor : Cursor.load cursor = .ok p.committed
  reads : Feed.Reads limit outbox p

/-- What is committed gets stored. -/
theorem save_obliges (ho : o.Obliges able taken) (hs : able s)
    (hcursor : Cursor.load (o.cursor s) = .ok p.stored) (hrange : p.committed ≤ File.maxPosition) :
    ∃ s', save o p s = ({ p with stored := p.committed }, s') ∧ able s' ∧ o.Took taken s s' [] ∧
      Cursor.load (o.cursor s') = .ok p.committed := by
  unfold save
  by_cases hsame : p.committed = p.stored
  · rw [if_pos hsame]
    have hstored : ({ p with stored := p.committed } : Progress) = p := by
      obtain ⟨committed, stored, offset, reader⟩ := p
      obtain rfl : committed = stored := hsame
      rfl
    exact ⟨s, by rw [hstored], hs, .refl s, hsame ▸ hcursor⟩
  · obtain ⟨s', hstore, hs', htook, hreplaced⟩ := ho.store s p.committed hs
    rw [if_neg hsame, hstore]
    have hencoded : Cursor.store .absent p.committed = .ok (o.cursor s') := by
      rw [hreplaced]
      rfl
    exact ⟨s', rfl, hs', htook, Cursor.load_store_of_inRange hencoded hrange⟩

/-- A turn hands on the next postings, at most a chunk of them, and stores the cursor. The publisher
is ready to stop when there are fewer. -/
theorem turn_obliges (ho : o.Obliges able taken) (hs : able s) (hout : (o.outbox s).Usable)
    (hrange : (o.outbox s).size ≤ File.maxPosition)
    (hfinds : Log.Finds ({ maxPayload } : Log.ReadOptions).limit (o.outbox s) start rs)
    (hread : Posting.read f rs = front ++ todo)
    (hp : p.Comes ({ maxPayload } : Log.ReadOptions).limit start (o.outbox s) (o.cursor s) front) :
    ∃ p' s', turn o f maxPayload p s =
        (p', s', if chunkSize ≤ todo.length then false else o.cancelled s) ∧ able s' ∧
      o.Took taken s s' ((Posting.business (todo.take chunkSize)).map Posting.event) ∧
      p'.committed = Posting.endOf start (Posting.committed (front ++ todo.take chunkSize)) ∧
      Cursor.load (o.cursor s') = .ok p'.committed ∧
      (chunkSize ≤ todo.length → p'.Comes ({ maxPayload } : Log.ReadOptions).limit start
        (o.outbox s') (o.cursor s') (front ++ todo.take chunkSize)) := by
  rcases hout with habsent | hreg
  · -- Nothing is there to be handed on.
    have hnone : p.reader = none := by
      cases hreader : p.reader with
      | none => rfl
      | some r =>
        obtain ⟨hreg, -⟩ := hp.reads r hreader
        rw [habsent] at hreg
        cases hreg
    have hnil : todo = [] := by
      obtain ⟨rest, hrest, rfl⟩ := read_behind hfinds hread
      rw [habsent] at hrest
      rw [hrest.eq_nil]
      rfl
    subst hnil
    refine ⟨p, s, ?_, hs, .refl s, ?_, hp.cursor, fun hmore => absurd hmore (by decide)⟩
    · simp only [turn, hnone, habsent]
      rfl
    · rw [List.take_nil, List.append_nil]
      exact hp.past.committed
  · have hcut : Posting.endOf start (Posting.committed (front ++ todo.take chunkSize)) ≤
        File.maxPosition := by
      refine Nat.le_trans (Posting.endOf_committed_le (f := f) hfinds ?_) hrange
      rw [hread]
      exact (List.prefix_append_right_inj front).2 (List.take_prefix ..)
    obtain ⟨s₁, htakes, hs₁, htook₁, hcursor₁⟩ :=
      ho.takes hs ((Posting.business (todo.take chunkSize)).map Posting.event)
    obtain ⟨p₁, p', hpast, hkept, hturn, hcommitted, hstored, hmore⟩ :=
      turn_takes hreg hrange hfinds hread hp.past hp.reads htakes
    obtain ⟨s₂, hsave, hs₂, htook₂, hload⟩ := save_obliges (p := p₁) ho hs₁
      (by rw [hcursor₁, hkept, hp.stored, hp.cursor]) (hpast.committed ▸ hcut)
    rw [hsave] at hturn hstored
    have htook := htook₁.trans htook₂
    rw [List.append_nil] at htook
    refine ⟨p', s₂, hturn, hs₂, htook, hcommitted.trans hpast.committed, hcommitted ▸ hload,
      fun hfull => ?_⟩
    obtain ⟨hoffset, hreads⟩ := hmore hfull
    refine ⟨⟨hoffset.trans hpast.offset, hcommitted.trans hpast.committed⟩,
      hstored.trans hcommitted.symm, hcommitted ▸ hload, ?_⟩
    rw [htook.outbox]
    exact hreads

/-! ## A whole run -/

/-- Turns follow each other until what is left is less than a chunk. -/
theorem run_obliges (ho : o.Obliges able taken) (hs : able s) (hout : (o.outbox s).Usable)
    (hrange : (o.outbox s).size ≤ File.maxPosition) (hasked : o.cancelled s = true)
    (hfinds : Log.Finds ({ maxPayload } : Log.ReadOptions).limit (o.outbox s) start rs)
    (hread : Posting.read f rs = front ++ todo)
    (hp : p.Comes ({ maxPayload } : Log.ReadOptions).limit start (o.outbox s) (o.cursor s) front)
    {turns : Nat} (hturns : todo.length / chunkSize < turns) :
    ∃ s', run o f maxPayload turns (some p) s =
        (s', some (Posting.endOf start (Posting.committed (front ++ todo)))) ∧
      o.Took taken s s' ((Posting.business todo).map Posting.event) ∧
      Cursor.load (o.cursor s') =
        .ok (Posting.endOf start (Posting.committed (front ++ todo))) := by
  induction turns generalizing front todo p s with
  | zero => exact absurd hturns (Nat.not_lt_zero _)
  | succ turns ih =>
    obtain ⟨p₁, s₁, hturn, hs₁, htook, hcommitted, hload, hnext⟩ :=
      turn_obliges ho hs hout hrange hfinds hread hp
    rw [run, hturn]
    by_cases hmore : chunkSize ≤ todo.length
    · rw [if_pos hmore]
      have hsplit : front ++ todo.take chunkSize ++ todo.drop chunkSize = front ++ todo := by
        rw [List.append_assoc, List.take_append_drop]
      have hleft : (todo.drop chunkSize).length / chunkSize < turns := by
        rw [List.length_drop]
        rw [chunkSize] at *
        omega
      have houtbox := htook.outbox
      obtain ⟨s', hrun, htook', hload'⟩ := ih hs₁ (houtbox ▸ hout) (houtbox ▸ hrange)
        (htook.cancelled.trans hasked) (houtbox ▸ hfinds) (hread.trans hsplit.symm) (hnext hmore)
        hleft
      rw [hsplit] at hrun hload'
      refine ⟨s', hrun, ?_, hload'⟩
      have hall := htook.trans htook'
      rwa [← List.map_append, ← Posting.business_append, List.take_append_drop] at hall
    · rw [List.take_of_length_le (Nat.le_of_not_le hmore)] at htook hcommitted
      rw [if_neg hmore, hasked]
      rw [hcommitted] at hload
      exact ⟨s₁, by rw [← hcommitted], htook, hload⟩

/-- **A publisher that is asked to stop empties the outbox first.** Let the outbox hold any bytes,
let the cursor be within it, and let nothing be refused. The bytes behind the cursor are read in one
way, as the frames of some payloads and a rest. The events up to the first payload that is no event
are handed on, each once and in order, and no others; the publisher stops where the last of their
commands ends, and leaves the cursor there. It needs a turn to begin, one for each full chunk of
events, and one to see that there are no more. -/
theorem emptied (ho : o.Obliges able taken) (hs : able s) (hasked : o.cancelled s = true)
    (hout : (o.outbox s).Usable) (hrange : (o.outbox s).size ≤ File.maxPosition)
    (hload : Cursor.load (o.cursor s) = .ok start) (hwithin : start ≤ (o.outbox s).size)
    (f : Format) (maxPayload : Nat) :
    ∃ ps rest,
      Log.Parsed ({ maxPayload } : Log.ReadOptions).limit ((o.outbox s).bytes.drop start) ps rest ∧
      ∀ turns, (Posting.read f (Log.recordsFrom start ps)).length / chunkSize + 2 ≤ turns →
        ∃ s', run o f maxPayload turns none s = (s', some (Posting.endOf start
            (Posting.committed (Posting.read f (Log.recordsFrom start ps))))) ∧
          o.Took taken s s' ((Posting.business
            (Posting.read f (Log.recordsFrom start ps))).map Posting.event) ∧
          Cursor.load (o.cursor s') = .ok (Posting.endOf start
            (Posting.committed (Posting.read f (Log.recordsFrom start ps)))) := by
  obtain ⟨rs, hfinds⟩ := Log.exists_finds ({ maxPayload } : Log.ReadOptions).limit hwithin
  have hfound := hfinds
  obtain ⟨-, ps, rest, hparsed, rfl⟩ := hfound
  refine ⟨ps, rest, hparsed, fun turns hturns => ?_⟩
  cases turns with
  | zero => cases hturns
  | succ turns =>
    rw [run, start_within hload hwithin]
    exact run_obliges ho hs hout hrange hasked hfinds (List.nil_append _).symm
      ⟨⟨rfl, rfl⟩, rfl, hload, Feed.reads_none rfl⟩ (Nat.le_of_succ_le_succ hturns)

end Publisher

/-- Nothing is refused while an engine drains an outbox, if the cursor can be replaced. -/
theorem Drain.obliges : Drain.outlet.Obliges
    (fun d => d.files.cursor.Usable ∧ d.files.scratch.Usable) fun d => d.published.reverse where
  publish d e hd := ⟨_, rfl, hd, ⟨List.reverse_cons, rfl, rfl⟩, rfl⟩
  store d offset := by
    rintro ⟨hcursor, hscratch⟩
    have hstore : Drain.outlet.store d offset = ({ d with files := { d.files with
        cursor := .ofBytes (Cursor.encode offset), scratch := .absent } }, true) := by
      unfold outlet
      dsimp only
      rw [SymbolFiles.storeCursor_of_usable hcursor hscratch]
    exact ⟨_, hstore, ⟨File.usable_ofBytes _, .inl rfl⟩, ⟨(List.append_nil _).symm, rfl, rfl⟩, rfl⟩

/-- Two commands of which the second is not ended before a record that is no event. -/
def Drain.halted : Drain where
  files := { outbox := .ofBytes (Journal.eventBytes .csv
      [Feed.rejection 1 0, Feed.ending 1 1, Feed.rejection 2 0] ++
    Log.frame [1, 2, 3] ++ Journal.eventBytes .csv [Feed.ending 2 1]) }

/-- The event of the second command is handed on, but the cursor stays behind the first. -/
theorem Publisher.emptied_halted :
    let d := Drain.halted
    (d.files.cursor.Usable ∧ d.files.scratch.Usable) ∧ Drain.outlet.cancelled d = true ∧
      d.files.outbox.Usable ∧ d.files.outbox.size ≤ File.maxPosition ∧
      Cursor.load d.files.cursor = .ok 0 ∧ 0 ≤ d.files.outbox.size ∧
      (run Drain.outlet .csv 0 2 none d).1.published = [Feed.rejection 2 0, Feed.rejection 1 0] ∧
      (run Drain.outlet .csv 0 2 none d).2 = some 45 ∧
      ∃ ps rest,
        Log.Parsed ({ maxPayload := 0 } : Log.ReadOptions).limit (d.files.outbox.bytes.drop 0)
          ps rest ∧
        ∀ turns, (Posting.read .csv (Log.recordsFrom 0 ps)).length / chunkSize + 2 ≤ turns →
          ∃ s', run Drain.outlet .csv 0 turns none d = (s', some (Posting.endOf 0
              (Posting.committed (Posting.read .csv (Log.recordsFrom 0 ps))))) ∧
            Drain.outlet.Took (fun d => d.published.reverse) d s' ((Posting.business
              (Posting.read .csv (Log.recordsFrom 0 ps))).map Posting.event) ∧
            Cursor.load s'.files.cursor = .ok (Posting.endOf 0
              (Posting.committed (Posting.read .csv (Log.recordsFrom 0 ps)))) := by
  have hable : Drain.halted.files.cursor.Usable ∧ Drain.halted.files.scratch.Usable :=
    ⟨.inl rfl, .inl rfl⟩
  have hout : Drain.halted.files.outbox.Usable := File.usable_ofBytes _
  have hrange : Drain.halted.files.outbox.size ≤ File.maxPosition := by decide +kernel
  refine ⟨hable, rfl, hout, hrange, rfl, Nat.zero_le _, by decide +kernel, by decide +kernel, ?_⟩
  exact emptied Drain.obliges hable rfl hout hrange rfl (Nat.zero_le _) .csv 0

end Bourse
