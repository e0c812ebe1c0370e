import Bourse.Proofs.Symbol.Accounting
import Bourse.Proofs.Symbol.Running

/-!
# Actors that fail

An actor fails with the first operation that does, or at a command with too many events, and asks
nothing of its logs from then on. Whichever operation it is, the outbox has first events of commands
that the log was flushed with before, in the order of execution; so a recovery can go on from both
logs: `run_fails_closed`.
-/

namespace Bourse

/-! ## All events of commands -/

namespace Journal

/-- The events of logged commands as they would be recorded if none of them had too many: those of
each command, numbered from zero, and then the one that closes it. -/
def sequence (b : Book) : List (Seq × Command) → List Event
  | [] => []
  | entry :: rest =>
    Event.number entry.1 entry.2.request ((b.execute entry.2).2 ++ [.commandEnd]) ++
      sequence (b.execute entry.2).1 rest

variable {b : Book} {last : Seq} {cs : List Command}

theorem sequence_cons (b : Book) (last : Seq) (c : Command) (cs : List Command) :
    sequence b (Actor.number last (c :: cs)) =
      Event.number (last + 1) c.request ((b.execute c).2 ++ [.commandEnd]) ++
        sequence (b.execute c).1 (Actor.number (last + 1) cs) := rfl

theorem sequence_append (b : Book) (last : Seq) (cs ds : List Command) :
    sequence b (Actor.number last (cs ++ ds)) =
      sequence b (Actor.number last cs) ++
        sequence (b.executeAll cs) (Actor.number (last + UInt64.ofNat cs.length) ds) := by
  rw [Actor.number_append]
  induction cs generalizing b last with
  | nil => rfl
  | cons c rest ih =>
    rw [Actor.number, List.cons_append, sequence, sequence, List.append_assoc, Book.executeAll_cons,
      List.length_cons, ← Actor.succ_add_ofNat, ih]

theorem sequence_prefix (b : Book) (last : Seq) {ds : List Command} (h : cs <+: ds) :
    sequence b (Actor.number last cs) <+: sequence b (Actor.number last ds) := by
  obtain ⟨more, rfl⟩ := h
  rw [sequence_append]
  exact List.prefix_append ..

/-- All events of commands that do not have too many are recorded. -/
theorem events_eq_sequence (h : b.Modest cs) :
    events b (Actor.number last cs) = sequence b (Actor.number last cs) := by
  induction cs generalizing b last with
  | nil => rfl
  | cons c rest ih =>
    have hgroup : group b (last + 1, c) =
        Event.number (last + 1) c.request ((b.execute c).2 ++ [.commandEnd]) := by
      rw [group, Event.recorded, recordedKinds, if_pos h.1]
    rw [events_cons_of_le h.1, sequence_cons, ih h.2, hgroup]

/-- What is recorded are first events of the sequence. -/
theorem events_prefix_sequence (b : Book) (last : Seq) (cs : List Command) :
    events b (Actor.number last cs) <+: sequence b (Actor.number last cs) := by
  induction cs generalizing b last with
  | nil => exact List.prefix_refl _
  | cons c rest ih =>
    rw [sequence_cons]
    by_cases h : (b.execute c).2.length ≤ maxEvents
    · rw [events_cons_of_le h, group, Event.recorded, recordedKinds, if_pos h]
      exact (List.prefix_append_right_inj _).2 (ih _ _)
    · have hlt := Nat.lt_of_not_le h
      rw [events_cons_of_lt hlt, group, Event.recorded_of_lt hlt]
      refine List.IsPrefix.trans ?_ (List.prefix_append ..)
      conv => rhs; rw [← List.take_append_drop maxEvents (b.execute c).2, List.append_assoc]
      rw [Event.number_append]
      exact List.prefix_append ..

/-- Behind the closing event of a command there is nothing missing of the commands so far. -/
theorem sequence_closed {before after : List Event} {e : Event}
    (h : sequence b (Actor.number last cs) = before ++ e :: after) (he : e.isCommandEnd = true) :
    ∃ n, n ≤ cs.length ∧ before ++ [e] = sequence b (Actor.number last (cs.take n)) := by
  induction cs generalizing b last before with
  | nil => simp [Actor.number, sequence] at h
  | cons c rest ih =>
    -- The events of the first command, of which only the last one closes it.
    have hopen := Event.open_number (b.commandEnd_not_mem_execute c) (last + 1) c.request
    obtain ⟨closing, hgroup⟩ : ∃ closing,
        Event.number (last + 1) c.request ((b.execute c).2 ++ [.commandEnd]) =
          Event.number (last + 1) c.request (b.execute c).2 ++ [closing] :=
      ⟨_, Event.number_append ..⟩
    have hcons (ds : List Command) : sequence b (Actor.number last (c :: ds)) =
        (Event.number (last + 1) c.request (b.execute c).2 ++ [closing]) ++
          sequence (b.execute c).1 (Actor.number (last + 1) ds) := by
      rw [sequence_cons, hgroup]
    have hone : sequence b (Actor.number last [c]) =
        Event.number (last + 1) c.request (b.execute c).2 ++ [closing] := by
      rw [hcons, Actor.number, sequence, List.append_nil]
    rw [hcons] at h
    have hbefore : before ++ [e] <+: (Event.number (last + 1) c.request (b.execute c).2 ++
        [closing]) ++ sequence (b.execute c).1 (Actor.number (last + 1) rest) :=
      ⟨after, by rw [h, List.append_assoc, List.singleton_append]⟩
    rcases List.prefix_or_prefix_of_prefix hbefore (List.prefix_append ..) with hin | ⟨more, hmore⟩
    · rcases List.prefix_concat_iff.1 hin with hall | hin
      · exact ⟨1, by simp, hall.trans hone.symm⟩
      · have hmem := hin.subset (List.mem_append_right before (List.mem_singleton_self e))
        rw [hopen e hmem] at he
        cases he
    · rcases List.eq_nil_or_concat more with rfl | ⟨init, d, rfl⟩
      · exact ⟨1, by simp, (hmore.symm.trans (List.append_nil _)).trans hone.symm⟩
      · rw [List.concat_eq_append, ← List.append_assoc] at hmore
        obtain ⟨rfl, hd⟩ := List.append_inj' hmore rfl
        obtain rfl := List.singleton_inj.1 hd
        rw [List.append_assoc _ init] at h
        obtain ⟨n, hn, hinit⟩ := ih (List.append_cancel_left h)
        refine ⟨n + 1, Nat.succ_le_succ hn, ?_⟩
        rw [List.take_succ_cons, hcons, ← hinit]
        simp only [List.append_assoc]

/-- Recording commands stops with the last event that there is a place for. -/
theorem events_of_not_modest (h : ¬ b.Modest cs) :
    ∃ front e, events b (Actor.number last cs) = front ++ [e] ∧ e.idx.toNat + 1 = maxEvents ∧
      e.isCommandEnd = false := by
  induction cs generalizing b last with
  | nil => exact absurd trivial h
  | cons c rest ih =>
    by_cases hle : (b.execute c).2.length ≤ maxEvents
    · obtain ⟨front, e, hevents, hlast⟩ := @ih _ (last + 1) fun hrest => h ⟨hle, hrest⟩
      refine ⟨group b (last + 1, c) ++ front, e, ?_, hlast⟩
      rw [events_cons_of_le hle, List.append_assoc, ← hevents]
    · have hlt : maxEvents < (b.execute c).2.length := Nat.lt_of_not_le hle
      have hlen : (group b (last + 1, c)).length = maxEvents := by
        rw [group, Event.recorded_of_lt hlt, Event.number, List.length_map, List.length_zipIdx,
          List.length_take, Nat.min_eq_left (Nat.le_of_lt hlt)]
      have hopen : Event.Open (group b (last + 1, c)) := by
        rcases group_cases b (last + 1, c) with ⟨hle', -⟩ | ⟨-, hopen⟩
        · exact absurd hle' hle
        · exact hopen
      obtain ⟨front, e, hgroup⟩ : ∃ front e, group b (last + 1, c) = front ++ [e] := by
        rcases List.eq_nil_or_concat (group b (last + 1, c)) with hnil | ⟨front, e, hconcat⟩
        · rw [hnil] at hlen
          cases hlen
        · exact ⟨front, e, by rw [hconcat, List.concat_eq_append]⟩
      have hfront : front.length + 1 = maxEvents := by
        rw [← hlen, hgroup, List.length_append, List.length_singleton]
      have hget : (group b (last + 1, c))[front.length]? = some e := by
        rw [hgroup, List.getElem?_concat_length]
      have hidx : e.idx.toNat = front.length := (Event.getElem?_recorded hget).2.1
      refine ⟨front, e, ?_, by rw [hidx, hfront], hopen e ?_⟩
      · rw [events_cons_of_lt hlt, hgroup]
      · rw [hgroup]
        exact List.mem_append_right _ (List.mem_singleton_self e)

end Journal

/-! ## What an account says of a failure -/

/-- How an account ends when an actor fails: with the operation that failed, or with the last event
of a command that there is a place for. No operation before it failed. -/
inductive Account.Fails (t : Account) : ActorError → Prop
  | operation {front : List LogOp} {op : LogOp} {cause : LogError}
      (account : t = done front ++ [(op, .error cause)]) : Fails t (op.failure cause)
  | tooManyEvents {front : List LogOp} {e : Event}
      (account : t = done (front ++ [.appendEvent e])) (full : e.idx.toNat + 1 = maxEvents)
      (isOpen : e.isCommandEnd = false) : Fails t (.outboxAppend .tooManyEvents)

namespace Actor

variable {σ τ : Type}

/-- The records by which an actor logs these commands, if they are the next ones. -/
def payloads (a : Actor σ) (cs : List Command) : List Bytes :=
  Journal.payloads a.format (number a.lastSeq cs)

/-- The events of these commands, if an actor executes them next. -/
def sequence (a : Actor σ) (cs : List Command) : List Event :=
  Journal.sequence a.book (number a.lastSeq cs)

/-- What is to hold at any time while an actor gets the commands `given`: the log has first ones of
these, and the outbox has first events of those that the log was flushed with. -/
structure Sane (a : Actor σ) (given : List Command) (y : Tally) : Prop where
  logged : y.logged <+: a.payloads given
  recorded : y.recorded <+: y.offered
  secured : ∃ ds, ds <+: given ∧ y.secured = a.payloads ds ∧ y.offered <+: a.sequence ds

/-- What is to hold when the actor `a`, which was given these commands and made `ds` of them
durable, has become `a'` and failed. -/
structure FailsClosed (a : Actor σ) (a' : Actor τ) (given ds : List Command) (t : Account)
    (e : ActorError) : Prop where
  durable : ds <+: given
  secured : t.tally.secured = a.payloads ds
  recorded : t.tally.recorded <+: a.sequence ds
  throughout : t.Throughout (a.Sane given)
  fails : t.Fails e
  /-- If the log failed, the commands behind those of `ds` were not executed, and those of `ds` are
  complete in both logs. -/
  unexecuted : ∀ cause, e = .commandAppend cause ∨ e = .commandFlush cause →
    a'.book = a.book.executeAll ds ∧ a'.commands = a.commands + ds.length ∧
      t.tally.offered = a.sequence ds ∧ t.tally.settled = a.sequence ds
  /-- Before a closing event all events of the commands so far were recorded. -/
  closed : ∀ before event after, t.tally.offered = before ++ event :: after →
    event.isCommandEnd = true → before <+: t.tally.recorded ∧
      ∃ n, n ≤ given.length ∧ before ++ [event] = a.sequence (given.take n)
  lastSeq : a'.lastSeq = ((number a.lastSeq ds).getLast?.map Prod.fst).getD a.lastSeq

section

variable {a : Actor σ} {b b' : Actor (σ × Account)} {given done ds batch : List Command}
  {t : Account} {e : ActorError}

theorem payloads_append (a : Actor σ) (cs ds : List Command) :
    a.payloads (cs ++ ds) = a.payloads cs ++
      Journal.payloads a.format (number (a.lastSeq + UInt64.ofNat cs.length) ds) := by
  rw [payloads, number_append, Journal.payloads_append]
  rfl

theorem payloads_prefix (a : Actor σ) {cs ds : List Command} (h : cs <+: ds) :
    a.payloads cs <+: a.payloads ds := by
  obtain ⟨more, rfl⟩ := h
  rw [payloads_append]
  exact List.prefix_append ..

/-- The number of the last of these commands. -/
theorem getLast_number (last : Seq) (cs : List Command) :
    ((number last cs).getLast?.map Prod.fst).getD last = last + UInt64.ofNat cs.length := by
  rcases List.eq_nil_or_concat cs with rfl | ⟨init, c, rfl⟩
  · exact (UInt64.add_zero last).symm
  · rw [List.concat_eq_append, number_append]
    simp only [number, List.getLast?_concat, Option.map_some, Option.getD_some,
      List.length_append, List.length_singleton]
    rw [UInt64.ofNat_add, ← UInt64.add_assoc]
    rfl

/-- Closing events come behind all events of their commands, of which only the last one that was
offered may not have been recorded. -/
theorem closed_of_prefix {recorded more : List Event} (hmore : more.length ≤ 1)
    (h : recorded ++ more <+: a.sequence ds) (hds : ds <+: given) (before : List Event)
    (event : Event) (after : List Event) (hsplit : recorded ++ more = before ++ event :: after)
    (hend : event.isCommandEnd = true) :
    before <+: recorded ∧
      ∃ n, n ≤ given.length ∧ before ++ [event] = a.sequence (given.take n) := by
  constructor
  · have hbefore : before <+: recorded ++ more := by
      rw [hsplit]
      exact List.prefix_append ..
    refine List.prefix_of_prefix_length_le hbefore (List.prefix_append ..) ?_
    have := congrArg List.length hsplit
    simp only [List.length_append, List.length_cons] at this
    omega
  · obtain ⟨rest, hrest⟩ := h.trans (Journal.sequence_prefix a.book a.lastSeq hds)
    rw [hsplit, List.append_assoc, List.cons_append] at hrest
    exact Journal.sequence_closed hrest.symm hend

/-- Nothing but the outbox failed. -/
theorem failsClosed_of_outbox {recorded more : List Event} (hds : ds <+: given)
    (hsecured : t.tally.secured = a.payloads ds) (hrecorded : t.tally.recorded = recorded)
    (hoffered : t.tally.offered = recorded ++ more) (hmore : more.length ≤ 1)
    (hfirst : recorded ++ more <+: a.sequence ds) (hthroughout : t.Throughout (a.Sane given))
    (hfails : t.Fails e) (he : ∀ cause, e ≠ .commandAppend cause ∧ e ≠ .commandFlush cause)
    (hlast : b.lastSeq = a.lastSeq + UInt64.ofNat ds.length) : FailsClosed a b given ds t e where
  durable := hds
  secured := hsecured
  recorded := hrecorded ▸ (List.prefix_append ..).trans hfirst
  throughout := hthroughout
  fails := hfails
  unexecuted cause h := by
    rcases h with h | h
    · exact absurd h (he cause).1
    · exact absurd h (he cause).2
  closed := by
    rw [hoffered, hrecorded]
    exact closed_of_prefix hmore hfirst hds
  lastSeq := by rw [hlast, getLast_number]

/-! ## Between two batches -/

/-- What an account comes to when the first commands `done` are settled, and this is logged. -/
def standing (a : Actor σ) (done : List Command) (logged : List Bytes) : Tally where
  logged := logged
  secured := a.payloads done
  offered := a.sequence done
  recorded := a.sequence done
  settled := a.sequence done

theorem sane_standing (hdone : done <+: given) {logged : List Bytes}
    (h : logged <+: a.payloads given) : a.Sane given (a.standing done logged) :=
  ⟨h, List.prefix_refl _, done, hdone, rfl, List.prefix_refl _⟩

/-- An actor that has executed the first commands `done` of those that it was given, and made them
and their events durable. -/
structure Settled (a : Actor σ) (given done : List Command) (b : Actor (σ × Account)) : Prop where
  storage : b.storage = a.storage.accounted
  format : b.format = a.format
  book : b.book = a.book.executeAll done
  lastSeq : b.lastSeq = a.lastSeq + UInt64.ofNat done.length
  commands : b.commands = a.commands + done.length
  within : done <+: given
  fine : ∃ ops, b.logs.2 = Account.done ops
  tally : b.logs.2.tally = a.standing done (a.payloads done)
  throughout : b.logs.2.Throughout (a.Sane given)

theorem settled_start (a : Actor σ) (given : List Command) :
    Settled a given [] (a.accounted []) where
  storage := rfl
  format := rfl
  book := rfl
  lastSeq := (UInt64.add_zero a.lastSeq).symm
  commands := rfl
  within := List.nil_prefix
  fine := ⟨[], rfl⟩
  tally := rfl
  throughout before hbefore := by
    rw [List.prefix_nil.1 hbefore]
    exact ⟨List.nil_prefix, List.prefix_refl _, [], List.nil_prefix, rfl, List.prefix_refl _⟩

theorem Settled.lastSeq_append (h : Settled a given done b) (batch : List Command) :
    b.lastSeq + UInt64.ofNat batch.length =
      a.lastSeq + UInt64.ofNat (done ++ batch).length := by
  rw [h.lastSeq, List.length_append, UInt64.ofNat_add, UInt64.add_assoc]

/-- An operation fails before anything is executed. -/
theorem Settled.failsClosed (h : Settled a given done b) {front : List LogOp} {op : LogOp}
    {cause : LogError} {logged : List Bytes} {s : σ × Account} (hop : ∀ e, op ≠ .appendEvent e)
    (hlogged : logged <+: a.payloads given)
    (htally : Account.tally (b.logs.2 ++ Account.done front) = a.standing done logged)
    (hthroughout : Account.Throughout (a.Sane given) (b.logs.2 ++ Account.done front))
    (hs : s.2 = b.logs.2 ++ Account.done front ++ [(op, .error cause)]) :
    FailsClosed a (b.withLogs s) given done s.2 (op.failure cause) := by
  obtain ⟨ops, hops⟩ := h.fine
  have hfinal : s.2.tally = a.standing done logged := by
    rw [hs, Account.tally_concat, htally]
    cases op with
    | appendEvent e => exact absurd rfl (hop e)
    | _ => rfl
  exact
    { durable := h.within
      secured := by rw [hfinal]; rfl
      recorded := by rw [hfinal]; exact List.prefix_refl _
      throughout := by
        rw [hs]
        refine hthroughout.concat ?_
        rw [← hs, hfinal]
        exact sane_standing h.within hlogged
      fails := by
        rw [hops, ← Account.done_append] at hs
        exact .operation hs
      unexecuted := fun _ _ => by
        rw [hfinal]
        exact ⟨h.book, h.commands, rfl, rfl⟩
      closed := by
        rw [hfinal]
        have hnone : a.sequence done ++ [] = a.sequence done := List.append_nil _
        have hnil : ([] : List Event).length ≤ 1 := Nat.zero_le 1
        have hclosed := closed_of_prefix hnil ⟨[], (List.append_nil _).trans hnone⟩ h.within
        rwa [hnone] at hclosed
      lastSeq := by
        rw [getLast_number]
        exact h.lastSeq }

/-- First operations by which the next batch is logged. -/
theorem Settled.logging (h : Settled a given done b) (hbatch : done ++ batch <+: given)
    {front : List LogOp} (hfront : front <+: logOps b.format (number b.lastSeq batch)) :
    ∃ logged, logged <+: a.payloads given ∧
      Account.tally (b.logs.2 ++ Account.done front) = a.standing done logged ∧
      (front = logOps b.format (number b.lastSeq batch) → logged = a.payloads (done ++ batch)) := by
  obtain ⟨ps, hps, rfl⟩ := List.prefix_map_iff.1 hfront
  have hmore : a.payloads (done ++ batch) =
      a.payloads done ++ Journal.payloads b.format (number b.lastSeq batch) := by
    rw [payloads_append, h.format, h.lastSeq]
  refine ⟨a.payloads done ++ ps, ?_, ?_, fun hall => ?_⟩
  · refine List.IsPrefix.trans ?_ (a.payloads_prefix hbatch)
    rw [hmore]
    exact (List.prefix_append_right_inj _).2 hps
  · rw [Account.tally_appendCommand, h.tally]
    rfl
  · have hlen := congrArg List.length hall
    rw [logOps, List.length_map, List.length_map] at hlen
    rw [hmore, hps.eq_of_length hlen]

theorem Settled.throughout_logging (h : Settled a given done b) (hbatch : done ++ batch <+: given)
    {front : List LogOp} (hfront : front <+: logOps b.format (number b.lastSeq batch)) :
    Account.Throughout (a.Sane given) (b.logs.2 ++ Account.done front) := by
  refine h.throughout.done fun front' hfront' => ?_
  obtain ⟨logged, hlogged, htally, -⟩ := h.logging hbatch (hfront'.trans hfront)
  rw [htally]
  exact sane_standing h.within hlogged

/-- A batch that cannot be secured is not executed. -/
theorem Settled.secure_error (h : Settled a given done b) (hbatch : done ++ batch <+: given)
    (hsecure : b.secure batch = (b', .error e)) : FailsClosed a b' given done b'.logs.2 e := by
  have hfares := fares_secure (a := b) (fun c => ∃ s, c = b.withLogs s) batch fun s => ⟨s, rfl⟩
  rw [hsecure] at hfares
  cases hfares with
  | @stops front op s s' cause mid reached carried failed isKept =>
    obtain ⟨s'', hmid⟩ := isKept
    obtain rfl : s' = s'' := congrArg Actor.logs hmid
    rw [h.storage] at carried failed
    have hs := Storage.account_of_failure carried failed
    -- Either a command could not be logged, or the log could not be flushed.
    have hfront : front <+: logOps b.format (number b.lastSeq batch) ∧
        ∀ e, op ≠ .appendEvent e := by
      rcases List.prefix_concat_iff.1 reached with hall | hin
      · obtain ⟨rfl, hop⟩ := List.append_inj' hall rfl
        rw [List.singleton_inj.1 hop]
        exact ⟨List.prefix_refl _, fun e he => by cases he⟩
      · refine ⟨(List.prefix_append ..).trans hin, ?_⟩
        obtain ⟨p, -, rfl⟩ := List.mem_map.1
          (hin.subset (List.mem_append_right _ (List.mem_singleton_self op)))
        exact fun e he => by cases he
    obtain ⟨logged, hlogged, htally, -⟩ := h.logging hbatch hfront.1
    rw [hmid]
    exact h.failsClosed hfront.2 hlogged htally (h.throughout_logging hbatch hfront.1) hs
  | refuses _ notFine _ => exact absurd trivial notFine

/-! ## Within a batch -/

/-- What an account comes to when the commands `ds` are durable and those of `done` are settled, and
these events were recorded since. -/
def executing (a : Actor σ) (done ds : List Command) (es : List Event) : Tally where
  logged := a.payloads ds
  secured := a.payloads ds
  offered := a.sequence done ++ es
  recorded := a.sequence done ++ es
  settled := a.sequence done

theorem sane_executing (hds : ds <+: given) {es : List Event}
    (h : a.sequence done ++ es <+: a.sequence ds) : a.Sane given (a.executing done ds es) :=
  ⟨a.payloads_prefix hds, List.prefix_refl _, ds, hds, rfl, h⟩

/-- The account of an actor that has secured a batch and not yet executed it. -/
structure Secured (a : Actor σ) (given done batch : List Command) (t : Account) : Prop where
  within : done ++ batch <+: given
  fine : ∃ ops, t = Account.done ops
  tally : t.tally = a.executing done (done ++ batch) []
  throughout : t.Throughout (a.Sane given)

theorem Settled.secure_ok (h : Settled a given done b) (hbatch : done ++ batch <+: given)
    (hsecure : b.secure batch = (b', .ok ())) :
    ∃ s, b' = b.withLogs s ∧ Secured a given done batch s.2 := by
  have hfares := fares_secure (a := b) (fun _ => True) batch fun _ => trivial
  rw [hsecure] at hfares
  cases hfares with
  | @passes s carried _ =>
    rw [h.storage] at carried
    have hs := Storage.carry_accounted carried
    obtain ⟨logged, -, htally, hall⟩ := h.logging hbatch (List.prefix_refl _)
    have hflushed : s.2.tally = a.executing done (done ++ batch) [] := by
      rw [hs, Account.done_concat, ← List.append_assoc, Account.tally_concat, htally, hall rfl]
      simp [standing, executing, Tally.note]
    refine ⟨s, rfl, hbatch, ?_, hflushed, ?_⟩
    · obtain ⟨ops, hops⟩ := h.fine
      exact ⟨_, by rw [hs, hops, ← Account.done_append]⟩
    · rw [hs, Account.done_concat, ← List.append_assoc]
      refine (h.throughout_logging hbatch (List.prefix_refl _)).concat ?_
      rw [List.append_assoc, ← Account.done_concat, ← hs, hflushed]
      exact sane_executing hbatch (by
        rw [List.append_nil]
        exact Journal.sequence_prefix _ _ (List.prefix_append ..))

/-- The events of a batch come behind those of the commands before it. -/
theorem Settled.sequence_append (h : Settled a given done b) (batch : List Command) :
    a.sequence (done ++ batch) =
      a.sequence done ++ Journal.sequence b.book (number b.lastSeq batch) := by
  rw [sequence, Journal.sequence_append, h.book, h.lastSeq]
  rfl

/-- First events of a batch were recorded. -/
theorem Secured.tally_recording (h : Secured a given done batch t) (es : List Event) :
    Account.tally (t ++ Account.done (es.map .appendEvent)) =
      a.executing done (done ++ batch) es := by
  rw [Account.tally_appendEvent, h.tally]
  simp [executing]

theorem Secured.throughout_recording (h : Secured a given done batch t) {es : List Event}
    (hes : a.sequence done ++ es <+: a.sequence (done ++ batch)) :
    Account.Throughout (a.Sane given) (t ++ Account.done (es.map .appendEvent)) := by
  refine h.throughout.done fun front hfront => ?_
  obtain ⟨es', hes', rfl⟩ := List.prefix_map_iff.1 hfront
  rw [h.tally_recording]
  exact sane_executing h.within (((List.prefix_append_right_inj _).2 hes').trans hes)

theorem Settled.recorded_prefix (h : Settled a given done b) {es : List Event}
    (hes : es <+: Journal.events b.book (number b.lastSeq batch)) :
    a.sequence done ++ es <+: a.sequence (done ++ batch) := by
  rw [h.sequence_append]
  exact (List.prefix_append_right_inj _).2 (hes.trans (Journal.events_prefix_sequence ..))

/-- How far the operations came by which a batch is settled. -/
theorem events_of_reached {front : List LogOp} {op : LogOp}
    (h : front ++ [op] <+: eventOps b.book (number b.lastSeq batch) ++
      if b.book.Modest batch then [.flushEvents] else []) :
    ∃ es, front = es.map .appendEvent ∧ es <+: Journal.events b.book (number b.lastSeq batch) ∧
      (op = .flushEvents ∨ ∃ e, op = .appendEvent e ∧
        es ++ [e] <+: Journal.events b.book (number b.lastSeq batch)) := by
  have hevents (h : front ++ [op] <+: eventOps b.book (number b.lastSeq batch)) :
      ∃ es e, front = es.map .appendEvent ∧ op = .appendEvent e ∧
        es ++ [e] <+: Journal.events b.book (number b.lastSeq batch) := by
    obtain ⟨es', hes', hmap⟩ := List.prefix_map_iff.1 h
    obtain ⟨es, more, rfl, rfl, hmore⟩ := List.map_eq_append_iff.1 hmap.symm
    obtain ⟨e, rfl, rfl⟩ := List.map_eq_singleton_iff.1 hmore
    exact ⟨es, e, rfl, rfl, hes'⟩
  split at h
  · rcases List.prefix_concat_iff.1 h with hall | hin
    · obtain ⟨rfl, hop⟩ := List.append_inj' hall rfl
      exact ⟨_, rfl, List.prefix_refl _, .inl (List.singleton_inj.1 hop)⟩
    · obtain ⟨es, e, rfl, rfl, hes⟩ := hevents hin
      exact ⟨es, rfl, (List.prefix_append ..).trans hes, .inr ⟨e, rfl, hes⟩⟩
  · rw [List.append_nil] at h
    obtain ⟨es, e, rfl, rfl, hes⟩ := hevents h
    exact ⟨es, rfl, (List.prefix_append ..).trans hes, .inr ⟨e, rfl, hes⟩⟩

/-- How the actor fares with a batch that is secured. -/
theorem Settled.fares_settle (h : Settled a given done b) (kept : Actor (σ × Account) → Prop)
    (batch : List Command) (s : σ × Account)
    (hkept : ∀ c, c.lastSeq = b.lastSeq + UInt64.ofNat batch.length → kept c) :
    Fares a.storage.accounted s
      (eventOps b.book (number b.lastSeq batch) ++
        if b.book.Modest batch then [.flushEvents] else [])
      kept (b.book.Modest batch) (b.committed batch) ((b.withLogs s).settle b.lastSeq batch) := by
  rw [← h.storage]
  exact (Actor.fares_settle (a := b.withLogs s) kept batch hkept).forget

/-- When the outbox fails, the batch is durable. -/
theorem Settled.outbox_error (h : Settled a given done b) {s s₁ s' : σ × Account}
    (hs : Secured a given done batch s.2) {front : List LogOp} {op : LogOp} {cause : LogError}
    (hreached : front ++ [op] <+: eventOps b.book (number b.lastSeq batch) ++
      if b.book.Modest batch then [.flushEvents] else [])
    (hcarried : a.storage.accounted.carry front s = (s₁, .ok ()))
    (hfailed : a.storage.accounted.perform op s₁ = (s', .error cause))
    (hlast : b'.lastSeq = a.lastSeq + UInt64.ofNat (done ++ batch).length) :
    FailsClosed a b' given (done ++ batch) s'.2 (op.failure cause) := by
  have hs' := Storage.account_of_failure hcarried hfailed
  obtain ⟨ops, hops⟩ := hs.fine
  obtain ⟨es, rfl, hes, hop⟩ := events_of_reached hreached
  -- An event that could not be recorded was offered as the next one.
  obtain ⟨more, hle, htally, hmore⟩ : ∃ more, more.length ≤ 1 ∧
      s'.2.tally = { a.executing done (done ++ batch) es with
        offered := a.sequence done ++ es ++ more } ∧
      a.sequence done ++ es ++ more <+: a.sequence (done ++ batch) := by
    rw [hs', Account.tally_concat, hs.tally_recording]
    rcases hop with rfl | ⟨e, rfl, he⟩
    · refine ⟨[], Nat.zero_le 1, ?_, ?_⟩
      · rw [List.append_nil]
        rfl
      · rw [List.append_nil]
        exact h.recorded_prefix hes
    · refine ⟨[e], Nat.le_refl 1, rfl, ?_⟩
      rw [List.append_assoc]
      exact h.recorded_prefix he
  refine failsClosed_of_outbox hs.within (congrArg Tally.secured htally)
    (congrArg Tally.recorded htally) (congrArg Tally.offered htally) hle hmore ?_ ?_ ?_ hlast
  · rw [hs']
    refine (hs.throughout_recording (h.recorded_prefix hes)).concat ?_
    rw [← hs', htally]
    exact ⟨a.payloads_prefix hs.within, List.prefix_append .., _, hs.within, rfl, hmore⟩
  · rw [hops, ← Account.done_append] at hs'
    exact .operation hs'
  · rcases hop with rfl | ⟨e, rfl, -⟩
    · exact fun cause => ⟨fun h => (by cases h), fun h => (by cases h)⟩
    · exact fun cause => ⟨fun h => (by cases h), fun h => (by cases h)⟩

/-- When a command has too many events, the batch is durable and nothing failed. -/
theorem Settled.tooManyEvents (h : Settled a given done b) {s s' : σ × Account}
    (hs : Secured a given done batch s.2) (hmany : ¬ b.book.Modest batch)
    (hcarried : a.storage.accounted.carry (eventOps b.book (number b.lastSeq batch)) s =
      (s', .ok ()))
    (hlast : b'.lastSeq = a.lastSeq + UInt64.ofNat (done ++ batch).length) :
    FailsClosed a b' given (done ++ batch) s'.2 (.outboxAppend .tooManyEvents) := by
  have hs' := Storage.carry_accounted hcarried
  obtain ⟨ops, hops⟩ := hs.fine
  have hall :=
    h.recorded_prefix (List.prefix_refl (Journal.events b.book (number b.lastSeq batch)))
  have htally : s'.2.tally = a.executing done (done ++ batch)
      (Journal.events b.book (number b.lastSeq batch)) := by
    rw [hs']
    exact hs.tally_recording _
  refine failsClosed_of_outbox hs.within (congrArg Tally.secured htally)
    (congrArg Tally.recorded htally)
    ((congrArg Tally.offered htally).trans (List.append_nil _).symm) (Nat.zero_le 1) ?_ ?_ ?_ ?_
    hlast
  · rw [List.append_nil]
    exact hall
  · rw [hs']
    exact hs.throughout_recording hall
  · obtain ⟨front, e, hevents, hfull, hopen⟩ := Journal.events_of_not_modest hmany
    have haccount :
        s'.2 = Account.done ((ops ++ front.map .appendEvent) ++ [.appendEvent e]) := by
      rw [hs', hops, ← Account.done_append, eventOps, hevents, List.map_append, List.append_assoc]
      rfl
    exact .tooManyEvents haccount hfull hopen
  · exact fun cause => ⟨fun h => (by cases h), fun h => (by cases h)⟩

/-- A batch that is secured stays durable when it cannot be settled. -/
theorem Settled.settle_error (h : Settled a given done b) {s : σ × Account}
    (hs : Secured a given done batch s.2)
    (hsettle : (b.withLogs s).settle b.lastSeq batch = (b', .error e)) :
    FailsClosed a b' given (done ++ batch) b'.logs.2 e := by
  have hfares := h.fares_settle (fun c => c.lastSeq = b.lastSeq + UInt64.ofNat batch.length) batch s
    fun _ hc => hc
  rw [hsettle] at hfares
  cases hfares with
  | stops reached carried failed isKept =>
    exact h.outbox_error hs reached carried failed (isKept.trans (h.lastSeq_append batch))
  | refuses carried notFine isKept =>
    rw [if_neg notFine, List.append_nil] at carried
    exact h.tooManyEvents hs notFine carried (isKept.trans (h.lastSeq_append batch))

/-- A batch is settled when nothing failed. -/
theorem Settled.settle_ok (h : Settled a given done b) {s : σ × Account}
    (hs : Secured a given done batch s.2)
    (hsettle : (b.withLogs s).settle b.lastSeq batch = (b', .ok ())) :
    Settled a given (done ++ batch) b' := by
  have hfares := h.fares_settle (fun _ => True) batch s fun _ _ => trivial
  rw [hsettle] at hfares
  cases hfares with
  | @passes s' carried isFine =>
    rw [if_pos isFine] at carried
    have hs' : s'.2 = s.2 ++ Account.done (eventOps b.book (number b.lastSeq batch)) ++
        [(.flushEvents, .ok ())] := by
      rw [Storage.carry_accounted carried, Account.done_concat, List.append_assoc]
    have hevents : a.sequence (done ++ batch) =
        a.sequence done ++ Journal.events b.book (number b.lastSeq batch) := by
      rw [h.sequence_append, Journal.events_eq_sequence isFine]
    have htally : s'.2.tally = a.standing (done ++ batch) (a.payloads (done ++ batch)) := by
      rw [hs', Account.tally_concat, eventOps, hs.tally_recording]
      simp only [Tally.note, executing, standing, hevents]
    obtain ⟨ops, hops⟩ := hs.fine
    exact
      { storage := h.storage
        format := h.format
        book := by
          show b.book.executeAll batch = _
          rw [h.book, Book.executeAll_append]
        lastSeq := h.lastSeq_append batch
        commands := by
          show b.commands + batch.length = _
          rw [h.commands, List.length_append, Nat.add_assoc]
        within := hs.within
        fine := ⟨ops ++ (eventOps b.book (number b.lastSeq batch) ++ [.flushEvents]), by
          show s'.2 = _
          rw [hs', hops]
          simp [Account.done]⟩
        tally := htally
        throughout := by
          show s'.2.Throughout _
          rw [hs']
          refine (hs.throughout_recording (h.recorded_prefix (List.prefix_refl _))).concat ?_
          rw [← eventOps, ← hs', htally]
          exact sane_standing hs.within (a.payloads_prefix hs.within) }

/-! ## Batches and runs -/

/-- A batch is settled, or the actor fails closed. -/
theorem Settled.commit (h : Settled a given done b) (hbatch : done ++ batch <+: given)
    {result : Except ActorError Unit} (hcommit : b.commit batch = (b', result)) :
    (result = .ok () → Settled a given (done ++ batch) b') ∧
      ∀ e, result = .error e → ∃ ds, FailsClosed a b' given ds b'.logs.2 e := by
  rw [commit_eq] at hcommit
  rcases hsecure : b.secure batch with ⟨c, e | _⟩
  · rw [hsecure] at hcommit
    obtain ⟨rfl, rfl⟩ := Prod.mk.inj hcommit
    refine ⟨fun hok => (by cases hok), fun e' he => ?_⟩
    cases he
    exact ⟨done, h.secure_error hbatch hsecure⟩
  · rw [hsecure] at hcommit
    obtain ⟨s, rfl, hs⟩ := h.secure_ok hbatch hsecure
    refine ⟨fun hok => ?_, fun e he => ⟨done ++ batch, ?_⟩⟩
    · subst hok
      exact h.settle_ok hs hcommit
    · subst he
      exact h.settle_error hs hcommit

/-- An actor fails closed also when it cannot flush its logs in the end. -/
theorem Settled.stop (h : Settled a given done b) {exit : ActorExit}
    (hstop : b.stop exit = (b', .error e)) : FailsClosed a b' given done b'.logs.2 e := by
  have hfares := fares_stop (a := b) (fun c => ∃ s, c = b.withLogs s) fun s => ⟨s, rfl⟩
  rw [Actor.stop] at hstop
  generalize (b.perform .flushCommands .commandFlush).andThen
    (fun b _ => b.perform .flushEvents .outboxFlush) = x at hfares hstop
  cases hfares with
  | passes _ _ => cases (Prod.mk.inj hstop).2
  | refuses _ notFine _ => exact absurd trivial notFine
  | @stops front op s s' cause mid reached carried failed isKept =>
    obtain ⟨s'', hmid⟩ := isKept
    obtain rfl : s' = s'' := congrArg Actor.logs hmid
    obtain ⟨rfl, he⟩ := Prod.mk.inj hstop
    injection he with he
    subst he
    rw [h.storage] at carried failed
    have hs := Storage.account_of_failure carried failed
    have hsane := sane_standing h.within (a.payloads_prefix h.within)
    -- All that the log has is durable, so flushing it once more makes no difference.
    have hflushed : Account.tally (b.logs.2 ++ Account.done [.flushCommands]) =
        a.standing done (a.payloads done) :=
      (Account.tally_concat ..).trans (by rw [h.tally]; rfl)
    rw [hmid]
    rcases front with _ | ⟨first, _ | ⟨second, rest⟩⟩
    · have hop : op = .flushCommands := (List.cons_prefix_cons.1 reached).1
      refine h.failsClosed ?_ (a.payloads_prefix h.within) ?_ ?_ hs
      · exact fun e he => by rw [hop] at he; cases he
      · exact (congrArg Account.tally (List.append_nil _)).trans h.tally
      · exact (List.append_nil b.logs.2).symm ▸ h.throughout
    · obtain ⟨rfl, hnext⟩ := List.cons_prefix_cons.1 reached
      have hop : op = .flushEvents := (List.cons_prefix_cons.1 hnext).1
      refine h.failsClosed ?_ (a.payloads_prefix h.within) hflushed ?_ hs
      · exact fun e he => by rw [hop] at he; cases he
      · exact h.throughout.concat (hflushed ▸ hsane)
    · have := reached.length_le
      simp at this

/-- An actor that has settled what it has executed fails closed. -/
theorem Settled.run {queue : List Command} {arrivals : List (List Command)}
    (h : Settled a given done b) (hgiven : done ++ (queue ++ arrivals.flatten) = given)
    (hrun : b.run queue arrivals = (b', .error e)) :
    ∃ ds, FailsClosed a b' given ds b'.logs.2 e := by
  fun_induction Actor.run b queue arrivals generalizing done with
  | case1 b queue arrivals hcancelled => exact ⟨done, h.stop hrun⟩
  | case2 b hcancelled => exact ⟨done, h.stop hrun⟩
  | case3 b hcancelled more arrivals ih => exact ih h (by simpa using hgiven) hrun
  | case4 b arrivals hcancelled c rest b'' e' hcommit =>
    obtain ⟨rfl, he⟩ := Prod.mk.inj hrun
    injection he with he
    subst he
    refine (h.commit ?_ hcommit).2 _ rfl
    rw [← hgiven]
    exact (List.prefix_append_right_inj done).2
      ((List.take_prefix ..).trans (List.prefix_append ..))
  | case5 b arrivals hcancelled c rest b'' hcommit ih =>
    have hsplit : done ++ ((c :: rest).take b.batchSize ++
        (rest.drop (b.batchSize - 1) ++ arrivals.flatten)) = given := by
      rw [← hgiven, ← List.append_assoc ((c :: rest).take _), b.take_batch c rest]
    have hbatch : done ++ (c :: rest).take b.batchSize <+: given := by
      rw [← hsplit, ← List.append_assoc]
      exact List.prefix_append ..
    refine ih ((h.commit hbatch hcommit).1 rfl) ?_ hrun
    rw [← hsplit]
    cases arrivals <;> simp

end

section

variable {a b : Actor σ} {e : ActorError} {c : Command} {rest : List Command}
  {arrivals : List (List Command)}

/-- A run goes on after a batch that is committed. -/
theorem run_of_commit_ok (hgo : a.storage.cancelled a.logs = false)
    (h : a.commit ((c :: rest).take a.batchSize) = (b, .ok ())) :
    a.run (c :: rest) arrivals =
      b.run (rest.drop (a.batchSize - 1) ++ arrivals.headD []) arrivals.tail := by
  rw [run, hgo, if_neg Bool.false_ne_true]
  simp only [h]

/-- A run ends with a batch that is not committed. -/
theorem run_of_commit_error (hgo : a.storage.cancelled a.logs = false)
    (h : a.commit ((c :: rest).take a.batchSize) = (b, .error e)) :
    a.run (c :: rest) arrivals = (b, .error e) := by
  rw [run, hgo, if_neg Bool.false_ne_true]
  simp only [h]

end

/-- **An actor fails closed.** Whatever commands an actor gets, however it takes them in batches and
whichever operation of whatever storage fails first: when it reports an error, an account of its
operations shows that everything above holds. -/
theorem run_fails_closed {a a' : Actor σ} {queue : List Command} {arrivals : List (List Command)}
    {e : ActorError} (h : a.run queue arrivals = (a', .error e)) :
    ∃ ds t, (a.accounted []).run queue arrivals = (a'.accounted t, .error e) ∧
      FailsClosed a a' (queue ++ arrivals.flatten) ds t e := by
  obtain ⟨t, hrun⟩ := accounts_run a [] queue arrivals
  rw [h] at hrun
  obtain ⟨ds, hds⟩ := (settled_start a (queue ++ arrivals.flatten)).run rfl hrun
  exact ⟨ds, t, hrun, { hds with }⟩

/-- A storage that counts its operations and fails with the one numbered `n` for want of space. -/
def filling (n : Nat) : Storage Nat where
  perform _ k :=
    (k + 1, if k = n then .error (.file (.other "No space left on device")) else .ok ())
  cancelled _ := false

theorem run_fails_closed_within_group :
    let a : Actor Nat :=
      { storage := filling 8, format := .binary, batchMax := 1, logs := 0, book := {} }
    let cs : List Command :=
      [{ request := 1, action := .cancel 0 }, { request := 2, action := .cancel 0 }]
    let e : ActorError := .outboxAppend (.file (.other "No space left on device"))
    ∃ a', a.run cs [] = (a', .error e) ∧
      ∃ ds t, (a.accounted []).run cs [] = (a'.accounted t, .error e) ∧
        FailsClosed a a' cs ds t e := by
  intro a cs e
  have hfirst : (a.commit (cs.take 1)).2 = .ok () := rfl
  -- Operations 0 to 4 are for the first command. Of those for the second, operation 8 closes it.
  have hsecond : ((a.commit (cs.take 1)).1.commit (cs.drop 1)).2 = .error e := rfl
  obtain ⟨b, hb, hstorage, hbatch⟩ :
      ∃ b, a.commit (cs.take 1) = (b, .ok ()) ∧ b.storage = a.storage ∧ b.batchSize = 1 :=
    ⟨_, Prod.ext rfl hfirst, rfl, rfl⟩
  rw [hb] at hsecond
  obtain ⟨a', ha'⟩ : ∃ a', b.commit (cs.drop 1) = (a', .error e) := ⟨_, Prod.ext rfl hsecond⟩
  have hrun : a.run cs [] = (a', .error e) :=
    (run_of_commit_ok rfl hb).trans
      (run_of_commit_error (by rw [hstorage]; rfl) (by rw [hbatch]; exact ha'))
  exact ⟨a', hrun, run_fails_closed hrun⟩

end Actor

end Bourse
