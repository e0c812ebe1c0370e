import Bourse.Proofs.Symbol.Accounting
import Bourse.Proofs.Symbol.Running

/-!
# Batches do not show

How many commands an actor takes at once depends on its limit and on what happens to be queued when
it looks. As long as its logs do not fail (`Storage.Steady`) nothing else depends on it: the
commands alone decide what is added to the log and to the outbox, in which order, and what the book
and the last number are afterwards (`batching_invisible`). Within a batch all commands are logged
and the log is flushed before the first event is offered to the outbox (`Actor.batchOps`).
-/

namespace Bourse

/-- An append to the log is one that a header can announce. -/
def LogOp.Fits : LogOp → Prop
  | .appendCommand payload => payload.length ≤ Log.maxLength
  | _ => True

/-- No operation fails on logs that are `good`, and these remain so. Nobody asks to stop. -/
structure Storage.Steady {σ : Type} (st : Storage σ) (good : σ → Prop) : Prop where
  perform : ∀ op s, op.Fits → good s → (st.perform op s).2 = .ok () ∧ good (st.perform op s).1
  goesOn : ∀ s, good s → st.cancelled s = false

/-- Files are such logs once they are open for appending. -/
theorem SymbolLogs.storage_steady (f : Format) :
    (storage f).Steady fun s => ∃ log outbox, s.Holds log outbox where
  perform op s hop hs := by
    obtain ⟨log, outbox, hs⟩ := hs
    cases op with
    | appendCommand payload =>
      obtain ⟨s', happend, hs'⟩ := hs.appendCommand hop
      have hperform : (storage f).perform (.appendCommand payload) s = (s', .ok ()) := happend
      rw [hperform]
      exact ⟨rfl, _, _, hs'⟩
    | flushCommands => exact ⟨rfl, _, _, hs.flushCommands.1⟩
    | appendEvent e =>
      obtain ⟨s', happend, hs'⟩ := hs.appendEvent (f.length_encodeEvent_le e)
      have hperform : (storage f).perform (.appendEvent e) s = (s', .ok ()) := happend
      rw [hperform]
      exact ⟨rfl, _, _, hs'⟩
    | flushEvents => exact ⟨rfl, _, _, hs.flushEvents.1⟩
  goesOn _ _ := rfl

section Steady

variable {σ : Type} {st : Storage σ} {good : σ → Prop}

theorem Storage.Steady.accounted (h : st.Steady good) :
    st.accounted.Steady fun s => good s.1 where
  perform op s hop hs := h.perform op s.1 hop hs
  goesOn s hs := h.goesOn s.1 hs

theorem Storage.Steady.carry (h : st.Steady good) {ops : List LogOp} (hops : ∀ op ∈ ops, op.Fits)
    {s : σ} (hs : good s) : ∃ s', st.carry ops s = (s', .ok ()) ∧ good s' := by
  induction ops generalizing s with
  | nil => exact ⟨s, rfl, hs⟩
  | cons op rest ih =>
    obtain ⟨hok, hgood⟩ := h.perform op s (hops op List.mem_cons_self) hs
    obtain ⟨s', hrest, hs'⟩ := ih (fun op hop => hops op (List.mem_cons_of_mem _ hop)) hgood
    refine ⟨s', ?_, hs'⟩
    rw [Storage.carry, Attempt.forEach_cons]
    rcases hop : st.perform op s with ⟨s₁, e | _⟩
    · rw [hop] at hok
      cases hok
    · rw [hop] at hrest
      exact hrest

end Steady

namespace Actor

/-! ## Batches -/

/-- The operations for a batch of commands that are numbered behind `last`, on a book. -/
def batchOps (f : Format) (b : Book) (last : Seq) (batch : List Command) : List LogOp :=
  let entries := number last batch
  logOps f entries ++ [.flushCommands] ++ (eventOps b entries ++ [.flushEvents])

/-- The operations for one batch after the other. -/
def batchesOps (f : Format) (b : Book) (last : Seq) : List (List Command) → List LogOp
  | [] => []
  | batch :: rest =>
    batchOps f b last batch ++
      batchesOps f (b.executeAll batch) (last + UInt64.ofNat batch.length) rest

end Actor

/-- An account is that of some commands in batches of at most `size`. -/
def Account.Batched (size : Nat) (f : Format) (b : Book) (last : Seq) (cs : List Command)
    (t : Account) : Prop :=
  ∃ batches : List (List Command), batches.flatten = cs ∧
    (∀ batch ∈ batches, 1 ≤ batch.length ∧ batch.length ≤ size) ∧
    t = done (Actor.batchesOps f b last batches ++ [.flushCommands, .flushEvents])

namespace Actor

variable {σ σ' : Type} {f : Format} {b : Book} {last : Seq} {cs batch : List Command}
  {queue queue' : List Command} {arrivals arrivals' : List (List Command)}

theorem fits_of_mem_batchOps {op : LogOp} (h : op ∈ batchOps f b last batch) : op.Fits := by
  simp only [batchOps, logOps, eventOps, List.mem_append, List.mem_map, List.mem_singleton] at h
  rcases h with (⟨p, hp, rfl⟩ | rfl) | ⟨e, -, rfl⟩ | rfl
  · exact Journal.length_le_of_mem_payloads hp
  · trivial
  · trivial
  · trivial

/-! ## What a run does -/

section Run

variable {st : Storage σ} {good : σ → Prop} {a : Actor (σ × Account)}

/-- Logs that do not fail let a batch be committed. -/
theorem commit_of_steady (hst : st.Steady good) (ha : a.storage = st.accounted)
    (hgood : good a.logs.1) (hm : a.book.Modest batch) :
    ∃ s, a.commit batch = ((a.committed batch).withLogs s, .ok ()) ∧ good s.1 ∧
      s.2 = a.logs.2 ++ Account.done (batchOps a.format a.book a.lastSeq batch) := by
  have hscript : a.script batch = batchOps a.format a.book a.lastSeq batch := by
    rw [script, if_pos hm, List.append_assoc]
    rfl
  have hfits : ∀ op ∈ a.script batch, op.Fits := by
    rw [hscript]
    exact fun op hop => fits_of_mem_batchOps hop
  obtain ⟨s, hcarry, hs⟩ := hst.accounted.carry (s := a.logs) hfits hgood
  have haccount := Storage.carry_accounted hcarry
  obtain ⟨hlogs, hok, hafter, -⟩ := through_commit a batch
  rw [ha, hcarry] at hlogs hok
  have hdone := hok.2 ⟨rfl, hm⟩
  refine ⟨s, Prod.ext ?_ hdone, hs, by rw [haccount, hscript]⟩
  rw [hafter hdone, hlogs]

/-- They let an actor stop. -/
theorem stop_of_steady (hst : st.Steady good) (ha : a.storage = st.accounted)
    (hgood : good a.logs.1) (exit : ActorExit) :
    ∃ s, a.stop exit = (a.withLogs s, .ok exit) ∧
      s.2 = a.logs.2 ++ Account.done [.flushCommands, .flushEvents] := by
  have hfits : ∀ op ∈ [LogOp.flushCommands, .flushEvents], op.Fits := by
    intro op hop
    simp only [List.mem_cons, List.not_mem_nil, or_false] at hop
    rcases hop with rfl | rfl
    · trivial
    · trivial
  obtain ⟨s, hcarry, -⟩ := hst.accounted.carry (s := a.logs) hfits hgood
  have haccount := Storage.carry_accounted hcarry
  obtain ⟨hlogs, hok, hafter, -⟩ := through_stop a
  rw [ha, hcarry] at hlogs hok
  have hdone := hok.2 ⟨rfl, trivial⟩
  refine ⟨s, ?_, haccount⟩
  have hflushed : (a.perform .flushCommands .commandFlush).andThen
      (fun a _ => a.perform .flushEvents .outboxFlush) = (a.withLogs s, .ok ()) := by
    refine Prod.ext ?_ hdone
    rw [hafter hdone, hlogs]
  rw [stop, hflushed]
  rfl

/-- An actor on logs that do not fail executes all commands that are queued or arrive. Its account
is that of these commands in some batches. -/
theorem run_of_steady (hst : st.Steady good) (ha : a.storage = st.accounted)
    (hgood : good a.logs.1) (hm : a.book.Modest (queue ++ arrivals.flatten)) :
    ∃ a' batches, a.run queue arrivals = (a', .ok .mailboxClosed) ∧
      batches.flatten = queue ++ arrivals.flatten ∧
      (∀ batch ∈ batches, 1 ≤ batch.length ∧ batch.length ≤ a.batchSize) ∧
      a'.logs.2 = a.logs.2 ++ Account.done
        (batchesOps a.format a.book a.lastSeq batches ++ [.flushCommands, .flushEvents]) ∧
      a'.book = a.book.executeAll (queue ++ arrivals.flatten) ∧
      a'.lastSeq = a.lastSeq + UInt64.ofNat (queue ++ arrivals.flatten).length := by
  fun_induction Actor.run a queue arrivals with
  | case1 a queue arrivals hcancelled =>
    rw [ha, hst.accounted.goesOn _ hgood] at hcancelled
    cases hcancelled
  | case2 a hcancelled =>
    obtain ⟨s, hstop, haccount⟩ := stop_of_steady hst ha hgood .mailboxClosed
    refine ⟨_, [], hstop, rfl, ?_, haccount, rfl, ?_⟩
    · intro batch hbatch
      cases hbatch
    · show a.lastSeq = a.lastSeq + 0
      rw [UInt64.add_zero]
  | case3 a hcancelled more arrivals ih => exact ih ha hgood hm
  | case4 a arrivals hcancelled c rest a' e hcommit =>
    have hfirst : a.book.Modest ((c :: rest).take a.batchSize) :=
      (Book.modest_append.1 hm).1.take _
    obtain ⟨s, hdone, -⟩ := commit_of_steady hst ha hgood hfirst
    rw [hcommit] at hdone
    cases (Prod.mk.inj hdone).2
  | case5 a arrivals hcancelled c rest a' hcommit ih =>
    -- The batch, and what is queued or arrives when it is committed.
    generalize hbatch : (c :: rest).take a.batchSize = batch at hcommit
    have hsplit : c :: rest ++ arrivals.flatten =
        batch ++ (rest.drop (a.batchSize - 1) ++ arrivals.headD [] ++ arrivals.tail.flatten) := by
      conv => lhs; rw [← a.take_batch c rest, hbatch]
      cases arrivals <;> simp
    rw [hsplit] at hm ⊢
    obtain ⟨hfirst, hlater⟩ := Book.modest_append.1 hm
    obtain ⟨s, hdone, hs, haccount⟩ := commit_of_steady hst ha hgood hfirst
    rw [hcommit] at hdone
    obtain ⟨rfl, -⟩ := Prod.mk.inj hdone
    obtain ⟨a', batches, hrun, hflatten, hsizes, haccount', hbook, hseq⟩ := ih ha hs hlater
    refine ⟨a', batch :: batches, hrun, ?_, ?_, ?_, ?_, ?_⟩
    · rw [List.flatten_cons, hflatten]
    · refine List.forall_mem_cons.2 ⟨⟨?_, ?_⟩, hsizes⟩
      · have hsize : 1 ≤ a.batchSize := Nat.le_max_right ..
        rw [← hbatch, List.length_take, List.length_cons]
        omega
      · rw [← hbatch]
        exact List.length_take_le ..
    · rw [haccount']
      show s.2 ++ _ = _
      rw [haccount, batchesOps, List.append_assoc (batchOps ..), Account.done_append (batchOps ..),
        List.append_assoc]
      rfl
    · rw [hbook]
      exact (Book.executeAll_append ..).symm
    · rw [hseq, @List.length_append _ batch, UInt64.ofNat_add, ← UInt64.add_assoc]
      rfl

end Run

/-! ## What the batches come to -/

/-- A batch adds its commands to the log and their events to the outbox. -/
theorem tally_batchOps (f : Format) (b : Book) (last : Seq) (batch : List Command) (t : Account) :
    (t ++ Account.done (batchOps f b last batch)).tally.logged =
        t.tally.logged ++ Journal.payloads f (number last batch) ∧
      (t ++ Account.done (batchOps f b last batch)).tally.recorded =
        t.tally.recorded ++ Journal.events b (number last batch) := by
  have hlog : (t ++ Account.done (logOps f (number last batch) ++ [.flushCommands])).tally =
      { t.tally with
        logged := t.tally.logged ++ Journal.payloads f (number last batch)
        secured := t.tally.logged ++ Journal.payloads f (number last batch) } := by
    rw [Account.done_concat, ← List.append_assoc, Account.tally_concat, logOps,
      Account.tally_appendCommand]
    rfl
  have hevents (t : Account) :
      (t ++ Account.done (eventOps b (number last batch) ++ [.flushEvents])).tally =
        { t.tally with
          offered := t.tally.offered ++ Journal.events b (number last batch)
          recorded := t.tally.recorded ++ Journal.events b (number last batch)
          settled := t.tally.recorded ++ Journal.events b (number last batch) } := by
    rw [Account.done_concat, ← List.append_assoc, Account.tally_concat, eventOps,
      Account.tally_appendEvent]
    rfl
  rw [batchOps, Account.done_append, ← List.append_assoc, hevents, hlog]
  exact ⟨rfl, rfl⟩

/-- However commands are batched, the log has their records and the outbox their events, in
order. -/
theorem tally_batchesOps (f : Format) (last : Seq) (t : Account) {batches : List (List Command)}
    (hm : b.Modest batches.flatten) :
    (t ++ Account.done (batchesOps f b last batches)).tally.logged =
        t.tally.logged ++ Journal.payloads f (number last batches.flatten) ∧
      (t ++ Account.done (batchesOps f b last batches)).tally.recorded =
        t.tally.recorded ++ Journal.events b (number last batches.flatten) := by
  induction batches generalizing t b last with
  | nil => simp [batchesOps, Account.done, number, Journal.payloads, Journal.events, Journal.groups]
  | cons batch rest ih =>
    rw [List.flatten_cons] at hm ⊢
    obtain ⟨hfirst, hlater⟩ := Book.modest_append.1 hm
    obtain ⟨hlogged, hrecorded⟩ := tally_batchOps f b last batch t
    obtain ⟨hlogged', hrecorded'⟩ := ih (last + UInt64.ofNat batch.length)
      (t ++ Account.done (batchOps f b last batch)) hlater
    rw [batchesOps, Account.done_append, ← List.append_assoc, hlogged', hrecorded', hlogged,
      hrecorded, number_append, Journal.payloads_append, Journal.events_append hfirst,
      List.append_assoc, List.append_assoc]
    exact ⟨rfl, rfl⟩

/-- The flushes at the end of a run add nothing. -/
theorem tally_flushes (t : Account) :
    (t ++ Account.done [.flushCommands, .flushEvents]).tally.logged = t.tally.logged ∧
      (t ++ Account.done [.flushCommands, .flushEvents]).tally.recorded = t.tally.recorded := by
  rw [show [LogOp.flushCommands, .flushEvents] = [.flushCommands] ++ [.flushEvents] from rfl,
    Account.done_concat, ← List.append_assoc, Account.tally_concat]
  show ((t ++ [_]).tally.note _).logged = _ ∧ ((t ++ [_]).tally.note _).recorded = _
  rw [Account.tally_concat]
  exact ⟨rfl, rfl⟩

/-- A whole run of an actor, with the account of what it asked of its logs. It executes all commands
that are queued or arrive, batch by batch, and stops when no more can be queued. -/
structure Completes (a : Actor σ) (queue : List Command) (arrivals : List (List Command))
    (left : Actor σ) (t : Account) : Prop where
  run : a.run queue arrivals = (left, .ok .mailboxClosed)
  account : (a.accounted []).run queue arrivals = (left.accounted t, .ok .mailboxClosed)
  batched : t.Batched a.batchSize a.format a.book a.lastSeq (queue ++ arrivals.flatten)

/-- What comes of a run on logs that do not fail is said without its batches. -/
theorem exists_completes {good : σ → Prop} {a : Actor σ} (hst : a.storage.Steady good)
    (hgood : good a.logs) (hcs : queue ++ arrivals.flatten = cs) (hm : a.book.Modest cs) :
    ∃ left t, a.Completes queue arrivals left t ∧
      t.tally.logged = Journal.payloads a.format (number a.lastSeq cs) ∧
      t.tally.recorded = Journal.events a.book (number a.lastSeq cs) ∧
      left.book = a.book.executeAll cs ∧
      left.lastSeq = a.lastSeq + UInt64.ofNat cs.length := by
  subst hcs
  obtain ⟨accounted, batches, hrun, hflatten, hsizes, haccount, hbook, hseq⟩ :=
    run_of_steady (a := a.accounted []) hst rfl hgood hm
  -- The run without an account comes to the same.
  obtain ⟨t, hsame⟩ := accounts_run a [] queue arrivals
  rw [hrun] at hsame
  obtain ⟨rfl, hresult⟩ := Prod.mk.inj hsame
  have ht : t = Account.done
      (batchesOps a.format a.book a.lastSeq batches ++ [.flushCommands, .flushEvents]) := haccount
  obtain ⟨hlogged, hrecorded⟩ :=
    tally_batchesOps (b := a.book) a.format a.lastSeq [] (hflatten.symm ▸ hm)
  rw [List.nil_append] at hlogged hrecorded
  refine ⟨(a.run queue arrivals).1, t, ⟨Prod.ext rfl hresult.symm, hrun, batches, hflatten, hsizes,
    ht⟩, ?_, ?_, hbook, hseq⟩
  · rw [ht, Account.done_append, (tally_flushes _).1, hlogged, hflatten]
    rfl
  · rw [ht, Account.done_append, (tally_flushes _).2, hrecorded, hflatten]
    rfl

/-- **Batches do not show.** Let two actors begin with the same book and the same last number, on
logs that do not fail, and let them get the same commands, none of which has too many events.
However many commands each of them takes at most at once, and however many are queued whenever it
looks, both execute all commands. They add the same records to their logs and the same events to
their outboxes, in the same order, and come to the same book and the same last number. Each does so
in batches of at least one command and at most its limit, all of which are logged and made durable
before the first event of one of them is offered to the outbox. -/
theorem batching_invisible {good : σ → Prop} {good' : σ' → Prop} {a : Actor σ} {a' : Actor σ'}
    (hst : a.storage.Steady good) (hgood : good a.logs) (hst' : a'.storage.Steady good')
    (hgood' : good' a'.logs) (hformat : a'.format = a.format) (hbook : a'.book = a.book)
    (hseq : a'.lastSeq = a.lastSeq)
    (hsame : queue' ++ arrivals'.flatten = queue ++ arrivals.flatten)
    (hm : a.book.Modest (queue ++ arrivals.flatten)) :
    ∃ left t left' t', a.Completes queue arrivals left t ∧ a'.Completes queue' arrivals' left' t' ∧
      t'.tally.logged = t.tally.logged ∧ t'.tally.recorded = t.tally.recorded ∧
      left'.book = left.book ∧ left'.lastSeq = left.lastSeq := by
  obtain ⟨left, t, hcompletes, hlogged, hrecorded, hleft, hlast⟩ :=
    exists_completes hst hgood rfl hm
  rw [← hbook] at hm
  obtain ⟨left', t', hcompletes', hlogged', hrecorded', hleft', hlast'⟩ :=
    exists_completes hst' hgood' hsame hm
  refine ⟨left, t, left', t', hcompletes, hcompletes', ?_, ?_, ?_, ?_⟩
  · rw [hlogged, hlogged', hformat, hseq]
  · rw [hrecorded, hrecorded', hbook, hseq]
  · rw [hleft, hleft', hbook]
  · rw [hlast, hlast', hseq]

/-- Two commands on files, taken one by one and both at once. -/
theorem batching_invisible_on_files :
    let w : Log.Writer := { capacity := 64, offset := 0 }
    let logs : SymbolLogs :=
      { files := { log := .ofBytes [], outbox := .ofBytes [] }, log := w, outbox := w }
    let a (batchMax : Nat) : Actor SymbolLogs :=
      { storage := SymbolLogs.storage .binary, format := .binary, batchMax, logs, book := {} }
    let c : Command :=
      { action := .submit { id := 1, user := 7, side := .sell, price := 10, qty := 5 } }
    let d : Command := { action := .cancel 1 }
    ({} : Book).Modest [c, d] ∧
      ∃ left t left' t', (a 1).Completes [c, d] [] left t ∧
        (a 2).Completes [] [[], [c, d]] left' t' ∧
        t'.tally.logged = t.tally.logged ∧ t'.tally.recorded = t.tally.recorded ∧
        left'.book = left.book ∧ left'.lastSeq = left.lastSeq := by
  intro w logs a c d
  have hholds : w.Holds (.ofBytes []) [] := ⟨rfl, Nat.zero_le _, rfl⟩
  have hgood : ∃ log outbox, logs.Holds log outbox := ⟨[], [], hholds, rfl, hholds, rfl⟩
  have hm : ({} : Book).Modest [c, d] := by decide +kernel
  have hsteady := SymbolLogs.storage_steady .binary
  exact ⟨hm, @batching_invisible _ _ [c, d] [] [] [[], [c, d]] _ _ (a 1) (a 2) hsteady hgood hsteady
    hgood rfl rfl rfl rfl hm⟩

end Actor

end Bourse
