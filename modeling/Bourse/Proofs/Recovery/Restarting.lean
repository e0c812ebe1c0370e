import Bourse.Proofs.Book.Sweeping
import Bourse.Proofs.Recovery.Exact

/-!
# Restarting a symbol

Whatever stops an actor, its files keep the journal of the commands that it logged, and so they do
through any number of sessions, with somebody who may ask the actors to stop. A recovery of such
files brings the symbol back exactly if no logged command has too many events: `recovers_iff_modest`.
A command that has too many is logged all the same, since its events are only counted when it is
executed, and then no session ever begins again: `unrecoverable_after_sweep`.
-/

namespace Bourse

/-! ## Sessions that may be asked to stop -/

/-- The logs of a symbol whose actor may be asked to stop. Time is counted in operations. -/
structure WatchedLogs where
  logs : SymbolLogs
  time : Nat := 0

/-- Files as the storage of an actor that `asked` tells when to stop. -/
def WatchedLogs.storage (f : Format) (asked : Nat → Bool) : Storage WatchedLogs where
  perform op s :=
    ((SymbolLogs.storage f).perform op s.logs).within fun logs => { logs, time := s.time + 1 }
  cancelled s := asked s.time

theorem WatchedLogs.storage_backs (f : Format) (asked : Nat → Bool) :
    (storage f asked).Backs f WatchedLogs.logs :=
  fun _ _ => rfl

/-- What happens to an actor: what it is given, and when it is asked to stop. -/
structure Visit where
  queue : List Command
  arrivals : List (List Command) := []
  asked : Nat → Bool := fun _ => false

/-- All commands of a visit. -/
def Visit.given (v : Visit) : List Command :=
  v.queue ++ v.arrivals.flatten

namespace Service

/-- The actor of a recovered symbol that may be asked to stop. -/
def watched (s : Service) (asked : Nat → Bool) (book : Book) (r : Recovery.Recovered) :
    Actor WatchedLogs :=
  { storage := WatchedLogs.storage s.format asked, format := s.format, batchMax := s.batchMax,
    logs := { logs := r.logs }, book, lastSeq := r.lastSeq }

/-- One session on the files of a symbol. Whatever ends it, the logs are closed. -/
def visit (s : Service) (files : SymbolFiles) (v : Visit) :
    Attempt SymbolFiles ServiceError ActorExit :=
  match Recovery.recover s.options s.format files s.fresh with
  | ((files, _), .error e) => (files, .error (.recovery e))
  | ((files, book), .ok r) =>
    match (s.watched v.asked book r).run v.queue v.arrivals with
    | (a, .error e) => (a.logs.logs.close files, .error (.actor e))
    | (a, .ok exit) => (a.logs.logs.close files, .ok exit)

/-- The files after any sessions, one after the other. -/
def visits (s : Service) (files : SymbolFiles) (vs : List Visit) : SymbolFiles :=
  vs.foldl (fun files v => (s.visit files v).1) files

end Service

/-! ## Files that keep a journal -/

/-- Both logs of a symbol are those of the journal. -/
structure SymbolFiles.Keeps (files : SymbolFiles) (f : Format) (fresh : Book) (cs : List Command) :
    Prop where
  logUsable : files.log.Usable
  log : files.log.bytes = Journal.logBytes f cs
  outboxUsable : files.outbox.Usable
  outbox : files.outbox.bytes = Journal.outboxBytes f fresh cs

variable {f : Format} {fresh : Book} {cs : List Command} {files : SymbolFiles}

theorem SymbolFiles.Empty.keeps (h : files.Empty) (f : Format) (fresh : Book) :
    files.Keeps f fresh [] :=
  ⟨h.logUsable, h.log, h.outboxUsable, h.outbox⟩

/-- Logs that are closed keep what they held. -/
theorem SymbolLogs.Holds.keeps_close {s : SymbolLogs}
    (h : s.Holds (Journal.logBytes f cs) (Journal.outboxBytes f fresh cs)) (files : SymbolFiles) :
    (s.close files).Keeps f fresh cs := by
  obtain ⟨hlog, hout⟩ := h.close files
  have hregular := h.flushCommands.1.flushEvents.1
  refine ⟨Or.inr ?_, hlog, Or.inr ?_, hout⟩
  · rw [SymbolLogs.close, SymbolLogs.save, hregular.logThere]
    exact hregular.log.regular
  · rw [SymbolLogs.close, SymbolLogs.save, hregular.outboxThere]
    exact hregular.outbox.regular

namespace Recovery

variable {o : Options}

/-- Files that keep a journal are readable, also when its last command is not closed. -/
theorem readable_of_keeps (h : files.Keeps f fresh cs) (hnum : cs.length < UInt64.size)
    (hfits : Journal.Fits o.limit f fresh cs) : ∃ complete, Readable o f fresh files cs complete := by
  obtain ⟨k, dangling, tail, hk, hm, hcut, hopen, hmem, hbegun, -⟩ :=
    outbox_cut f fresh 0 cs (Journal.outboxBytes f fresh cs).length
  rw [← Journal.outboxBytes, List.take_length] at hcut
  have htorn : Log.Torn (readOptions o.maxPayload) tail := by
    refine hbegun.torn rfl fun p hp => ?_
    obtain ⟨e, he, rfl⟩ := List.mem_map.1 hp
    exact ⟨hfits.events e he, f.length_encodeEvent_le e⟩
  refine ⟨k, h.logUsable, h.outboxUsable, hk, hnum, hm, ⟨[], ?_, Log.torn_cut rfl (Or.inl rfl)⟩,
    hfits.commands, ⟨dangling, tail, h.outbox.trans hcut, hopen, htorn, ?_⟩⟩
  · rw [h.log, List.append_nil]
  · intro e he
    rcases List.mem_append.1 he with he | he
    · exact (hfits.take k).events e he
    · exact hfits.events e (hmem e he)

end Recovery

/-! ## Any number of sessions -/

namespace Service

variable {s : Service}

/-- A session takes some of the commands it is given, and then the files keep the journal of these
as well. It fails only at a command with too many events, and at such a command in the log it does
not begin. -/
structure Visited (s : Service) (v : Visit) (cs ds : List Command) (files : SymbolFiles)
    (result : Except ServiceError ActorExit) : Prop where
  taken : ds <+: v.given
  keeps : files.Keeps s.format s.fresh (cs ++ ds)
  barred : ¬ s.fresh.Modest cs → ds = [] ∧ result = .error (.recovery (.log .tooManyEvents))
  stopped : s.fresh.Modest cs → ¬ s.fresh.Modest (cs ++ ds) →
    result = .error (.actor (.outboxAppend .tooManyEvents))
  ended : s.fresh.Modest (cs ++ ds) → result.isOk
  closed : result = .ok .mailboxClosed → ds = v.given
  asked : result = .ok .cancelled → ∃ t, v.asked t

theorem visited (h : files.Keeps s.format s.fresh cs) (hnum : cs.length < UInt64.size)
    (hfits : Journal.Fits s.options.limit s.format s.fresh cs) (v : Visit) :
    ∃ ds, s.Visited v cs ds (s.visit files v).1 (s.visit files v).2 := by
  obtain ⟨complete, hreadable⟩ := Recovery.readable_of_keeps h hnum hfits
  obtain ⟨files', book, result, hrecover, hregular, hout, -, -, hok, hrefused⟩ :=
    Recovery.recover_cases hreadable
  rw [visit, hrecover]
  by_cases hm : s.fresh.Modest cs
  · obtain ⟨r, rfl, hrestored, -, -⟩ := hok hm
    have hbacked : (s.watched v.asked book r).Backed (WatchedLogs.storage s.format v.asked)
        WatchedLogs.logs s.format s.fresh cs :=
      ⟨rfl, rfl, hrestored.book, hrestored.lastSeq, hrestored.logs⟩
    obtain ⟨a, result, ds, hrun, hends⟩ :=
      hbacked.run (WatchedLogs.storage_backs s.format v.asked) hm v.queue v.arrivals
    have hkeeps := hends.holds.keeps_close files'
    refine ⟨ds, ?_⟩
    dsimp only
    rw [hrun]
    cases result with
    | error e =>
      refine ⟨hends.taken, hkeeps, fun hnot => absurd hm hnot, ?_, ?_, ?_, ?_⟩
      · intro _ hnot
        obtain ⟨⟩ := hends.immodest hnot
        rfl
      · intro hall
        cases (hends.modest hall).1
      · intro hexit
        cases hexit
      · intro hexit
        cases hexit
    | ok exit =>
      refine ⟨hends.taken, hkeeps, fun hnot => absurd hm hnot, ?_, fun _ => rfl, ?_, ?_⟩
      · intro _ hnot
        cases hends.immodest hnot
      · intro hexit
        exact hends.closed (congrArg Except.ok (Except.ok.inj hexit))
      · intro hexit
        obtain ⟨t, ht⟩ := hends.asked (congrArg Except.ok (Except.ok.inj hexit))
        exact ⟨t.time, ht⟩
  · obtain ⟨rfl, hlog⟩ := hrefused hm
    have hkeeps : files'.Keeps s.format s.fresh cs :=
      ⟨hlog ▸ h.logUsable, hlog ▸ h.log, Or.inr hregular, hout⟩
    refine ⟨[], List.nil_prefix, ?_, fun _ => ⟨rfl, rfl⟩, fun h => absurd h hm, ?_, ?_, ?_⟩
    · rw [List.append_nil]
      exact hkeeps
    · intro hall
      rw [List.append_nil] at hall
      exact absurd hall hm
    · intro hexit
      cases hexit
    · intro hexit
      cases hexit

/-- A session that nobody asks to stop takes everything, unless a command has too many events. -/
theorem Visited.all {v : Visit} {ds : List Command} {result : Except ServiceError ActorExit}
    (h : s.Visited v cs ds files result) (hasked : ∀ t, v.asked t = false)
    (hm : s.fresh.Modest (cs ++ ds)) : ds = v.given := by
  rcases result with e | _ | _
  · cases h.ended hm
  · exact h.closed rfl
  · obtain ⟨t, ht⟩ := h.asked rfl
    rw [hasked t] at ht
    cases ht

/-- Once a command with too many events is in the log, no session changes anything. -/
theorem keeps_visits_of_not_modest (h : files.Keeps s.format s.fresh cs)
    (hnum : cs.length < UInt64.size) (hfits : Journal.Fits s.options.limit s.format s.fresh cs)
    (hm : ¬ s.fresh.Modest cs) (vs : List Visit) : (s.visits files vs).Keeps s.format s.fresh cs := by
  induction vs generalizing files with
  | nil => exact h
  | cons v vs ih =>
    obtain ⟨ds, hvisited⟩ := visited h hnum hfits v
    obtain ⟨rfl, -⟩ := hvisited.barred hm
    have hkeeps := hvisited.keeps
    rw [List.append_nil] at hkeeps
    exact ih hkeeps

/-- No recovery succeeds then. -/
theorem recover_visits_of_not_modest (h : files.Keeps s.format s.fresh cs)
    (hnum : cs.length < UInt64.size) (hfits : Journal.Fits s.options.limit s.format s.fresh cs)
    (hm : ¬ s.fresh.Modest cs) (vs : List Visit) :
    (Recovery.recover s.options s.format (s.visits files vs) s.fresh).2 =
      .error (.log .tooManyEvents) := by
  have hkeeps := keeps_visits_of_not_modest h hnum hfits hm vs
  obtain ⟨complete, hreadable⟩ := Recovery.readable_of_keeps hkeeps hnum hfits
  obtain ⟨files', book, result, hrecover, -, -, -, -, -, hrefused⟩ :=
    Recovery.recover_cases hreadable
  obtain ⟨rfl, -⟩ := hrefused hm
  rw [hrecover]

/-- A command with too many events gets into the log if nobody stops the actor before. -/
theorem visit_of_not_modest (h : files.Keeps s.format s.fresh cs) (hm : s.fresh.Modest cs)
    {v : Visit} (hasked : ∀ t, v.asked t = false)
    (hlarge : ¬ s.fresh.Modest (cs ++ v.given)) (hnum : (cs ++ v.given).length < UInt64.size)
    (hfits : ∀ ds, ds <+: v.given → Journal.Fits s.options.limit s.format s.fresh (cs ++ ds)) :
    (s.visit files v).2 = .error (.actor (.outboxAppend .tooManyEvents)) ∧
      ∀ later : List Visit,
        (Recovery.recover s.options s.format (s.visits files (v :: later)) s.fresh).2 =
          .error (.log .tooManyEvents) := by
  have hself := hfits [] List.nil_prefix
  rw [List.append_nil] at hself
  rw [List.length_append] at hnum
  obtain ⟨ds, hvisited⟩ := visited h (by omega) hself v
  have hnot : ¬ s.fresh.Modest (cs ++ ds) := by
    intro hds
    rw [hvisited.all hasked hds] at hds
    exact hlarge hds
  refine ⟨hvisited.stopped hm hnot, ?_⟩
  intro later
  have hlen : (cs ++ ds).length < UInt64.size := by
    have hle := hvisited.taken.length_le
    rw [List.length_append]
    omega
  exact recover_visits_of_not_modest hvisited.keeps hlen (hfits ds hvisited.taken) hnot later

/-- Through any sessions the files keep the journal of commands that were given, in their order. If
nobody asks an actor to stop, these are the first ones, and all of them if none has too many
events. -/
theorem keeps_visits (h : files.Keeps s.format s.fresh cs)
    (vs : List Visit) (hnum : cs.length + (vs.flatMap Visit.given).length < UInt64.size)
    (hfits : ∀ ds, ds.Sublist (vs.flatMap Visit.given) →
      Journal.Fits s.options.limit s.format s.fresh (cs ++ ds)) :
    ∃ ds, ds.Sublist (vs.flatMap Visit.given) ∧
      (s.visits files vs).Keeps s.format s.fresh (cs ++ ds) ∧
      ((∀ v ∈ vs, ∀ t, v.asked t = false) → ds <+: vs.flatMap Visit.given ∧
        (s.fresh.Modest (cs ++ ds) → ds = vs.flatMap Visit.given)) := by
  induction vs generalizing files cs with
  | nil =>
    refine ⟨[], List.Sublist.refl [], ?_, fun _ => ⟨List.prefix_refl [], fun _ => rfl⟩⟩
    rw [List.append_nil]
    exact h
  | cons v vs ih =>
    rw [List.flatMap_cons] at hnum hfits ⊢
    rw [List.length_append] at hnum
    have hself : Journal.Fits s.options.limit s.format s.fresh cs := by
      have := hfits [] (List.nil_sublist _)
      rwa [List.append_nil] at this
    obtain ⟨ds, hvisited⟩ := visited h (by omega) hself v
    have hle := hvisited.taken.length_le
    have hnum' : (cs ++ ds).length + (vs.flatMap Visit.given).length < UInt64.size := by
      rw [List.length_append]
      omega
    have hfits' : ∀ es, es.Sublist (vs.flatMap Visit.given) →
        Journal.Fits s.options.limit s.format s.fresh (cs ++ ds ++ es) := by
      intro es hes
      rw [List.append_assoc]
      exact hfits _ (hvisited.taken.sublist.append hes)
    by_cases hm : s.fresh.Modest (cs ++ ds)
    · obtain ⟨es, hsub, hkeeps, hall⟩ := ih hvisited.keeps hnum' hfits'
      rw [List.append_assoc] at hkeeps hall
      refine ⟨ds ++ es, hvisited.taken.sublist.append hsub, hkeeps, ?_⟩
      intro hasked
      obtain ⟨hfirst, hrest⟩ := hall fun v hv => hasked v (List.mem_cons_of_mem _ hv)
      obtain rfl := hvisited.all (hasked v List.mem_cons_self) hm
      refine ⟨(List.prefix_append_right_inj _).2 hfirst, ?_⟩
      intro hmodest
      rw [hrest hmodest]
    · -- The log holds a command with too many events from now on.
      have hself' := hfits' [] (List.nil_sublist _)
      rw [List.append_nil] at hself'
      refine ⟨ds, hvisited.taken.sublist.trans (List.sublist_append_left ..), ?_, ?_⟩
      · exact keeps_visits_of_not_modest hvisited.keeps (by omega) hself' hm vs
      · intro _
        exact ⟨hvisited.taken.trans (List.prefix_append ..), fun hmodest => absurd hmodest hm⟩

/-- **A restart brings a symbol back exactly if no logged command has too many events.** Sessions
run one after the other on files that were empty; each may be given any commands, in any batches,
and may be asked to stop at any time. Afterwards the log holds some of these commands. If none has
too many events, a recovery leads to the book of just these, and an actor goes on from there with
whatever commands follow; otherwise every recovery fails, then and after any further sessions. -/
theorem recovers_iff_modest (hfiles : files.Empty) (vs : List Visit)
    (hnum : (vs.flatMap Visit.given).length < UInt64.size)
    (hfits : ∀ cs, cs.Sublist (vs.flatMap Visit.given) →
      Journal.Fits s.options.limit s.format s.fresh cs) :
    ∃ cs, cs.Sublist (vs.flatMap Visit.given) ∧
      (s.visits files vs).log.bytes = Journal.logBytes s.format cs ∧
      ((∀ v ∈ vs, ∀ t, v.asked t = false) → cs <+: vs.flatMap Visit.given ∧
        (s.fresh.Modest cs → cs = vs.flatMap Visit.given)) ∧
      (s.fresh.Modest cs →
        ∃ files' book r,
          Recovery.recover s.options s.format (s.visits files vs) s.fresh =
            ((files', book), .ok r) ∧
          book = s.fresh.executeAll cs ∧ r.lastSeq.toNat = cs.length ∧
          ∀ (queue : List Command) (arrivals : List (List Command)),
            s.fresh.Modest (cs ++ queue ++ arrivals.flatten) →
            ∃ a, (s.actor book r).run queue arrivals = (a, .ok .mailboxClosed) ∧
              a.book = s.fresh.executeAll (cs ++ queue ++ arrivals.flatten)) ∧
      (¬ s.fresh.Modest cs → ∀ later : List Visit,
        (Recovery.recover s.options s.format (s.visits files (vs ++ later)) s.fresh).2 =
          .error (.log .tooManyEvents)) := by
  obtain ⟨cs, hsub, hkeeps, hall⟩ :=
    keeps_visits (hfiles.keeps s.format s.fresh) vs (by simpa using hnum) hfits
  rw [List.nil_append] at hkeeps hall
  have hlen : cs.length < UInt64.size := by
    have := hsub.length_le
    omega
  refine ⟨cs, hsub, hkeeps.log, hall, ?_, ?_⟩
  · intro hm
    obtain ⟨complete, hreadable⟩ := Recovery.readable_of_keeps hkeeps hlen (hfits cs hsub)
    obtain ⟨files', book, r, hrecover, hrestored, -⟩ :=
      Recovery.recover_readable hreadable hm
    refine ⟨files', book, r, hrecover, hrestored.book, ?_, ?_⟩
    · rw [hrestored.lastSeq]
      exact Recovery.Rebuild.toNat_ofNat_of_lt hlen
    · intro queue arrivals hmore
      obtain ⟨a, hrun, hserved⟩ := (served_of_restored hrestored).run hmore
      exact ⟨a, hrun, hserved.book⟩
  · intro hm later
    have hsplit : s.visits files (vs ++ later) = s.visits (s.visits files vs) later :=
      List.foldl_append ..
    rw [hsplit]
    exact recover_visits_of_not_modest hkeeps hlen (hfits cs hsub) hm later

/-- A service with binary records and everything else as it is by default. -/
def plain : Service :=
  { options := {}, format := .binary, batchMax := 1024, fresh := {} }

/-- Two sessions over one command each. Both commands are brought back. -/
theorem recovers_two_visits :
    let c : Command := { action := .cancel 0 }
    ∃ files book r,
      Recovery.recover {} .binary (plain.visits {} [{ queue := [c] }, { queue := [c] }]) {} =
        ((files, book), .ok r) ∧ r.lastSeq.toNat = 2 := by
  intro c
  have hempty : ({} : SymbolFiles).Empty := ⟨Or.inl rfl, rfl, Or.inl rfl, rfl⟩
  obtain ⟨cs, -, -, hall, hrecovers, -⟩ :=
    recovers_iff_modest (s := plain) hempty
      [{ queue := [c] }, { queue := [c] }] (by decide)
      fun cs _ => Journal.fits_binary (by decide) plain.fresh cs
  obtain ⟨hfirst, hmodest⟩ := hall fun v hv t => by
    simp only [List.mem_cons, List.not_mem_nil, or_false, or_self] at hv
    rw [hv]
  have hm : plain.fresh.Modest cs := by
    rw [List.prefix_iff_eq_take.1 hfirst]
    exact Book.Modest.take (by decide) _
  obtain ⟨files, book, r, hrecover, -, hseq, -⟩ := hrecovers hm
  refine ⟨files, book, r, hrecover, ?_⟩
  rw [hseq, hmodest hm]
  rfl

/-- The other case: 65535 offers, and an order that takes all of them in one session that nobody
asks to stop, on files without any fault. The actor stops at that order, which is in the log, and
neither then nor after any further sessions is the symbol recovered. -/
theorem unrecoverable_after_sweep :
    let v : Visit := { queue := Command.offers 65535 ++ [Command.sweep 65535] }
    (plain.visit {} v).2 = .error (.actor (.outboxAppend .tooManyEvents)) ∧
      ∀ later : List Visit, (Recovery.recover {} .binary (plain.visits {} (v :: later)) {}).2 =
        .error (.log .tooManyEvents) := by
  intro v
  have hempty : ({} : SymbolFiles).Empty := ⟨Or.inl rfl, rfl, Or.inl rfl, rfl⟩
  have hgiven : [] ++ v.given = Command.offers 65535 ++ [Command.sweep 65535] := by
    rw [Visit.given, List.flatten_nil, List.append_nil, List.nil_append]
  refine visit_of_not_modest (s := plain) (hempty.keeps .binary {}) trivial (fun _ => rfl) ?_ ?_ ?_
  · rw [hgiven, Book.modest_append]
    rintro ⟨-, hsweep, -⟩
    have hlt := Book.lt_length_execute_sweep (n := 65535) (by decide) (by decide)
    exact absurd hlt (Nat.not_lt.2 hsweep)
  · rw [hgiven, Command.offers, List.length_append, List.length_map, List.length_range]
    decide
  · intro ds _
    exact Journal.fits_binary (by decide) _ _

end Service

end Bourse
