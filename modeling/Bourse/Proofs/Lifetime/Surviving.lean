import Bourse.Proofs.Lifetime.Keeping

/-!
# What survives

Through any number of sessions, failures and crashes the commands that are secured stay the first
ones in the log, and the outbox holds events of the journal of those alone. This invariant of a
world is preserved by every step, provided that a recovery makes the log durable that it has read.
-/

namespace Bourse

/-! ## Commands that a service admits -/

namespace Service

variable {sv : Service} {b : Book} {last : Seq} {cs ds : List Command}

theorem Admits.append (h : sv.Admits b last cs)
    (h' : sv.Admits (b.executeAll cs) (last + UInt64.ofNat cs.length) ds) :
    sv.Admits b last (cs ++ ds) where
  modest := Book.modest_append.2 ⟨h.modest, h'.modest⟩
  commands := by
    intro p hp
    rw [Actor.number_append, Journal.payloads_append, List.mem_append] at hp
    rcases hp with hp | hp
    · exact h.commands p hp
    · exact h'.commands p hp
  events := by
    intro e he
    rw [Actor.number_append, Journal.events_append h.modest, List.mem_append] at he
    rcases he with he | he
    · exact h.events e he
    · exact h'.events e he

theorem Admits.cut (h : sv.Admits b last ds) (hcs : cs <+: ds) : sv.Admits b last cs := by
  obtain ⟨more, rfl⟩ := hcs
  refine ⟨(Book.modest_append.1 h.modest).1, ?_, ?_⟩
  · intro p hp
    refine h.commands p ?_
    rw [Actor.number_append, Journal.payloads_append]
    exact List.mem_append_left _ hp
  · intro e he
    refine h.events e ?_
    rw [Actor.number_append]
    exact (Journal.events_prefix ..).subset he

/-- Records of the binary format have a fixed length. -/
theorem admits_binary (hf : sv.format = .binary) (hlimit : 68 ≤ sv.options.limit)
    (hm : b.Modest cs) : sv.Admits b last cs where
  modest := hm
  commands := by
    rw [hf]
    exact fun _ hp => Journal.length_le_of_mem_payloads_binary (Nat.le_trans (by decide) hlimit) hp
  events := by
    rw [hf]
    exact fun e _ => Format.length_encodeEvent_binary_le hlimit e

end Service

/-! ## The invariant of a world -/

/-- What is left between two sessions: a log of the commands `all`, of which it holds the secured
ones, `ds`, and an outbox with first events of these. -/
structure Rests (sv : Service) (ds all : List Command) (files : SymbolFiles) (kept : Nat)
    (published : List Event) : Prop where
  secured : ds <+: all
  kept : (Journal.logBytes sv.format ds).length ≤ kept
  here : (Journal.logBytes sv.format ds).length ≤ files.log.size
  logUsable : files.log.Usable
  log : files.log.bytes <+: Journal.logBytes sv.format all
  logRange : (Journal.logBytes sv.format all).length ≤ File.maxPosition
  outboxUsable : files.outbox.Usable
  outbox : files.outbox.bytes <+: Journal.outboxBytes sv.format sv.fresh ds
  delivered : ∃ done, Delivered sv.format (Journal.events sv.fresh (Actor.number 0 ds)) done
    published files.cursor

/-- The secured commands of a world are `ds`, and all that its log holds are `all`. -/
inductive World.Keeps (sv : Service) (ds all : List Command) : World → Prop where
  | down {files : SymbolFiles} {kept : Nat} {published : List Event}
      (rests : Rests sv ds all files kept published) : Keeps sv ds all (.down files kept published)
  | up {a : Actor Site} {running : Bool} {out : Bytes}
      (site : a.logs.Keeps sv.format sv.fresh ds all out)
      (runs : running = true → a.Runs sv ds) : Keeps sv ds all (.up a running)

variable {sv : Service} {ds all cs : List Command} {files files' : SymbolFiles} {kept : Nat}
  {published : List Event} {w w' : World}

theorem Rests.log_size_le (h : Rests sv ds all files kept published) :
    files.log.size ≤ File.maxPosition := by
  rw [← File.length_bytes]
  exact Nat.le_trans h.log.length_le h.logRange

/-- The commands that a recovery reads are secured from then on. -/
theorem Rests.recover (h : Rests sv ds all files kept published)
    {o : Recovery.Options} {book : Book} {result : Except RecoveryError Recovery.Recovered}
    (hdone : Recovery.recover o sv.format files sv.fresh = ((files', book), result)) :
    ∃ cs, ds <+: cs ∧ cs <+: all ∧ (Journal.logBytes sv.format cs).length ≤ files'.log.size ∧
      files'.outbox.bytes <+: Journal.outboxBytes sv.format sv.fresh cs ∧
      (∃ done, Delivered sv.format (Journal.events sv.fresh (Actor.number 0 cs)) done
        published files.cursor) ∧
      ∀ r, result = .ok r → sv.fresh.Modest cs ∧
        Recovery.Restored sv.format sv.fresh cs files' book r ∧ files'.cursor = files.cursor := by
  obtain ⟨cs, hds, hcs, hlog, hout, hok⟩ := Recovery.recover_prefix h.logUsable h.outboxUsable
    h.log_size_le h.log h.secured h.here h.outbox hdone
  obtain ⟨done, hdelivered⟩ := h.delivered
  refine ⟨cs, hds, hcs, hlog, hout, ⟨done, hdelivered.mono ?_⟩, hok⟩
  obtain ⟨more, rfl⟩ := hds
  rw [Actor.number_append]
  exact Journal.events_prefix ..

/-- A symbol that was recovered keeps the commands that the recovery has read. -/
theorem Rests.recovered (h : Rests sv ds all files kept published)
    {o : Recovery.Options} {book : Book} {r : Recovery.Recovered}
    (hok : Recovery.recover o sv.format files sv.fresh = ((files', book), .ok r))
    (hroom : files'.outbox.size ≤ File.maxPosition) :
    ∃ cs, ds <+: cs ∧ cs <+: all ∧
      (World.up (sv.actorAt o book r files'.log.size published) true).Keeps sv cs cs := by
  obtain ⟨cs, hds, hcs, hlog, -, ⟨done, hdelivered⟩, hrestored⟩ := h.recover hok
  obtain ⟨hmodest, hrestored, hcursor⟩ := hrestored r rfl
  have hout : (Journal.outboxBytes sv.format sv.fresh cs).length = files'.outbox.size := by
    rw [← hrestored.outbox, File.length_bytes]
  have hsite : (sv.actorAt o book r files'.log.size published).logs.Keeps sv.format sv.fresh cs cs
      (Journal.outboxBytes sv.format sv.fresh cs) :=
    { secured := List.prefix_refl _
      kept := hlog
      logs := hrestored.logs
      journal := List.prefix_refl _
      logRange := Nat.le_trans (Journal.logBytes_prefix sv.format hcs).length_le h.logRange
      outboxRange := hout ▸ hroom
      delivers := by
        have hfiles : (sv.actorAt o book r files'.log.size published).logs.logs.files = files' :=
          hrestored.files
        have hload : (sv.actorAt o book r files'.log.size published).logs.logs.files.cursor =
            files.cursor := by
          rw [hfiles, hcursor]
        refine ⟨done, ?_, fun p hp => (by cases hp), fun p hp => (by cases hp), ?_⟩
        · rw [hload]
          exact hdelivered
        · -- The cursor stands behind events that the outbox was rebuilt with.
          intro c hc
          rw [hload] at hc
          obtain ⟨back, hback, -, hat⟩ := hdelivered.cursor
          rw [hat] at hc
          injection hc with hc
          rw [hfiles, ← hout, ← hc]
          exact Publisher.length_eventBytes_le (hback.trans hdelivered.journal) }
  exact ⟨cs, hds, hcs, .up hsite fun _ =>
    { storage := rfl
      format := rfl
      book := hrestored.book
      lastSeq := hrestored.lastSeq
      modest := hmodest
      site := hsite }⟩

/-- A recovery that does not come to its end keeps the commands that it has read. -/
theorem Rests.interrupted (h : Rests sv ds all files kept published)
    {o : Recovery.Options} {book : Book} {result : Except RecoveryError Recovery.Recovered} {log outbox : File}
    (hdone : Recovery.recover o sv.format files sv.fresh = ((files', book), result))
    (hlogUsable : log.Usable) (hlog : log.bytes <+: files.log.bytes)
    (hkept : files'.log.size ≤ log.size) (houtboxUsable : outbox.Usable)
    (houtbox : outbox.bytes <+: files'.outbox.bytes) :
    ∃ cs, ds <+: cs ∧ cs <+: all ∧
      (World.down { files with log, outbox } files'.log.size published).Keeps sv cs all := by
  obtain ⟨cs, hds, hcs, hread, hout, hdelivered, -⟩ := h.recover hdone
  exact ⟨cs, hds, hcs, .down
    { secured := hcs
      kept := hread
      here := Nat.le_trans hread hkept
      logUsable := hlogUsable
      log := hlog.trans h.log
      logRange := h.logRange
      outboxUsable := houtboxUsable
      outbox := houtbox.trans hout
      delivered := hdelivered }⟩

namespace World

theorem Keeps.secured (h : w.Keeps sv ds all) : ds <+: all := by
  cases h with
  | down rests => exact rests.secured
  | up site _ => exact site.secured

theorem Keeps.logRange (h : w.Keeps sv ds all) :
    (Journal.logBytes sv.format all).length ≤ File.maxPosition := by
  cases h with
  | down rests => exact rests.logRange
  | up site _ => exact site.logRange

theorem Keeps.log (h : w.Keeps sv ds all) : w.log <+: Journal.logBytes sv.format all := by
  cases h with
  | down rests => exact rests.log
  | up site _ =>
    exact ⟨[], (List.append_nil _).trans site.logs.log.contents⟩

theorem Keeps.outbox (h : w.Keeps sv ds all) :
    w.outbox <+: Journal.outboxBytes sv.format sv.fresh ds := by
  cases h with
  | down rests => exact rests.outbox
  | up site _ =>
    show Log.Writer.contents _ _ <+: _
    rw [site.logs.outbox.contents]
    exact site.journal

/-- The end of a session leaves the secured commands in the log. -/
theorem Keeps.rests (h : w.Keeps sv ds all) (hl : w.Leaves files) :
    Rests sv ds all files w.kept w.published where
  secured := h.secured
  kept := by
    cases h with
    | down rests => exact rests.kept
    | up site _ => exact site.kept
  here := by
    refine Nat.le_trans ?_ hl.kept
    cases h with
    | down rests => exact rests.kept
    | up site _ => exact site.kept
  logUsable := hl.logUsable
  log := hl.log.trans h.log
  logRange := h.logRange
  outboxUsable := hl.outboxUsable
  outbox := hl.outbox.trans h.outbox
  delivered := by
    rw [hl.cursor]
    cases h with
    | down rests => exact rests.delivered
    | up site _ =>
      obtain ⟨done, hdone⟩ := site.delivers
      exact ⟨done, hdone.delivered⟩

theorem keeps_fresh (sv : Service) : fresh.Keeps sv [] [] :=
  .down
    { secured := List.prefix_refl _
      kept := Nat.le_refl _
      here := Nat.le_refl _
      logUsable := Or.inl rfl
      log := List.prefix_refl _
      logRange := Nat.zero_le _
      outboxUsable := Or.inl rfl
      outbox := List.prefix_refl _
      delivered := ⟨[], List.prefix_refl _, rfl, [], List.prefix_refl _, Or.inl rfl, rfl⟩ }

/-! ## Steps and runs -/

/-- Commands that are secured stay secured in a step, and no others get into the log than the
service admits. -/
theorem Keeps.step {tame : Bool} (h : w.Keeps sv ds all)
    (hall : tame = true → sv.Admits sv.fresh 0 all) (hstep : Step sv true tame w w') :
    ∃ ds' all', ds <+: ds' ∧ w'.Keeps sv ds' all' ∧
      (tame = true → sv.Admits sv.fresh 0 all') := by
  cases hstep with
  | recover ok room =>
    cases h with
    | down rests =>
      obtain ⟨cs, hds, hcs, hkeeps⟩ := rests.recovered ok room
      exact ⟨cs, cs, hds, hkeeps, fun ht => (hall ht).cut hcs⟩
  | interrupted done logUsable logCut logKept outboxUsable outboxCut =>
    cases h with
    | down rests =>
      obtain ⟨cs, hds, -, hkeeps⟩ :=
        rests.interrupted done logUsable logCut logKept outboxUsable outboxCut
      exact ⟨cs, all, hds, hkeeps, hall⟩
  | batch admitted commit =>
    next a a' fates batch result =>
    cases h with
    | up site runs =>
      have hruns := runs rfl
      obtain ⟨ds', all', out', hkeeps, hds, hall', hok⟩ := (hruns.withFates fates).commit commit
      refine ⟨ds', all', hds, .up hkeeps fun hrunning => hok ?_, fun ht => ?_⟩
      · cases result with
        | ok _ => rfl
        | error e => cases hrunning
      · have hbatch := admitted ht
        rw [hruns.book, hruns.lastSeq, ← UInt64.zero_add (UInt64.ofNat ds.length)] at hbatch
        exact (((hall ht).cut site.secured).append hbatch).cut hall'
  | publish t =>
    cases h with
    | up site runs =>
      exact ⟨ds, all, List.prefix_refl _, .up (site.advance t) fun hr =>
        { runs hr with site := (runs hr).site.advance t }, hall⟩
  | spill i j =>
    cases h with
    | up site runs =>
      exact ⟨ds, all, List.prefix_refl _, .up (site.spill i j) fun hr =>
        { runs hr with site := (runs hr).site.spill i j }, hall⟩
  | ends leaves => exact ⟨ds, all, List.prefix_refl _, .down (h.rests leaves), hall⟩

/-- The same for any number of steps. -/
theorem Keeps.run {tame : Bool} (h : w.Keeps sv ds all)
    (hall : tame = true → sv.Admits sv.fresh 0 all) (hreaches : Reaches sv true tame w w') :
    ∃ ds' all', ds <+: ds' ∧ w'.Keeps sv ds' all' ∧
      (tame = true → sv.Admits sv.fresh 0 all') := by
  induction hreaches with
  | refl => exact ⟨ds, all, List.prefix_refl _, h, hall⟩
  | tail _ hstep ih =>
    obtain ⟨ds₁, all₁, hds₁, h₁, hall₁⟩ := ih
    obtain ⟨ds₂, all₂, hds₂, h₂, hall₂⟩ := h₁.step hall₁ hstep
    exact ⟨ds₂, all₂, hds₁.trans hds₂, h₂, hall₂⟩

theorem admits_nil (sv : Service) : sv.Admits sv.fresh 0 [] :=
  ⟨trivial, fun p hp => (by cases hp), fun e he => (by cases he)⟩

end World

end Bourse
