import Bourse.Proofs.Lifetime.Publishing

/-!
# What a session keeps

Throughout a session the log holds commands of which the first ones are secured, and the outbox
holds first events of the journal of those alone. Every operation of the actor preserves this,
whether it succeeds or fails and whatever the publisher does in between, and so a batch does.
-/

namespace Bourse

/-! ## Logs that grow -/

theorem Log.Writer.grows_append {w w' : Writer} {g g' : File} {payload : Bytes}
    (hg : g.isRegular) (hw : w.Sound) (h : w.append g payload = .ok (w', g')) :
    g.bytes <+: g'.bytes := by
  by_cases hp : payload.length ≤ maxLength
  · obtain ⟨w₁, g₁, happ, hadds, -⟩ := append_ok hg hw hp
    rw [h] at happ
    injection happ with happ
    obtain ⟨-, rfl⟩ := Prod.mk.inj happ
    exact hadds.grows
  · rw [append_refused (Nat.lt_of_not_le hp)] at h
    cases h

/-- A file gets a first part of what is pending, and the rest of it stays pending. -/
theorem Log.Writer.Holds.spill {w : Writer} {f : File} {bytes : Bytes} (h : w.Holds f bytes)
    (n : Nat) :
    (w.spill f n).1.Holds (w.spill f n).2 bytes ∧ f.bytes <+: (w.spill f n).2.bytes := by
  obtain ⟨hbytes, hregular⟩ := bytes_append_of_regular h.regular (w.pending.extract 0 n)
  have hsplit : (w.pending.extract 0 n).data.toList ++
      (w.pending.extract n w.pending.size).data.toList = w.pending.data.toList := by
    have hrest : (w.pending.data.toList.drop n).length ≤ w.pending.size - n := by simp
    simp only [ByteArray.data_extract, Array.toList_extract, List.extract, Nat.sub_zero,
      List.drop_zero]
    rw [List.take_of_length_le hrest, List.take_append_drop]
  refine ⟨⟨hregular, ?_, ?_⟩, ?_⟩
  · have hsound := h.sound
    unfold Sound at hsound ⊢
    show (w.pending.extract n w.pending.size).size ≤ w.capacity
    rw [ByteArray.size_extract]
    omega
  · show (f.append (w.pending.extract 0 n)).bytes ++
      (w.pending.extract n w.pending.size).data.toList = bytes
    rw [hbytes, List.append_assoc, hsplit]
    exact h.contents
  · show f.bytes <+: (f.append (w.pending.extract 0 n)).bytes
    rw [hbytes]
    exact List.prefix_append ..

/-- An operation that succeeds only adds to the outbox, and leaves the cursor as it is. -/
theorem SymbolLogs.Holds.onward {s s' : SymbolLogs} {log outbox : Bytes} (h : s.Holds log outbox)
    {f : Format} {op : LogOp} (hop : (storage f).perform op s = (s', .ok ())) :
    s.files.outbox.bytes <+: s'.files.outbox.bytes ∧ s'.files.cursor = s.files.cursor := by
  cases op with
  | appendCommand payload =>
    change s.appendCommand payload = _ at hop
    unfold SymbolLogs.appendCommand at hop
    split at hop
    · cases (Prod.mk.inj hop).2
    · obtain ⟨rfl, -⟩ := Prod.mk.inj hop
      exact ⟨List.prefix_refl _, rfl⟩
  | flushCommands =>
    obtain ⟨rfl, -⟩ := Prod.mk.inj hop
    exact ⟨List.prefix_refl _, rfl⟩
  | appendEvent e =>
    change s.appendEvent (f.encodeEvent e) = _ at hop
    unfold SymbolLogs.appendEvent at hop
    split at hop
    · cases (Prod.mk.inj hop).2
    · next happ =>
      obtain ⟨rfl, -⟩ := Prod.mk.inj hop
      exact ⟨Log.Writer.grows_append h.outbox.regular h.outbox.sound happ, rfl⟩
  | flushEvents =>
    obtain ⟨rfl, -⟩ := Prod.mk.inj hop
    refine ⟨?_, rfl⟩
    show _ <+: (s.outbox.flush s.files.outbox).2.bytes
    rw [(Log.Writer.contents_flush h.outbox.regular).1]
    exact Log.Writer.bytes_prefix_contents ..

namespace Site

/-! ## The invariant -/

/-- The log of a site holds the commands `all`, of which `ds` are secured, and its outbox holds
`out`, a first part of the journal of `ds`. -/
structure Keeps (s : Site) (f : Format) (fresh : Book) (ds all : List Command) (out : Bytes) :
    Prop where
  secured : ds <+: all
  kept : (Journal.logBytes f ds).length ≤ s.kept
  logs : s.logs.Holds (Journal.logBytes f all) out
  journal : out <+: Journal.outboxBytes f fresh ds
  logRange : (Journal.logBytes f all).length ≤ File.maxPosition
  outboxRange : out.length ≤ File.maxPosition
  delivers : ∃ done, s.Delivers f (Journal.events fresh (Actor.number 0 ds)) done

variable {s s' : Site} {f : Format} {fresh : Book} {ds all : List Command} {out : Bytes}

theorem Keeps.numbered (h : s.Keeps f fresh ds all out) : all.length < UInt64.size :=
  File.length_lt_of_inRange h.logRange (Nat.le_refl _)

theorem Keeps.records (h : s.Keeps f fresh ds all out) :
    s.Records f (Journal.events fresh (Actor.number 0 ds)) where
  ordered := by
    refine Journal.pairwise_events ?_
    have := h.secured.length_le
    have := h.numbered
    show 0 + ds.length < UInt64.size
    omega
  regular := h.logs.outbox.regular
  journal := by
    refine List.IsPrefix.trans ?_ h.journal
    rw [← h.logs.outbox.contents]
    exact Log.Writer.bytes_prefix_contents ..
  range := by
    have hprefix := (Log.Writer.bytes_prefix_contents s.logs.outbox s.logs.files.outbox).length_le
    rw [h.logs.outbox.contents, File.length_bytes] at hprefix
    exact Nat.le_trans hprefix h.outboxRange

/-- The publisher takes its turns beside all this. -/
theorem Keeps.beside (h : s.Keeps f fresh ds all out) (hb : s.Beside s')
    (hd : ∃ done, s'.Delivers f (Journal.events fresh (Actor.number 0 ds)) done) :
    s'.Keeps f fresh ds all out where
  secured := h.secured
  kept := by
    rw [hb.kept]
    exact h.kept
  logs := by
    rw [hb.logs]
    exact { h.logs with }
  journal := h.journal
  logRange := h.logRange
  outboxRange := h.outboxRange
  delivers := hd

theorem Keeps.advance (h : s.Keeps f fresh ds all out) (t : Turn) :
    (s.advance f t).Keeps f fresh ds all out := by
  obtain ⟨done, hdone⟩ := h.delivers
  obtain ⟨hbeside, hdelivers⟩ := hdone.advance h.records t
  exact h.beside hbeside hdelivers

/-- What is going to happen is no part of this. -/
theorem Keeps.withFates (h : s.Keeps f fresh ds all out) (fates : List Fate) :
    ({ s with fates } : Site).Keeps f fresh ds all out := by
  obtain ⟨done, hdone⟩ := h.delivers
  exact h.beside ⟨rfl, rfl⟩
    ⟨done, hdone.delivered, hdone.placed, hdone.reader, hdone.cursorWithin⟩

theorem Keeps.interlude (h : s.Keeps f fresh ds all out) :
    (s.interlude f).Keeps f fresh ds all out := by
  have hturns (turns : List Turn) (s : Site) (h : s.Keeps f fresh ds all out) :
      (turns.foldl (Site.advance f) s).Keeps f fresh ds all out := by
    induction turns generalizing s with
    | nil => exact h
    | cons t rest ih => exact ih _ (h.advance t)
  exact hturns _ _ (h.withFates _)

/-- An operation of the actor adds to what the logs hold. -/
theorem Keeps.write (h : s.Keeps f fresh ds all out) {all' : List Command} {out' : Bytes}
    {op : LogOp} {logs : SymbolLogs}
    (hop : (SymbolLogs.storage f).perform op s.logs = (logs, .ok ()))
    (hholds : logs.Holds (Journal.logBytes f all') out') (hall : all <+: all')
    (hjournal : out' <+: Journal.outboxBytes f fresh ds) (hrange : logs.inRange = true) :
    ({ s with logs } : Site).Keeps f fresh ds all' out' := by
  obtain ⟨hgrow, hcursor⟩ := h.logs.onward hop
  obtain ⟨done, hdone⟩ := h.delivers
  have hlengths : (Journal.logBytes f all').length ≤ File.maxPosition ∧
      out'.length ≤ File.maxPosition := by
    unfold SymbolLogs.inRange at hrange
    rw [Bool.and_eq_true, decide_eq_true_eq, decide_eq_true_eq] at hrange
    rw [← hholds.log.contents, ← hholds.outbox.contents]
    simp only [Log.Writer.contents, List.length_append, File.length_bytes]
    exact hrange
  exact
    { secured := h.secured.trans hall
      kept := h.kept
      logs := hholds
      journal := hjournal
      logRange := hlengths.1
      outboxRange := hlengths.2
      delivers := ⟨done, hdone.grow (List.prefix_refl _) hgrow hcursor rfl rfl⟩ }

/-- Once the whole log is kept, all commands in it are secured. -/
theorem Keeps.secure (h : s.Keeps f fresh ds all out) {kept : Nat}
    (hkept : (Journal.logBytes f all).length ≤ kept) :
    ({ s with kept } : Site).Keeps f fresh all all out := by
  obtain ⟨done, hdone⟩ := h.delivers
  have hevents : Journal.events fresh (Actor.number 0 ds) <+:
      Journal.events fresh (Actor.number 0 all) := by
    obtain ⟨more, hmore⟩ := h.secured
    rw [← hmore, Actor.number_append]
    exact Journal.events_prefix ..
  exact
    { secured := List.prefix_refl _
      kept := hkept
      logs := h.logs
      journal := h.journal.trans (Journal.outboxBytes_prefix f fresh h.secured)
      logRange := h.logRange
      outboxRange := h.outboxRange
      delivers := ⟨done, hdone.grow hevents (List.prefix_refl _) rfl rfl rfl⟩ }

/-- So are the bytes that reach the files at any time. -/
theorem Keeps.spill (h : s.Keeps f fresh ds all out) (i j : Nat) :
    (s.spill i j).Keeps f fresh ds all out := by
  obtain ⟨done, hdone⟩ := h.delivers
  obtain ⟨hlog, -⟩ := h.logs.log.spill i
  obtain ⟨houtbox, hgrow⟩ := h.logs.outbox.spill j
  exact
    { secured := h.secured
      kept := h.kept
      logs :=
        { log := hlog
          logThere := h.logs.logThere
          outbox := houtbox
          outboxThere := h.logs.outboxThere }
      journal := h.journal
      logRange := h.logRange
      outboxRange := h.outboxRange
      delivers := ⟨done, hdone.grow (List.prefix_refl _) hgrow rfl rfl rfl⟩ }

/-! ## Operations of the actor -/

/-- What becomes of an operation that the files could carry out. -/
theorem perform_eq {op : LogOp} {logs : SymbolLogs}
    (hop : (SymbolLogs.storage f).perform op (s.interlude f).logs = (logs, .ok ())) :
    s.perform f op =
      if logs.inRange then
        if s.fate.fails then ({ s.interlude f with logs }, .error (.file (.other "failed")))
        else
          ({ s.interlude f with
              logs
              kept := if op = .flushCommands then logs.files.log.size else (s.interlude f).kept },
            .ok ())
      else (s.interlude f, .error (.file (.other "File too large (os error 27)"))) := by
  rw [Site.perform, hop]

/-- It is refused for want of positions, or carried out and reported as failed, or carried out. -/
theorem perform_cases {op : LogOp} {logs : SymbolLogs}
    (hop : (SymbolLogs.storage f).perform op (s.interlude f).logs = (logs, .ok ())) :
    (∃ e, s.perform f op = (s.interlude f, .error e)) ∨
      logs.inRange = true ∧
        ((∃ e, s.perform f op = ({ s.interlude f with logs }, .error e)) ∨
          s.perform f op =
            ({ s.interlude f with
                logs
                kept :=
                  if op = .flushCommands then logs.files.log.size else (s.interlude f).kept },
              .ok ())) := by
  rw [perform_eq hop]
  split
  · next hrange =>
    refine Or.inr ⟨hrange, ?_⟩
    split
    · exact Or.inl ⟨_, rfl⟩
    · exact Or.inr rfl
  · exact Or.inl ⟨_, rfl⟩

/-- An operation that is no flush of the log either fails and changes nothing, or adds to the logs
what it is to add. It may fail even then. -/
theorem Keeps.perform (h : s.Keeps f fresh ds all out) {op : LogOp} (hflush : op ≠ .flushCommands)
    {all' : List Command} {out' : Bytes} {logs : SymbolLogs}
    (hop : (SymbolLogs.storage f).perform op (s.interlude f).logs = (logs, .ok ()))
    (hholds : logs.Holds (Journal.logBytes f all') out') (hall : all <+: all')
    (hjournal : out' <+: Journal.outboxBytes f fresh ds) :
    ∃ s' result, s.perform f op = (s', result) ∧
      (result ≠ .ok () ∧ s'.Keeps f fresh ds all out ∨ s'.Keeps f fresh ds all' out') := by
  have h₁ := h.interlude
  rcases perform_cases hop with ⟨e, hrun⟩ | ⟨hrange, ⟨e, hrun⟩ | hrun⟩
  · exact ⟨_, _, hrun, Or.inl ⟨fun hr => (by cases hr), h₁⟩⟩
  · exact ⟨_, _, hrun, Or.inr (h₁.write hop hholds hall hjournal hrange)⟩
  · rw [if_neg hflush] at hrun
    exact ⟨_, _, hrun, Or.inr (h₁.write hop hholds hall hjournal hrange)⟩

/-- Logging the next command. -/
theorem Keeps.perform_appendCommand
    (h : s.Keeps f fresh ds all out) (c : Command) :
    ∃ s' result all', s.perform f
        (.appendCommand (f.encodeCommand (UInt64.ofNat all.length + 1) c)) = (s', result) ∧
      s'.Keeps f fresh ds all' out ∧ all' <+: all ++ [c] ∧
      (result = .ok () → all' = all ++ [c]) := by
  have h₁ := h.interlude
  obtain ⟨logs, hop, hholds⟩ := h₁.logs.appendCommand
    (f.length_encodeCommand_le (UInt64.ofNat all.length + 1) c)
  have hbytes : Journal.logBytes f all ++
      Log.frame (f.encodeCommand (UInt64.ofNat all.length + 1) c) =
      Journal.logBytes f (all ++ [c]) := by
    rw [Journal.logBytes, Journal.logBytes, Journal.payloads_concat, Log.frames_append]
    simp
  rw [hbytes] at hholds
  have hop' : (SymbolLogs.storage f).perform
      (.appendCommand (f.encodeCommand (UInt64.ofNat all.length + 1) c))
      (s.interlude f).logs = (logs, .ok ()) := hop
  obtain ⟨s', result, hrun, ⟨hfail, hkeeps⟩ | hkeeps⟩ :=
    h.perform (fun hflush => (by cases hflush)) hop' hholds (List.prefix_append ..) h.journal
  · exact ⟨s', result, all, hrun, hkeeps, List.prefix_append .., fun hr => absurd hr hfail⟩
  · exact ⟨s', result, all ++ [c], hrun, hkeeps, List.prefix_refl _, fun _ => rfl⟩

/-- Flushing the log secures all commands in it, unless it fails. -/
theorem Keeps.perform_flushCommands
    (h : s.Keeps f fresh ds all out) :
    ∃ s' result ds', s.perform f .flushCommands = (s', result) ∧
      s'.Keeps f fresh ds' all out ∧ ds <+: ds' ∧ (result = .ok () → ds' = all) := by
  have h₁ := h.interlude
  obtain ⟨hholds, hbytes⟩ := h₁.logs.flushCommands
  have hop : (SymbolLogs.storage f).perform .flushCommands (s.interlude f).logs =
      ((s.interlude f).logs.flushCommands, .ok ()) := rfl
  rcases perform_cases hop with ⟨e, hrun⟩ | ⟨hrange, ⟨e, hrun⟩ | hrun⟩
  · exact ⟨_, _, ds, hrun, h₁, List.prefix_refl _, fun hr => (by cases hr)⟩
  · exact ⟨_, _, ds, hrun, h₁.write hop hholds (List.prefix_refl _) h.journal hrange,
      List.prefix_refl _, fun hr => (by cases hr)⟩
  · have hwritten := h₁.write hop hholds (List.prefix_refl _) h.journal hrange
    refine ⟨_, _, all, hrun, hwritten.secure ?_, h.secured, fun _ => rfl⟩
    exact Nat.le_of_eq (by rw [if_pos rfl, ← File.length_bytes, hbytes])

/-- Recording the next event of the journal. -/
theorem Keeps.perform_appendEvent {front : List Event}
    {e : Event} (h : s.Keeps f fresh ds all (Journal.eventBytes f front))
    (hnext : front ++ [e] <+: Journal.events fresh (Actor.number 0 ds)) :
    ∃ s' result front', s.perform f (.appendEvent e) = (s', result) ∧
      s'.Keeps f fresh ds all (Journal.eventBytes f front') ∧
      (result = .ok () → front' = front ++ [e]) := by
  have h₁ := h.interlude
  obtain ⟨logs, hop, hholds⟩ := h₁.logs.appendEvent (f.length_encodeEvent_le e)
  have hbytes : Journal.eventBytes f front ++ Log.frame (f.encodeEvent e) =
      Journal.eventBytes f (front ++ [e]) := by
    rw [Journal.eventBytes_append]
    simp [Journal.eventBytes]
  rw [hbytes] at hholds
  have hjournal : Journal.eventBytes f (front ++ [e]) <+:
      Journal.outboxBytes f fresh ds := by
    obtain ⟨rest, hrest⟩ := hnext
    rw [Journal.outboxBytes, ← hrest, Journal.eventBytes_append _ (front ++ [e])]
    exact List.prefix_append ..
  have hop' : (SymbolLogs.storage f).perform (.appendEvent e) (s.interlude f).logs =
      (logs, .ok ()) := hop
  obtain ⟨s', result, hrun, ⟨hfail, hkeeps⟩ | hkeeps⟩ :=
    h.perform (fun hflush => (by cases hflush)) hop' hholds (List.prefix_refl _) hjournal
  · exact ⟨s', result, front, hrun, hkeeps, fun hr => absurd hr hfail⟩
  · exact ⟨s', result, front ++ [e], hrun, hkeeps, fun _ => rfl⟩

theorem Keeps.perform_flushEvents
    (h : s.Keeps f fresh ds all out) :
    ∃ s' result, s.perform f .flushEvents = (s', result) ∧ s'.Keeps f fresh ds all out := by
  have h₁ := h.interlude
  have hop : (SymbolLogs.storage f).perform .flushEvents (s.interlude f).logs =
      ((s.interlude f).logs.flushEvents, .ok ()) := rfl
  obtain ⟨s', result, hrun, hkeeps⟩ := h.perform (fun hflush => (by cases hflush)) hop
    h₁.logs.flushEvents.1 (List.prefix_refl _) h.journal
  exact ⟨s', result, hrun, hkeeps.elim And.right id⟩

/-! ## A batch -/

/-- Logging commands one after the other. -/
theorem Keeps.carry_logOps (h : s.Keeps f fresh ds all out)
    (cs : List Command) :
    ∃ s' result all', (storage f).carry
        (Actor.logOps f (Actor.number (UInt64.ofNat all.length) cs)) s = (s', result) ∧
      s'.Keeps f fresh ds all' out ∧ all' <+: all ++ cs ∧ (result = .ok () → all' = all ++ cs) := by
  induction cs generalizing s all with
  | nil =>
    exact ⟨s, .ok (), all, rfl, h, List.prefix_append .., fun _ => (List.append_nil all).symm⟩
  | cons c rest ih =>
    obtain ⟨s₁, result₁, all₁, hrun, h₁, hle, hok⟩ := h.perform_appendCommand c
    have hcons : (storage f).carry
        (Actor.logOps f (Actor.number (UInt64.ofNat all.length) (c :: rest))) s =
        Attempt.andThen (s₁, result₁) fun s _ => (storage f).carry
          (Actor.logOps f (Actor.number (UInt64.ofNat all.length + 1) rest)) s := by
      rw [← hrun]
      exact Attempt.forEach_cons ..
    rw [hcons]
    have hsplit : all ++ c :: rest = (all ++ [c]) ++ rest := by simp
    rw [hsplit]
    cases result₁ with
    | error e =>
      exact ⟨s₁, .error e, all₁, rfl, h₁, hle.trans (List.prefix_append ..),
        fun hr => (by cases hr)⟩
    | ok _ =>
      have hall := hok rfl
      subst hall
      have hseq : UInt64.ofNat all.length + 1 = UInt64.ofNat (all ++ [c]).length := by
        rw [List.length_append, UInt64.ofNat_add]
        rfl
      rw [hseq]
      exact ih h₁

/-- Recording events one after the other. -/
theorem Keeps.carry_eventOps {front es : List Event}
    (h : s.Keeps f fresh ds all (Journal.eventBytes f front))
    (hnext : front ++ es <+: Journal.events fresh (Actor.number 0 ds)) :
    ∃ s' result front', (storage f).carry (es.map .appendEvent) s = (s', result) ∧
      s'.Keeps f fresh ds all (Journal.eventBytes f front') ∧
      (result = .ok () → front' = front ++ es) := by
  induction es generalizing s front with
  | nil => exact ⟨s, .ok (), front, rfl, h, fun _ => (List.append_nil front).symm⟩
  | cons e rest ih =>
    have hsplit : front ++ e :: rest = (front ++ [e]) ++ rest := by simp
    rw [hsplit] at hnext
    obtain ⟨s₁, result₁, front₁, hrun, h₁, hok⟩ :=
      h.perform_appendEvent ((List.prefix_append ..).trans hnext)
    have hcons : (storage f).carry ((e :: rest).map .appendEvent) s =
        Attempt.andThen (s₁, result₁) fun s _ =>
          (storage f).carry (rest.map .appendEvent) s := by
      rw [← hrun]
      exact Attempt.forEach_cons ..
    rw [hcons, hsplit]
    cases result₁ with
    | error e' => exact ⟨s₁, .error e', front₁, rfl, h₁, fun hr => (by cases hr)⟩
    | ok _ =>
      have hfront := hok rfl
      subst hfront
      exact ih h₁ hnext

end Site

namespace Actor

/-- An actor that has executed the commands `ds`, all of them secured, and recorded all of their
events. -/
structure Runs (a : Actor Site) (sv : Service) (ds : List Command) : Prop where
  storage : a.storage = Site.storage sv.format
  format : a.format = sv.format
  book : a.book = sv.fresh.executeAll ds
  lastSeq : a.lastSeq = UInt64.ofNat ds.length
  modest : sv.fresh.Modest ds
  site : a.logs.Keeps sv.format sv.fresh ds ds (Journal.outboxBytes sv.format sv.fresh ds)

variable {a a' : Actor Site} {sv : Service} {ds batch : List Command}

/-- The script of a batch keeps what a session keeps. -/
theorem Runs.carry_script (h : a.Runs sv ds) (batch : List Command) :
    ∃ s' result ds' all' out', a.storage.carry (a.script batch) a.logs = (s', result) ∧
      s'.Keeps sv.format sv.fresh ds' all' out' ∧ ds <+: ds' ∧ all' <+: ds ++ batch ∧
      (result = .ok () → a.book.Modest batch → ds' = ds ++ batch ∧ all' = ds ++ batch ∧
        out' = Journal.outboxBytes sv.format sv.fresh (ds ++ batch)) := by
  rw [script, h.storage, h.format, h.lastSeq]
  rw [carry_append, carry_append, carry_append]
  -- The commands are logged,
  obtain ⟨s₁, result₁, all₁, hrun₁, h₁, hle₁, hok₁⟩ := h.site.carry_logOps batch
  rw [hrun₁]
  cases result₁ with
  | error e =>
    exact ⟨s₁, .error e, ds, all₁, _, rfl, h₁, List.prefix_refl _, hle₁, fun hr => (by cases hr)⟩
  | ok _ =>
  have hall := hok₁ rfl
  subst hall
  -- secured,
  obtain ⟨s₂, result₂, ds₂, hrun₂, h₂, hle₂, hok₂⟩ := h₁.perform_flushCommands
  have hflush : (Site.storage sv.format).carry [.flushCommands] s₁ = (s₂, result₂) := by
    rw [carry_singleton]
    exact hrun₂
  simp only [Attempt.andThen]
  rw [hflush]
  cases result₂ with
  | error e =>
    exact ⟨s₂, .error e, ds₂, _, _, rfl, h₂, hle₂, List.prefix_refl _, fun hr => (by cases hr)⟩
  | ok _ =>
  have hds := hok₂ rfl
  subst hds
  -- executed, with their events recorded,
  have hevents : Journal.events sv.fresh (number 0 (ds ++ batch)) =
      Journal.events sv.fresh (number 0 ds) ++
        Journal.events a.book (number (UInt64.ofNat ds.length) batch) := by
    rw [number_append, Journal.events_append h.modest, h.book, UInt64.zero_add]
  obtain ⟨s₃, result₃, front, hrun₃, h₃, hok₃⟩ :=
    h₂.carry_eventOps ⟨[], by rw [List.append_nil, ← hevents]⟩
  dsimp only
  rw [eventOps, hrun₃]
  cases result₃ with
  | error e =>
    exact ⟨s₃, .error e, _, _, _, rfl, h₃, hle₂, List.prefix_refl _, fun hr => (by cases hr)⟩
  | ok _ =>
  have hfront := hok₃ rfl
  rw [← hevents] at hfront
  subst hfront
  -- and the outbox is flushed.
  dsimp only
  split
  · obtain ⟨s₄, result₄, hrun₄, h₄⟩ := h₃.perform_flushEvents
    refine ⟨s₄, result₄, _, _, _, ?_, h₄, hle₂, List.prefix_refl _, fun _ _ => ⟨rfl, rfl, rfl⟩⟩
    rw [carry_singleton]
    exact hrun₄
  · exact ⟨s₃, .ok (), _, _, _, rfl, h₃, hle₂, List.prefix_refl _, fun _ _ => ⟨rfl, rfl, rfl⟩⟩

theorem Runs.withFates (h : a.Runs sv ds) (fates : List Fate) :
    (a.withLogs { a.logs with fates }).Runs sv ds :=
  { h with site := h.site.withFates fates }

/-- A batch that succeeds is secured and recorded. One that fails leaves some of its commands in
the log, and no events of those that are not secured. -/
theorem Runs.commit (h : a.Runs sv ds) {result : Except ActorError Unit}
    (hcommit : a.commit batch = (a', result)) :
    ∃ ds' all' out', a'.logs.Keeps sv.format sv.fresh ds' all' out' ∧ ds <+: ds' ∧
      all' <+: ds ++ batch ∧ (result = .ok () → a'.Runs sv ds') := by
  obtain ⟨s, carried, ds', all', out', hcarry, hkeeps, hds, hall, hok⟩ := h.carry_script batch
  obtain ⟨hlogs, hiff, hafter⟩ := through_commit a batch
  rw [hcommit, hcarry] at hlogs hiff
  rw [hcommit] at hafter
  change a'.logs = s at hlogs
  refine ⟨ds', all', out', hlogs ▸ hkeeps, hds, hall, fun hresult => ?_⟩
  obtain ⟨hcarried, hmodest⟩ := hiff.1 hresult
  obtain ⟨rfl, rfl, rfl⟩ := hok hcarried hmodest
  have ha' : a' = (a.committed batch).withLogs s := by
    rw [← hlogs]
    exact hafter hresult
  subst ha'
  exact
    { storage := h.storage
      format := h.format
      book := by
        show a.book.executeAll batch = _
        rw [h.book, Book.executeAll_append]
      lastSeq := by
        show a.lastSeq + UInt64.ofNat batch.length = _
        rw [h.lastSeq, List.length_append, UInt64.ofNat_add]
      modest := Book.modest_append.2 ⟨h.modest, h.book ▸ hmodest⟩
      site := hkeeps }

end Actor

end Bourse
