import Bourse.Proofs.Engine.Admitting

/-!
# Acknowledged commands are logged

When an engine is shut down, the log of every symbol has its old records and behind them the
commands of which clients were told that they were taken: each once, in the order in which they were
sent, and numbered one after the other (`acknowledged_logged`). Commands that were refused are in no
log, and no event in an outbox is theirs.
-/

namespace Bourse

open Recovery

namespace Engine

variable {e e' : Engine} {symbol : String} {before : SymbolFiles} {given : List Command}

/-! ## What a shutdown does to one symbol -/

theorem filter_toList {α : Type} (m : Std.TreeMap String α) (symbol : String) :
    m.toList.filter (fun entry => entry.1 = symbol) =
      (m[symbol]?.map fun a => (symbol, a)).toList := by
  have halone : ∀ other, other ≠ symbol →
      (m.filter fun other _ => decide (other = symbol))[other]? = none := by
    intro other hne
    simp [hne]
  have hlist := toList_of_alone halone
  rw [Std.TreeMap.toList_filter] at hlist
  rw [hlist]
  cases hm : m[symbol]? with
  | none => simp [hm]
  | some a => simp [hm]

/-- An actor that finishes leaves in both logs what the journal has for the commands that were
taken. -/
theorem finish_takes {r : RunningSymbol} {f : Format} {left : SymbolFiles} {book : Book}
    {last : Seq} (h : r.Takes (e.directory.filesOf symbol) f left book last given)
    (hm : book.Modest given) :
    ∃ files r', e.finish symbol r =
        ({ e with directory := e.directory.setFiles symbol files }, r') ∧
      files.log.bytes =
        left.log.bytes ++ Log.frames (Journal.payloads f (Actor.number last given)) ∧
      files.outbox.bytes = left.outbox.bytes ++
        Journal.eventBytes f (Journal.events book (Actor.number last given)) := by
  obtain ⟨hhalted, done, hqueue, hactor⟩ := h
  have hall : done ++ (r.mailbox.queue ++ ([] : List (List Command)).flatten) = given := by
    rw [List.flatten_nil, List.append_nil]
    exact hqueue
  obtain ⟨a, hrun, hcontinues⟩ := hactor.run (SymbolLogs.storage_backs f) (fun _ => rfl)
    (hall.symm ▸ hm)
  rw [hall] at hcontinues
  obtain ⟨hlog, hout⟩ := SymbolLogs.Holds.close hcontinues.logs (e.directory.filesOf symbol)
  unfold finish
  rw [if_neg (by rw [hhalted]; exact Bool.false_ne_true)]
  dsimp only
  rw [hrun]
  exact ⟨_, _, rfl, hlog, hout⟩

/-- Draining an outbox changes no log. -/
theorem drain_sameLogs (e : Engine) (symbol : String) (r : RunningSymbol) :
    (e.directory.filesOf symbol).SameLogs ((e.drain symbol r).1.directory.filesOf symbol) := by
  unfold drain
  dsimp only
  rw [Directory.filesOf_setFiles, if_pos rfl]
  split
  · exact (Drain.outlet_keeps _).run e.format e.config.maxPayload _ r.progress (.refl _)
  · exact .refl _

/-- What an engine leaves of a symbol for which these commands were taken. Its log had the records
`ps`, and perhaps something behind them. If nothing was taken, the files are those of attempts to
recover the symbol. Otherwise it was recovered; behind the records that it had the log has the
commands, and behind the events that it had then the outbox has theirs. -/
inductive Logged (o : Recovery.Options) (f : Format) (fresh : Option Book)
    (before after : SymbolFiles) (ps : List Bytes) : (taken : List Command) → Prop where
  | nothing {left : SymbolFiles} (tried : Tried o f fresh before left) (same : left.SameLogs after)
      (log : after.log.bytes = before.log.bytes ∨ after.log.bytes = Log.frames ps) :
      Logged o f fresh before after ps []
  | behind {left : SymbolFiles} {book : Book} {r : Recovered} {taken : List Command}
      (taken_ne : taken ≠ []) (recovers : Recovers o f fresh before left book r)
      (numbered : ∀ p ∈ ps, ∃ seq c, f.decodeCommand p = .ok (seq, c) ∧ seq ≤ r.lastSeq)
      (log : after.log.bytes =
        Log.frames (ps ++ Journal.payloads f (Actor.number r.lastSeq taken)))
      (outbox : after.outbox.bytes = left.outbox.bytes ++
        Journal.eventBytes f (Journal.events book (Actor.number r.lastSeq taken))) :
      Logged o f fresh before after ps taken

/-- What a shutdown does to the files of a symbol is decided by its state alone. -/
theorem filesOf_shutdown (hapart : e.Apart symbol) :
    e.shutdown.1.directory.filesOf symbol =
      match e.running[symbol]? with
      | none => e.directory.filesOf symbol
      | some r =>
        let finished := finish { e with running := ∅, closed := true } symbol r
        (finished.1.drain symbol finished.2).1.directory.filesOf symbol := by
  have hkeys : ∀ other ∈ e.running.toList.map (·.1), other = symbol ∨
      ∀ watched, watched = symbol → fileStem watched ≠ fileStem other := by
    intro other hmem
    obtain ⟨entry, hentry, rfl⟩ := List.mem_map.1 hmem
    have hrunning := Std.TreeMap.mem_toList_iff_getElem?_eq_some.1 hentry
    by_cases hstem : fileStem entry.1 = fileStem symbol
    · exact Or.inl (hapart entry.1 (by rw [hrunning]; rfl) hstem)
    · refine Or.inr ?_
      rintro _ rfl heq
      exact hstem heq.symm
  have hkeys' := hkeys
  rw [← each_keys finish { e with running := ∅, closed := true }] at hkeys'
  obtain ⟨hfinished, hmiddle⟩ := each_watched (W := fun other => other = symbol) local_finish
    (fun other _ => .refl { e with running := ∅, closed := true } other) hkeys
  obtain ⟨hdrained, -⟩ := each_watched (W := fun other => other = symbol) local_drain
    hfinished hkeys'
  rw [shutdown_eq]
  dsimp only
  rw [(hdrained symbol rfl).files, hmiddle, filter_toList]
  cases e.running[symbol]? with
  | none => rfl
  | some r => rfl

/-- What a shutdown leaves of the commands that were taken. -/
theorem Takes.shutdown (h : e.Takes symbol before given) (hapart : e.Apart symbol)
    (hm : e.Allows symbol before given) {ps : List Bytes} {rest : Bytes}
    (hparsed : Log.Parsed e.config.options.limit before.log.bytes ps rest) :
    Logged e.config.options e.format (e.fresh symbol) before
      (e.shutdown.1.directory.filesOf symbol) ps given := by
  rw [filesOf_shutdown hapart]
  cases h with
  | unused running tried =>
    rw [running]
    exact .nothing tried (.refl _) (tried.log hparsed).1
  | used running recovers takes given_ne =>
    rw [running]
    dsimp only
    obtain ⟨files, r', hfinish, hlog, hout⟩ :=
      finish_takes (e := { e with running := ∅, closed := true }) takes (hm _ _ _ recovers)
    rw [hfinish]
    have hsame := drain_sameLogs
      { e with
        running := ∅, closed := true, directory := e.directory.setFiles symbol files } symbol r'
    rw [Directory.filesOf_setFiles, if_pos rfl] at hsame
    have hreopened := recovers.reopened hparsed
    refine .behind given_ne recovers hreopened.numbered ?_ ?_
    · rw [hsame.log, hlog, hreopened.log, Log.frames_append]
    · rw [hsame.outbox, hout]

/-! ## After a shutdown -/

/-- What every step keeps is kept. -/
theorem each_keeps {α β : Type} {op : Engine → String → α → Engine × β} {P : Engine → Prop}
    (hop : ∀ e symbol a, P e → P (op e symbol a).1) (h : P e) (l : List (String × α)) :
    P (each op e l).1 := by
  induction l generalizing e with
  | nil => exact h
  | cons entry rest ih => exact ih (hop e entry.1 entry.2 h)

/-- An engine that was shut down has no symbol in use. -/
structure IsShut (e : Engine) : Prop where
  closed : e.closed = true
  running : e.running = ∅

theorem isShut_shutdown (e : Engine) : e.shutdown.1.IsShut := by
  rw [shutdown_eq]
  refine each_keeps (fun e symbol r h => ⟨h.closed, h.running⟩) (each_keeps ?_ ⟨rfl, rfl⟩ _) _
  intro e symbol r h
  unfold finish
  split
  · exact h
  · exact ⟨h.closed, h.running⟩

/-- Nothing can be done any more. -/
theorem IsShut.act (h : e.IsShut) (a : Act) :
    (e.act a).1 = e ∧ a.deed.taken (e.act a).2.answer = [] := by
  have henqueue (c : Command) : ∃ cause, e.enqueue a.symbol c = (e, .error cause) := by
    unfold enqueue
    split
    · exact ⟨_, rfl⟩
    · rw [if_pos h.closed]
      exact ⟨_, rfl⟩
  have hnone : e.running[a.symbol]? = none := by
    rw [h.running]
    exact Std.TreeMap.getElem?_emptyc
  unfold Engine.act
  cases hdeed : a.deed with
  | submit c =>
    simp only [Engine.submit]
    split
    · obtain ⟨cause, hrefused⟩ := henqueue c
      rw [hrefused]
      exact ⟨rfl, rfl⟩
    · exact ⟨rfl, rfl⟩
  | cancel c =>
    simp only [Engine.cancel]
    split
    · obtain ⟨cause, hrefused⟩ := henqueue c
      rw [hrefused]
      exact ⟨rfl, rfl⟩
    · exact ⟨rfl, rfl⟩
  | work most =>
    simp only [wake, hnone]
    exact ⟨trivial, rfl⟩
  | publish seen =>
    simp only [Engine.publish, hnone]
    exact ⟨trivial, rfl⟩

theorem IsShut.acts (h : e.IsShut) (symbol : String) (acts : List Act) :
    (e.acts acts).1 = e ∧ acknowledged symbol acts (e.acts acts).2 = [] := by
  induction acts with
  | nil => exact ⟨rfl, rfl⟩
  | cons a rest ih =>
    obtain ⟨hsame, hnothing⟩ := h.act a
    rw [acknowledged_cons, acts_cons, hsame, hnothing, ite_self]
    exact ih

/-! ## A whole session -/

/-- **Acknowledged commands are logged once, and refused ones leave no trace.** An engine with any
configuration is opened on any files, anything happens to any symbols in any order, and then the
engine is shut down. No other symbol uses the files of `symbol`, and none of the commands that were
taken for it has too many events. Then its log has exactly these commands behind its old records,
each once, in the order in which they were sent and with consecutive numbers; and its outbox has
exactly their events behind those that it had when the symbol was recovered. What is sent later is
refused and changes nothing. -/
theorem acknowledged_logged (f : Format) (books : String → Option Book) (directory : Directory)
    (s : Session) (symbol : String)
    (hfiles : ∀ a ∈ s.acts, fileStem a.symbol = fileStem symbol → a.symbol = symbol) :
    let opened := s.opening f books directory
    let acted := opened.acts s.acts
    let taken := acknowledged symbol s.acts acted.2
    let closed := acted.1.shutdown.1
    let before := directory.filesOf symbol
    opened.Allows symbol before taken →
      (∃ ps rest, Log.Parsed s.config.options.limit before.log.bytes ps rest ∧
        Logged s.config.options f (books symbol) before (closed.directory.filesOf symbol) ps
          taken) ∧
      ∀ late : List Act, (closed.acts late).1 = closed ∧
        acknowledged symbol late (closed.acts late).2 = [] := by
  intro opened acted taken closed before hm
  have hopened : opened.Takes symbol before [] := .unused rfl .untouched
  have hapart : opened.Apart symbol := fun other hother => by cases hother
  obtain ⟨htakes, hapart', hakin⟩ := hopened.acts hapart hfiles hm
  obtain ⟨ps, rest, hparsed⟩ :=
    Log.exists_parsed (opened.acts s.acts).1.config.options.limit before.log.bytes
  have hlogged := htakes.shutdown hapart' (hm.akin hakin) hparsed
  rw [hakin.config, hakin.format, hakin.fresh] at hlogged
  rw [hakin.config] at hparsed
  exact ⟨⟨ps, rest, hparsed, hlogged⟩, (isShut_shutdown acted.1).acts symbol⟩

/-- Commands that cancel orders have one event each, whatever the book is. -/
theorem modest_of_isCancel {cs : List Command} (h : ∀ c ∈ cs, c.isCancel) (b : Book) :
    b.Modest cs := by
  induction cs generalizing b with
  | nil => trivial
  | cons c rest ih =>
    refine ⟨?_, ih (fun d hd => h d (List.mem_cons_of_mem c hd)) _⟩
    have hc := h c List.mem_cons_self
    have hone : (b.execute c).2.length = 1 := by
      unfold Book.execute
      split
      · rfl
      · split
        · next haction =>
          rw [Command.isCancel, Command.isSubmit, haction] at hc
          cases hc
        · unfold Book.withdraw
          split
          · rfl
          · rfl
    rw [hone]
    decide

/-- A session in which the second command for a symbol finds the mailbox full, until the actor has
worked. Another symbol is used as well, and clients make mistakes. -/
def Session.crowded : Session where
  config := { mailboxSize := 1 }
  acts := [⟨"ACME", .cancel { action := .cancel 0 }⟩, ⟨"ACME", .cancel { action := .cancel 1 }⟩,
    ⟨"B/M", .cancel miss⟩, ⟨"ACME", .submit miss⟩, ⟨"", .cancel miss⟩, ⟨"ACME", .work 1⟩,
    ⟨"ACME", .cancel { action := .cancel 2 }⟩]

/-- The first command for the symbol and the last one. -/
def Session.crowdedTaken : List Command :=
  [{ action := .cancel 0 }, { action := .cancel 2 }]

/-- The other one is refused, and the log of the symbol does not have it in the end. -/
theorem acknowledged_logged_crowded :
    (∀ a ∈ Session.crowded.acts, fileStem a.symbol = fileStem "ACME" → a.symbol = "ACME") ∧
      (Session.crowded.opening .binary (fun _ => some {}) ∅).Allows "ACME"
        ((∅ : Directory).filesOf "ACME") Session.crowdedTaken ∧
      (Session.crowded.run .binary (fun _ => some {}) ∅).2.replies.map (·.2.answer) =
        [.ok (), .error .busy, .ok (), .error .badCommand, .error .unknownSymbol, .ok (), .ok ()] ∧
      ∃ ps rest, Log.Parsed Session.crowded.config.options.limit
          ((∅ : Directory).filesOf "ACME").log.bytes ps rest ∧
        Logged Session.crowded.config.options .binary (some {}) ((∅ : Directory).filesOf "ACME")
          ((Session.crowded.run .binary (fun _ => some {}) ∅).1.filesOf "ACME") ps
          Session.crowdedTaken := by
  have hfiles : ∀ a ∈ Session.crowded.acts, fileStem a.symbol = fileStem "ACME" →
      a.symbol = "ACME" := by
    decide
  have htaken : acknowledged "ACME" Session.crowded.acts
      ((Session.crowded.opening .binary (fun _ => some {}) ∅).acts Session.crowded.acts).2 =
        Session.crowdedTaken := by
    decide +kernel
  have hm : (Session.crowded.opening .binary (fun _ => some {}) ∅).Allows "ACME"
      ((∅ : Directory).filesOf "ACME") Session.crowdedTaken :=
    fun _ book _ _ => modest_of_isCancel (by decide) book
  have hlogged := acknowledged_logged .binary (fun _ => some {}) ∅ .crowded "ACME" hfiles
  dsimp only at hlogged
  rw [htaken] at hlogged
  exact ⟨hfiles, hm, by decide +kernel, (hlogged hm).1⟩

end Engine

end Bourse
