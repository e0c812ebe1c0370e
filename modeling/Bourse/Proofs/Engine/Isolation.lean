import Bourse.Proofs.Engine.Transparency

/-!
# Symbols do not interfere

Whatever an engine does to a symbol, it looks only at the state and the files of that symbol, and it
changes nothing else (`Engine.Local`). Files belong to stems, though, and symbols with one stem share
them. So what happens to a symbol makes no difference to those with another stem, through any number
of sessions: `symbols_isolated`. To those with the same stem it does: `shared_after_restart`.
-/

namespace Bourse

open Recovery

namespace Engine

variable {e e' e'' : Engine} {symbol other stem : String}

/-! ## What is seen of a symbol, and what is changed -/

/-- Nothing that matters to a symbol tells two engines apart. -/
structure Alike (e e' : Engine) (symbol : String) : Prop where
  config : e.config = e'.config
  format : e.format = e'.format
  fresh : e.fresh symbol = e'.fresh symbol
  closed : e.closed = e'.closed
  running : e.running[symbol]? = e'.running[symbol]?
  files : e.directory.filesOf symbol = e'.directory.filesOf symbol

theorem Alike.refl (e : Engine) (symbol : String) : e.Alike e symbol :=
  ⟨rfl, rfl, rfl, rfl, rfl, rfl⟩

theorem Alike.symm (h : e.Alike e' symbol) : e'.Alike e symbol :=
  ⟨h.config.symm, h.format.symm, h.fresh.symm, h.closed.symm, h.running.symm, h.files.symm⟩

theorem Alike.trans (h : e.Alike e' symbol) (h' : e'.Alike e'' symbol) : e.Alike e'' symbol :=
  ⟨h.config.trans h'.config, h.format.trans h'.format, h.fresh.trans h'.fresh,
    h.closed.trans h'.closed, h.running.trans h'.running, h.files.trans h'.files⟩

/-- New files or a new state of a symbol. -/
structure Change where
  files : Option SymbolFiles := none
  running : Option RunningSymbol := none

/-- Changes a symbol. -/
def change (e : Engine) (symbol : String) (d : Change) : Engine :=
  { e with
    directory := d.files.elim e.directory (e.directory.setFiles symbol)
    running := d.running.elim e.running (e.running.insert symbol) }

theorem running_change (e : Engine) (symbol other : String) (d : Change) :
    (e.change symbol d).running[other]? =
      if other = symbol then d.running.or e.running[symbol]? else e.running[other]? := by
  unfold change
  cases hd : d.running with
  | none =>
    split
    · next h => rw [h]; rfl
    · rfl
  | some r =>
    show (e.running.insert symbol r)[other]? = _
    rw [Std.TreeMap.getElem?_insert]
    split
    · next h => rw [if_pos (Std.LawfulEqCmp.eq_of_compare h).symm]; rfl
    · next h =>
      rw [if_neg]
      rintro rfl
      exact h Std.ReflCmp.compare_self

theorem filesOf_change (e : Engine) (symbol other : String) (d : Change) :
    (e.change symbol d).directory.filesOf other =
      if fileStem other = fileStem symbol then d.files.getD (e.directory.filesOf other)
      else e.directory.filesOf other := by
  unfold change
  cases hd : d.files with
  | none => exact (ite_self _).symm
  | some files => exact Directory.filesOf_setFiles ..

/-- A change of one symbol matters to those with its stem only. -/
theorem Alike.change_other (h : e.Alike e' other) (hstem : fileStem other ≠ fileStem symbol)
    (d : Change) : (e.change symbol d).Alike e' other := by
  have hne : other ≠ symbol := fun heq => hstem (congrArg fileStem heq)
  refine ⟨h.config, h.format, h.fresh, h.closed, ?_, ?_⟩
  · rw [running_change, if_neg hne, h.running]
  · rw [filesOf_change, if_neg hstem, h.files]

/-- The same change of both leaves engines alike. -/
theorem Alike.change (h : e.Alike e' other) (hsymbol : e.Alike e' symbol) (d : Change) :
    (e.change symbol d).Alike (e'.change symbol d) other := by
  refine ⟨h.config, h.format, h.fresh, h.closed, ?_, ?_⟩
  · rw [running_change, running_change, h.running, hsymbol.running]
  · rw [filesOf_change, filesOf_change, h.files]

/-- One change of a symbol after the other. -/
def changes (e : Engine) (symbol : String) (ds : List Change) : Engine :=
  ds.foldl (·.change symbol) e

theorem changes_append (e : Engine) (symbol : String) (ds more : List Change) :
    e.changes symbol (ds ++ more) = (e.changes symbol ds).changes symbol more :=
  List.foldl_append ..

theorem Alike.changes_other (h : e.Alike e' other) (hstem : fileStem other ≠ fileStem symbol)
    (ds : List Change) : (e.changes symbol ds).Alike e' other := by
  induction ds generalizing e with
  | nil => exact h
  | cons d ds ih => exact ih (h.change_other hstem d)

theorem Alike.changes (h : e.Alike e' other) (hsymbol : e.Alike e' symbol) (ds : List Change) :
    (e.changes symbol ds).Alike (e'.changes symbol ds) other := by
  induction ds generalizing e e' with
  | nil => exact h
  | cons d ds ih => exact ih (h.change hsymbol d) (hsymbol.change hsymbol d)

/-- What is done to a symbol depends on nothing but what is seen of it, and changes nothing else. -/
def Local {α : Type} (symbol : String) (op : Engine → Engine × α) : Prop :=
  ∀ e e' : Engine, e.Alike e' symbol →
    ∃ ds a, op e = (e.changes symbol ds, a) ∧ op e' = (e'.changes symbol ds, a)

/-! ## Everything is local -/

/-- Engines that are alike differ only in what is not seen. -/
theorem Alike.exists_eq (h : e.Alike e' symbol) :
    ∃ fresh directory running, e' = { e with fresh, directory, running } ∧
      fresh symbol = e.fresh symbol ∧ running[symbol]? = e.running[symbol]? ∧
      directory.filesOf symbol = e.directory.filesOf symbol := by
  obtain ⟨hconfig, hformat, hfresh, hclosed, hrunning, hfiles⟩ := h
  refine ⟨e'.fresh, e'.directory, e'.running, ?_, hfresh.symm, hrunning.symm, hfiles.symm⟩
  rw [hconfig, hformat, hclosed]

/-- One thing after another. -/
theorem Local.andThen {ε α β : Type} {op : Engine → Attempt Engine ε α}
    {next : Engine → α → Attempt Engine ε β} (h : Local symbol op)
    (hnext : ∀ a, Local symbol fun e => next e a) : Local symbol fun e => (op e).andThen next := by
  intro e e' halike
  obtain ⟨ds, result, hop, hop'⟩ := h e e' halike
  dsimp only
  rw [hop, hop']
  cases result with
  | error cause => exact ⟨ds, .error cause, rfl, rfl⟩
  | ok a =>
    obtain ⟨more, b, hmore, hmore'⟩ := hnext a _ _ (halike.changes halike ds)
    refine ⟨ds ++ more, b, ?_, ?_⟩
    · rw [changes_append]
      exact hmore
    · rw [changes_append]
      exact hmore'

/-- Only the result is told in another way. -/
theorem Local.map {α β : Type} {op : Engine → Engine × α} (h : Local symbol op) (g : α → β) :
    Local symbol fun e => ((op e).1, g (op e).2) := by
  intro e e' halike
  obtain ⟨ds, a, hop, hop'⟩ := h e e' halike
  refine ⟨ds, g a, ?_, ?_⟩
  · dsimp only
    rw [hop]
  · dsimp only
    rw [hop']

theorem local_nothing {α : Type} (symbol : String) (a : α) : Local symbol fun e => (e, a) :=
  fun _ _ _ => ⟨[], a, rfl, rfl⟩

theorem local_start (symbol : String) : Local symbol (start · symbol) := by
  intro e e' h
  obtain ⟨fresh, directory, running, rfl, hfresh, -, hfiles⟩ := h.exists_eq
  unfold start
  dsimp only
  rw [hfresh, hfiles]
  cases e.fresh symbol with
  | none => exact ⟨[], _, rfl, rfl⟩
  | some book =>
    dsimp only
    split
    · exact ⟨[{ files := some _ }], _, rfl, rfl⟩
    · split
      · exact ⟨[{ files := some _ }], _, rfl, rfl⟩
      · exact ⟨[{ files := some _ }], _, rfl, rfl⟩

theorem local_post (symbol : String) (r : RunningSymbol) (c : Command) :
    Local symbol (post · symbol r c) := by
  intro e e' _
  unfold post
  dsimp only
  split
  · exact ⟨[], _, rfl, rfl⟩
  · split
    · exact ⟨[{ running := some _ }], _, rfl, rfl⟩
    · exact ⟨[{ running := some _ }], _, rfl, rfl⟩

theorem local_enqueue (symbol : String) (c : Command) : Local symbol (enqueue · symbol c) := by
  intro e e' h
  unfold enqueue
  dsimp only
  rw [← h.closed, ← h.running]
  split
  · exact local_nothing symbol _ e e' h
  · split
    · exact local_nothing symbol _ e e' h
    · cases e.running[symbol]? with
      | some r => exact local_post symbol r c e e' h
      | none => exact (local_start symbol).andThen (fun r => local_post symbol r c) e e' h

theorem local_wake (symbol : String) (most : Nat) :
    Local symbol fun e => (e.wake symbol most, ()) := by
  intro e e' h
  obtain ⟨fresh, directory, running, rfl, -, hrunning, hfiles⟩ := h.exists_eq
  unfold wake
  dsimp only
  rw [hrunning, hfiles]
  cases e.running[symbol]? with
  | none => exact ⟨[], _, rfl, rfl⟩
  | some r =>
    dsimp only
    split
    · exact ⟨[], _, rfl, rfl⟩
    · split
      · exact ⟨[{ files := some _, running := some _ }], _, rfl, rfl⟩
      · exact ⟨[{ files := some _, running := some _ }], _, rfl, rfl⟩

theorem local_publish (symbol : String) (seen : Nat) : Local symbol (publish · symbol seen) := by
  intro e e' h
  obtain ⟨fresh, directory, running, rfl, -, hrunning, hfiles⟩ := h.exists_eq
  unfold publish
  dsimp only
  rw [hrunning, hfiles]
  cases e.running[symbol]? with
  | none => exact ⟨[], _, rfl, rfl⟩
  | some r =>
    dsimp only
    split
    · exact ⟨[{ files := some _, running := some _ }], _, rfl, rfl⟩
    · exact ⟨[], _, rfl, rfl⟩

theorem local_submit (symbol : String) (c : Command) : Local symbol (submit · symbol c) := by
  unfold submit
  split
  · exact local_enqueue symbol c
  · exact local_nothing symbol _

theorem local_cancel (symbol : String) (c : Command) : Local symbol (cancel · symbol c) := by
  unfold cancel
  split
  · exact local_enqueue symbol c
  · exact local_nothing symbol _

theorem local_act (symbol : String) (deed : Deed) : Local symbol (act · ⟨symbol, deed⟩) := by
  cases deed with
  | submit c => exact (local_submit symbol c).map fun answer => ({ answer } : Reply)
  | cancel c => exact (local_cancel symbol c).map fun answer => ({ answer } : Reply)
  | work most => exact (local_wake symbol most).map fun _ => ({} : Reply)
  | publish seen =>
    intro e e' h
    obtain ⟨ds, published, hop, hop'⟩ := local_publish symbol seen e e' h
    dsimp only at hop hop'
    refine ⟨ds, { published }, ?_, ?_⟩
    · simp only [act, hop]
    · simp only [act, hop']

theorem local_finish (symbol : String) (r : RunningSymbol) : Local symbol (finish · symbol r) := by
  intro e e' h
  unfold finish
  dsimp only
  rw [h.files]
  split
  · exact ⟨[], _, rfl, rfl⟩
  · exact ⟨[{ files := some _ }], _, rfl, rfl⟩

theorem local_drain (symbol : String) (r : RunningSymbol) : Local symbol (drain · symbol r) := by
  intro e e' h
  obtain ⟨fresh, directory, running, rfl, -, hrunning, hfiles⟩ := h.exists_eq
  unfold drain
  dsimp only
  rw [hfiles]
  exact ⟨[{ files := some _ }], _, rfl, rfl⟩

/-! ## Symbols that are watched -/

section Each

variable {α β : Type} {op : Engine → String → α → Engine × β}

theorem each_keys (op : Engine → String → α → Engine × β) (e : Engine) (l : List (String × α)) :
    (each op e l).2.map (·.1) = l.map (·.1) := by
  induction l generalizing e with
  | nil => rfl
  | cons entry rest ih =>
    obtain ⟨symbol, a⟩ := entry
    rw [each_cons, List.map_cons, List.map_cons, ih]

/-- What is done to symbols that nobody watches makes no difference to those that are watched, if
these have files of their own. -/
theorem each_watched {W : String → Prop} [DecidablePred W]
    (hop : ∀ symbol a, Local symbol fun e => op e symbol a)
    (h : ∀ other, W other → e.Alike e' other) {l : List (String × α)}
    (hl : ∀ symbol ∈ l.map (·.1), W symbol ∨
      ∀ other, W other → fileStem other ≠ fileStem symbol) :
    (∀ other, W other →
        (each op e l).1.Alike (each op e' (l.filter fun entry => W entry.1)).1 other) ∧
      (each op e l).2.filter (fun entry => W entry.1) =
        (each op e' (l.filter fun entry => W entry.1)).2 := by
  induction l generalizing e e' with
  | nil => exact ⟨h, rfl⟩
  | cons entry rest ih =>
    obtain ⟨symbol, a⟩ := entry
    rw [List.map_cons] at hl
    have hrest := fun other hmem => hl other (List.mem_cons_of_mem symbol hmem)
    by_cases hsymbol : W symbol
    -- Both engines do the same to a symbol that is watched,
    · obtain ⟨ds, b, hdone, hdone'⟩ := hop symbol a e e' (h symbol hsymbol)
      dsimp only at hdone hdone'
      rw [List.filter_cons_of_pos (by simpa using hsymbol), each_cons, each_cons, hdone, hdone']
      obtain ⟨halike, hresults⟩ :=
        ih (fun other hother => (h other hother).changes (h symbol hsymbol) ds) hrest
      refine ⟨halike, ?_⟩
      rw [List.filter_cons_of_pos (by simpa using hsymbol), hresults]
    -- and only the first does something to another, which has other files.
    · have hstem := (hl symbol List.mem_cons_self).resolve_left hsymbol
      obtain ⟨ds, b, hdone, -⟩ := hop symbol a e e (.refl e symbol)
      dsimp only at hdone
      rw [List.filter_cons_of_neg (by simpa using hsymbol), each_cons, hdone]
      obtain ⟨halike, hresults⟩ :=
        ih (fun other hother => (h other hother).changes_other (hstem other hother) ds) hrest
      refine ⟨halike, ?_⟩
      rw [List.filter_cons_of_neg (by simpa using hsymbol), hresults]

end Each

/-! ## Symbols with another stem -/

/-- Nothing that matters to symbols with another stem tells two engines apart. -/
def AlikeBut (e e' : Engine) (stem : String) : Prop :=
  ∀ other, fileStem other ≠ stem → e.Alike e' other

/-- Entries of symbols with another stem. -/
def elsewhere {α : Type} (stem : String) (l : List (String × α)) : List (String × α) :=
  l.filter fun entry => fileStem entry.1 ≠ stem

section Each

variable {α β : Type} {op : Engine → String → α → Engine × β}

/-- What is done to symbols with one stem makes no difference to the others. -/
theorem each_elsewhere (hop : ∀ symbol a, Local symbol fun e => op e symbol a)
    (h : e.AlikeBut e' stem) (l : List (String × α)) :
    (each op e l).1.AlikeBut (each op e' (elsewhere stem l)).1 stem ∧
      elsewhere stem (each op e l).2 = (each op e' (elsewhere stem l)).2 := by
  refine each_watched (W := fun other => fileStem other ≠ stem) hop h fun symbol _ => ?_
  by_cases hsymbol : fileStem symbol = stem
  · exact Or.inr fun other hother => hsymbol ▸ hother
  · exact Or.inl hsymbol

theorem AlikeBut.after_each (hop : ∀ symbol a, Local symbol fun e => op e symbol a)
    (h : e.AlikeBut e' stem) {l l' : List (String × α)}
    (hl : elsewhere stem l = elsewhere stem l') :
    (each op e l).1.AlikeBut (each op e' l').1 stem ∧
      elsewhere stem (each op e l).2 = elsewhere stem (each op e' l').2 := by
  obtain ⟨hleft, hresults⟩ := each_elsewhere hop h l
  obtain ⟨hright, hresults'⟩ := each_elsewhere hop (fun other _ => Alike.refl e' other) l'
  rw [hl] at hleft hresults
  exact ⟨fun other hne => (hleft other hne).trans (hright other hne).symm,
    hresults.trans hresults'.symm⟩

end Each

/-! ## A whole session -/

theorem acts_eq_each (e : Engine) (l : List Act) :
    e.acts l = each (fun e symbol deed => e.act ⟨symbol, deed⟩) e
      (l.map fun a => (a.symbol, a.deed)) := by
  induction l generalizing e with
  | nil => rfl
  | cons a rest ih =>
    rw [acts_cons, List.map_cons, each_cons, ← ih]

theorem elsewhere_toList {α : Type} {m m' : Std.TreeMap String α}
    (h : ∀ other, fileStem other ≠ stem → m[other]? = m'[other]?) :
    elsewhere stem m.toList = elsewhere stem m'.toList := by
  have hequiv : (m.filter fun other _ => decide (fileStem other ≠ stem)).Equiv
      (m'.filter fun other _ => decide (fileStem other ≠ stem)) := by
    refine Std.TreeMap.Equiv.of_forall_constGet?_eq fun other => ?_
    simp only [Std.TreeMap.getElem?_filter']
    by_cases hother : fileStem other ≠ stem
    · rw [h other hother]
    · simp [hother]
  have hlist := hequiv.toList_eq
  rwa [Std.TreeMap.toList_filter, Std.TreeMap.toList_filter] at hlist

/-- Outboxes are drained under the names of their symbols. -/
theorem symbol_of_mem_drain (e : Engine) (l : List (String × RunningSymbol)) :
    ∀ entry ∈ (each drain e l).2, entry.2.symbol = entry.1 := by
  induction l generalizing e with
  | nil =>
    intro entry hmem
    cases hmem
  | cons first rest ih =>
    intro entry hmem
    rw [each] at hmem
    rcases List.mem_cons.1 hmem with rfl | hmem
    · rfl
    · exact ih _ entry hmem

theorem AlikeBut.shutdown (h : e.AlikeBut e' stem) :
    e.shutdown.1.AlikeBut e'.shutdown.1 stem ∧
      e.shutdown.2.filter (fun c => fileStem c.symbol ≠ stem) =
        e'.shutdown.2.filter (fun c => fileStem c.symbol ≠ stem) := by
  have hclosed : ({ e with running := ∅, closed := true } : Engine).AlikeBut
      { e' with running := ∅, closed := true } stem :=
    fun other hne => ⟨(h other hne).config, (h other hne).format, (h other hne).fresh, rfl, rfl,
      (h other hne).files⟩
  obtain ⟨hfinished, hmiddle⟩ := hclosed.after_each local_finish
    (elsewhere_toList fun other hne => (h other hne).running)
  obtain ⟨hdrained, hclosings⟩ := hfinished.after_each local_drain hmiddle
  have hfilter (e : Engine) (l : List (String × RunningSymbol)) :
      ((each drain e l).2.map (·.2)).filter (fun c => fileStem c.symbol ≠ stem) =
        (elsewhere stem (each drain e l).2).map (·.2) := by
    rw [List.filter_map, elsewhere]
    refine congrArg _ (List.filter_congr fun entry hmem => ?_)
    rw [Function.comp_apply, symbol_of_mem_drain e l entry hmem]
  rw [shutdown_eq, shutdown_eq]
  refine ⟨hdrained, ?_⟩
  dsimp only
  rw [hfilter, hfilter, hclosings]

section Sessions

variable {f : Format} {fresh : String → Option Book} {directory directory' : Directory}

/-- A session in which nothing happens to a symbol makes no difference to symbols with another
stem. -/
theorem Session.run_without (s : Session) (symbol : String)
    (h : ∀ other, fileStem other ≠ fileStem symbol →
      directory.filesOf other = directory'.filesOf other) :
    ∀ other, fileStem other ≠ fileStem symbol →
      (s.run f fresh directory).1.filesOf other =
          ((s.without symbol).run f fresh directory').1.filesOf other ∧
        (s.run f fresh directory).2.about other =
          ((s.without symbol).run f fresh directory').2.about other := by
  have hopening : (s.opening f fresh directory).AlikeBut
      ((s.without symbol).opening f fresh directory') (fileStem symbol) :=
    fun other hne => ⟨rfl, rfl, rfl, rfl, rfl, h other hne⟩
  have hacts : elsewhere (fileStem symbol) (s.acts.map fun a => (a.symbol, a.deed)) =
      elsewhere (fileStem symbol) ((s.without symbol).acts.map fun a => (a.symbol, a.deed)) := by
    rw [elsewhere, elsewhere, List.filter_map, List.filter_map, without, List.filter_filter]
    refine congrArg _ (List.filter_congr fun a _ => ?_)
    by_cases hsymbol : a.symbol = symbol <;> simp [hsymbol]
  obtain ⟨hacted, hreplies⟩ := hopening.after_each local_act hacts
  rw [← acts_eq_each, ← acts_eq_each] at hacted hreplies
  obtain ⟨hclosed, hclosings⟩ := hacted.shutdown
  intro other hother
  refine ⟨(hclosed other hother).files, ?_⟩
  -- What a report says about the symbol is among what it says about symbols with another stem.
  have hreplies' := congrArg (List.filter fun reply => decide (reply.1 = other)) hreplies
  have hclosings' := congrArg (List.filter fun c => decide (c.symbol = other)) hclosings
  rw [elsewhere, elsewhere, List.filter_filter, List.filter_filter] at hreplies'
  rw [List.filter_filter, List.filter_filter] at hclosings'
  have himp (name : String) : (decide (name = other) && decide (fileStem name ≠ fileStem symbol)) =
      decide (name = other) := by
    by_cases hname : name = other <;> simp [hname, hother]
  simp only [himp] at hreplies' hclosings'
  exact congrArg₂ Report.mk hreplies' hclosings'

theorem sessions_without (ss : List Session) (symbol : String)
    (h : ∀ other, fileStem other ≠ fileStem symbol →
      directory.filesOf other = directory'.filesOf other) :
    ∀ other, fileStem other ≠ fileStem symbol →
      (sessions f fresh directory ss).1.filesOf other =
          (sessions f fresh directory' (ss.map (·.without symbol))).1.filesOf other ∧
        (sessions f fresh directory ss).2.map (·.about other) =
          (sessions f fresh directory' (ss.map (·.without symbol))).2.map (·.about other) := by
  induction ss generalizing directory directory' with
  | nil => exact fun other hne => ⟨h other hne, rfl⟩
  | cons s rest ih =>
    have hrun := @Session.run_without f fresh directory directory' s symbol h
    intro other hne
    obtain ⟨hfiles, hreports⟩ := ih (fun other hne => (hrun other hne).1) other hne
    rw [List.map_cons, sessions_cons, sessions_cons]
    refine ⟨hfiles, ?_⟩
    rw [List.map_cons, List.map_cons, (hrun other hne).2, hreports]

end Sessions

/-- **Symbols with different stems do not interfere.** In any sessions, with anything happening to any
symbols in any order, one symbol's clients are answered as if nothing had happened to the other: they
are refused the same commands, the same events are published, and each shutdown tells the same of the
symbol. It has the same files in the end, from which every recovery goes the same way. -/
theorem symbols_isolated {s t : String} (hst : fileStem s ≠ fileStem t) (f : Format)
    (fresh : String → Option Book) (directory : Directory) (ss : List Session) :
    let whole := sessions f fresh directory ss
    let rest := sessions f fresh directory (ss.map (·.without t))
    whole.2.map (·.about s) = rest.2.map (·.about s) ∧
      whole.2.flatMap (·.published s) = rest.2.flatMap (·.published s) ∧
      whole.1.filesOf s = rest.1.filesOf s ∧
      ∀ (o : Recovery.Options) (book : Book),
        Recovery.recover o f (whole.1.filesOf s) book =
          Recovery.recover o f (rest.1.filesOf s) book := by
  intro whole rest
  obtain ⟨hfiles, hreports⟩ := @sessions_without f fresh directory directory ss t
    (fun _ _ => rfl) s hst
  refine ⟨hreports, ?_, hfiles, fun o book => by rw [hfiles]⟩
  have hpublished (reports : List Report) : reports.flatMap (·.published s) =
      (reports.map (·.about s)).flatMap
        fun r => r.replies.flatMap (·.2.published) ++ r.closings.flatMap (·.published) := by
    rw [List.flatMap_map]
    rfl
  rw [hpublished, hpublished, hreports]

/-- An offer and the order that takes it, each in a session in which another symbol is used as
well. -/
theorem symbols_isolated_trade :
    fileStem "ACME" ≠ fileStem "B/M" ∧
      (sessions .binary (fun _ => some {}) ∅
        [{ acts := (Session.cancelling "B/M" 2).acts ++ Session.offering.acts },
          { acts := Session.taking.acts ++ (Session.cancelling "B/M" 1).acts }]).2.map
            (·.about "ACME") =
        (sessions .binary (fun _ => some {}) ∅ [.offering, .taking]).2.map (·.about "ACME") := by
  have hst : fileStem "ACME" ≠ fileStem "B/M" := by decide
  exact ⟨hst, (symbols_isolated hst .binary (fun _ => some {}) ∅ _).1⟩

/-! ## Symbols with the same stem -/

theorem Session.without_cancelling (symbol : String) (n : Nat) :
    (cancelling symbol n).without symbol = { acts := [] } := by
  unfold without cancelling
  rw [List.filter_replicate, if_neg (by simp)]

theorem Session.without_cancelling_of_ne (hne : symbol ≠ other) (n : Nat) :
    (cancelling symbol n).without other = cancelling symbol n := by
  unfold without cancelling
  rw [List.filter_replicate, if_pos (decide_eq_true hne)]

/-- A session in which nothing happens. -/
theorem Session.run_nothing {f : Format} {fresh : Book} {directory : Directory} {lasting : Bool}
    {old : List Command} (books : String → Option Book) (symbol : String)
    (hbook : books symbol = some fresh)
    (hfiles : (directory.filesOf symbol).Settled f fresh lasting old)
    (hs : Journal.Serviceable (readOptions ({} : Config).maxPayload).limit f fresh old) :
    (∀ reply ∈ (run f books directory { acts := [] }).2.replies, reply.2.answer = .ok ()) ∧
      ((run f books directory { acts := [] }).1.filesOf symbol).Settled f fresh lasting old ∧
      (run f books directory { acts := [] }).2.published symbol = [] := by
  have hserves : ({ acts := [] } : Session).Serves symbol := ⟨fun a ha => (by cases ha), rfl⟩
  have hcommands : ({ acts := [] } : Session).commands symbol = [] := rfl
  have hok : ∀ reply ∈ (run f books directory { acts := [] }).2.replies,
      reply.2.answer = .ok () := by
    rw [run_eq]
    intro reply hmem
    cases hmem
  have hs' : Journal.Serviceable (readOptions ({ acts := [] } : Session).config.maxPayload).limit f
      fresh (old ++ ({ acts := [] } : Session).commands symbol) := by
    rw [hcommands, List.append_nil]
    exact hs
  obtain ⟨hsettled, -, hnone, -⟩ := run_settled hbook hserves hfiles hs' hok
  rw [hcommands, List.append_nil] at hsettled
  exact ⟨hok, hsettled, hnone hcommands⟩

/-- A symbol whose stem another one has is published as if it had been used by the other before. -/
theorem continued {s t : String} (hst : fileStem s = fileStem t) (hne : s ≠ t)
    (hs : s.isEmpty = false) (ht : t.isEmpty = false)
    (hstem : (fileStem s).utf8ByteSize ≤ SymbolPaths.longestStem) :
    let ss : List Session := [.cancelling t 1, .cancelling s 1]
    let whole := sessions .binary (fun _ => some {}) ∅ ss
    let rest := sessions .binary (fun _ => some {}) ∅ (ss.map (·.without t))
    (∀ report ∈ whole.2 ++ rest.2, ∀ reply ∈ report.replies, reply.2.answer = .ok ()) ∧
      (whole.2.flatMap (·.published s)).map Event.key = [(2, 0)] ∧
      (rest.2.flatMap (·.published s)).map Event.key = [(1, 0)] := by
  have hempty : ((∅ : Directory).filesOf s).Settled .binary {} true [] := by
    have h := SymbolFiles.settled_empty (Nat.le_trans hstem (by decide)) .binary {}
    rwa [decide_eq_true hstem] at h
  have hsame (directory : Directory) : directory.filesOf s = directory.filesOf t := by
    rw [Directory.filesOf, Directory.filesOf, hst]
  have hfirst : [] ++ List.replicate 1 miss = [miss] := rfl
  have hsecond : [miss] ++ List.replicate 1 miss = [miss, miss] := rfl
  -- In the files of the one symbol the other goes on,
  obtain ⟨hok₁, hsettled, hothers, -⟩ := Session.run_cancelling (fun _ => some {}) t (by decide)
    (by decide) hfirst ht rfl (hsame ∅ ▸ hempty) serviceable_miss
  obtain ⟨hok₂, -, -, more, hmore, hpublished⟩ := Session.run_cancelling (fun _ => some {}) s
    (by decide) (by decide) hsecond hs rfl (hsame _ ▸ hsettled) serviceable_misses
  have hlater : (Event.business more).map Event.key = [(2, 0)] := by
    have hkeys := key_misses
    rw [Journal.resumed, if_pos rfl] at hmore
    rw [← hmore, Event.business_append, List.map_append, key_miss] at hkeys
    exact (List.cons.inj hkeys).2
  -- and without it there is a session with nothing in it.
  obtain ⟨hok₃, hsettled', hnone⟩ := Session.run_nothing (fun _ => some {}) s rfl hempty
    (serviceable_miss.mono List.nil_prefix)
  obtain ⟨hok₄, -, -, all, hall, hpublished'⟩ := Session.run_cancelling (fun _ => some {}) s
    (by decide) (by decide) hfirst hs rfl hsettled' serviceable_miss
  obtain rfl : all = Journal.history {} [miss] := hall
  refine ⟨?_, ?_, ?_⟩
  · simp only [List.map_cons, List.map_nil, Session.without_cancelling,
      Session.without_cancelling_of_ne hne, sessions_cons, sessions_nil, List.cons_append,
      List.nil_append, List.mem_cons, List.not_mem_nil, or_false]
    intro report hmem
    rcases hmem with hmem | hmem | hmem | hmem
    · exact hmem ▸ hok₁
    · exact hmem ▸ hok₂
    · exact hmem ▸ hok₃
    · exact hmem ▸ hok₄
  · simp only [sessions_cons, sessions_nil, List.flatMap_cons, List.flatMap_nil, List.append_nil,
      hothers s hne, List.nil_append, hpublished, hlater]
  · simp only [List.map_cons, List.map_nil, Session.without_cancelling,
      Session.without_cancelling_of_ne hne, sessions_cons, sessions_nil, List.flatMap_cons,
      List.flatMap_nil, List.append_nil, hnone, List.nil_append, hpublished', key_miss]

/-- Two symbols that clients can tell apart, though files cannot. -/
theorem shared_after_restart :
    let ss : List Session := [.cancelling "A_B" 1, .cancelling "A/B" 1]
    let whole := sessions .binary (fun _ => some {}) ∅ ss
    let rest := sessions .binary (fun _ => some {}) ∅ (ss.map (·.without "A_B"))
    (∀ report ∈ whole.2 ++ rest.2, ∀ reply ∈ report.replies, reply.2.answer = .ok ()) ∧
      (whole.2.flatMap (·.published "A/B")).map Event.key = [(2, 0)] ∧
      (rest.2.flatMap (·.published "A/B")).map Event.key = [(1, 0)] :=
  continued (by decide) (by decide) (by decide) (by decide) (by decide)

end Engine

end Bourse
