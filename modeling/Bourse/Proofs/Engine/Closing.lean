import Bourse.Proofs.Engine.Serving

/-!
# The end of a session

A shutdown executes all commands that wait and hands on all events that are left, so what a session
leaves and publishes is decided by the commands alone: `Session.run_settled`. In a session in which
no more commands are sent than can wait none is refused: `Session.Easy.accepts`.
-/

namespace Bourse

open Recovery

namespace Engine

variable {e : Engine} {f : Format} {symbol : String} {fresh : Book} {lasting : Bool}
  {old given : List Command} {published : List Event}

/-- A table with at most one entry. -/
theorem toList_of_alone {α : Type} {m : Std.TreeMap String α}
    (halone : ∀ other, other ≠ symbol → m[other]? = none) :
    m.toList = (m[symbol]?.map fun a => (symbol, a)).toList := by
  have hsingle (a : α) : ((∅ : Std.TreeMap String α).insert symbol a).toList = [(symbol, a)] := by
    have h := Std.TreeMap.toList_insert_perm (t := (∅ : Std.TreeMap String α)) (k := symbol)
      (v := a)
    have hempty : (∅ : Std.TreeMap String α).toList = [] := rfl
    rw [hempty, List.filter_nil] at h
    exact List.perm_singleton.1 h
  have hequiv : m.Equiv (match m[symbol]? with
      | none => ∅
      | some a => (∅ : Std.TreeMap String α).insert symbol a) := by
    refine Std.TreeMap.Equiv.of_forall_constGet?_eq fun k => ?_
    by_cases hk : k = symbol
    · subst hk
      cases hm : m[k]? with
      | none => rfl
      | some a => simp
    · rw [halone k hk]
      cases m[symbol]? with
      | none => rfl
      | some a =>
        dsimp only
        rw [Std.TreeMap.getElem?_insert, if_neg]
        · rfl
        · exact fun hc => hk (Std.LawfulEqCmp.eq_of_compare hc).symm
  rw [hequiv.toList_eq]
  cases m[symbol]? with
  | none => rfl
  | some a => exact hsingle a

/-! ## Shutting down -/

/-- All commands that wait are executed, and both logs are closed. -/
theorem finish_keeps {r : RunningSymbol} {maxPayload : Nat} {cs : List Command} {front : List Event}
    (h : r.Serves (e.directory.filesOf symbol) f fresh lasting maxPayload cs front)
    (hm : fresh.Modest (cs ++ r.mailbox.queue)) :
    ∃ files r', e.finish symbol r =
        ({ e with directory := e.directory.setFiles symbol files }, r') ∧
      files.Keeps f fresh (cs ++ r.mailbox.queue) ∧ files.outbox.isRegular ∧
      ∃ p, r'.progress = some p ∧ p.Stands f maxPayload lasting files front := by
  have hm' : fresh.Modest (cs ++ r.mailbox.queue ++ ([] : List (List Command)).flatten) := by
    rw [List.flatten_nil, List.append_nil]
    exact hm
  obtain ⟨a, hrun, hserved⟩ := h.actor.run hm'
  rw [List.flatten_nil, List.append_nil] at hserved
  have hkeeps := hserved.logs.keeps_close (e.directory.filesOf symbol)
  have hreg : (a.logs.close (e.directory.filesOf symbol)).outbox.isRegular := by
    have hclosed := hserved.logs.flushCommands.1.flushEvents.1
    rw [SymbolLogs.close, SymbolLogs.save, hclosed.outboxThere]
    exact hclosed.outbox.regular
  obtain ⟨p, hp, hstands⟩ := h.progress
  unfold finish
  rw [if_neg (by rw [h.running]; exact Bool.false_ne_true)]
  dsimp only
  rw [hrun]
  refine ⟨_, _, rfl, hkeeps, hreg, p, hp, hstands.grow ?_ rfl rfl⟩
  rw [h.outbox, hkeeps.outbox]
  exact Journal.outboxBytes_prefix f fresh (List.prefix_append ..)

/-- All events that are left are published. -/
theorem drain_settles {r : RunningSymbol} {cs : List Command} {front more : List Event}
    {p : Publisher.Progress} (hpublishing : e.config.publishing = true)
    (hprogress : r.progress = some p)
    (hstands : p.Stands e.format e.config.maxPayload lasting (e.directory.filesOf symbol) front)
    (hkeeps : (e.directory.filesOf symbol).Keeps e.format fresh cs)
    (hreg : (e.directory.filesOf symbol).outbox.isRegular)
    (hs : Journal.Serviceable (readOptions e.config.maxPayload).limit e.format fresh cs)
    (hmore : front ++ more = Journal.history fresh cs) (hcs : cs ≠ []) :
    ∃ files closing, e.drain symbol r =
        ({ e with directory := e.directory.setFiles symbol files }, closing) ∧
      files.Settled e.format fresh lasting cs ∧ closing.symbol = symbol ∧
      closing.published = Event.business more := by
  have hout : (e.directory.filesOf symbol).outbox.bytes =
      Journal.eventBytes e.format (front ++ more) := by
    rw [hkeeps.outbox, hmore]
    rfl
  have hsize : (e.directory.filesOf symbol).outbox.size ≤ File.maxPosition := by
    rw [← File.length_bytes, hkeeps.outbox]
    exact hs.outboxRange
  have hturns : more.length < (e.directory.filesOf symbol).outbox.size + 2 := by
    have hle := Journal.length_le_eventBytes e.format (front ++ more)
    rw [← hout, File.length_bytes, List.length_append] at hle
    omega
  have hfits : ∀ d ∈ more, (e.format.encodeEvent d).length ≤
      (readOptions e.config.maxPayload).limit := by
    intro d hd
    refine hs.fits.events d ?_
    show d ∈ Journal.history fresh cs
    rw [← hmore]
    exact List.mem_append_right _ hd
  obtain ⟨p', d', committed, hrun, hstands', hpublished, hlog, hout'⟩ :=
    Publisher.run_stands (d := { files := e.directory.filesOf symbol }) hstands hreg hout hfits hsize
      hturns
  have hmarks := hstands'.marks_closed
  rw [hmore, Journal.closedPart_history hs.modest] at hmarks
  unfold drain
  dsimp only
  rw [if_pos hpublishing, hprogress, hrun]
  refine ⟨d'.files, _, rfl, ⟨?_, hmarks, fun h => absurd h hcs⟩, rfl, ?_⟩
  · exact ⟨hlog ▸ hkeeps.logUsable, hlog ▸ hkeeps.log, hout' ▸ hkeeps.outboxUsable,
      hout' ▸ hkeeps.outbox⟩
  · show d'.published.reverse = _
    rw [hpublished, List.append_nil, List.reverse_reverse]

/-- What a shutdown settles and publishes. -/
theorem Serves.shutdown (h : e.Serves f symbol fresh lasting old given published)
    (hs : Journal.Serviceable (readOptions e.config.maxPayload).limit f fresh (old ++ given)) :
    ∃ e' closings, e.shutdown = (e', closings) ∧
      (e'.directory.filesOf symbol).Settled f fresh lasting (old ++ given) ∧
      (∀ c ∈ closings, c.symbol = symbol) ∧
      (given = [] → published ++ closings.flatMap (·.published) = []) ∧
      (given ≠ [] → ∃ more, Journal.resumed fresh lasting old ++ more =
          Journal.history fresh (old ++ given) ∧
        published ++ closings.flatMap (·.published) = Event.business more) := by
  rw [shutdown_eq, toList_of_alone h.dedicated.alone]
  cases h with
  | unused dedicated running settled =>
    rw [running, List.append_nil]
    refine ⟨_, _, rfl, settled, fun c hc => (by cases hc), fun _ => rfl, fun hne => absurd rfl hne⟩
  | @used r cs given more dedicated running serves capacity begun queue given_ne =>
    obtain rfl := dedicated.format
    rw [running]
    obtain ⟨files, r', hfinish, hkeeps, hreg, p, hprogress, hstands⟩ :=
      finish_keeps (e := { e with running := ∅, closed := true }) serves (queue ▸ hs.modest)
    rw [queue] at hkeeps
    obtain ⟨rest, hrest⟩ := serves.journal.trans
      (Journal.history_prefix fresh (queue ▸ List.prefix_append cs r.mailbox.queue))
    have hfiles : (e.directory.setFiles symbol files).filesOf symbol = files := by
      rw [Directory.filesOf_setFiles, if_pos rfl]
    obtain ⟨files', closing, hdrain, hsettled, hsymbol, hpublished⟩ :=
      drain_settles
        (e := { e with
          running := ∅, closed := true, directory := e.directory.setFiles symbol files })
        dedicated.publishing hprogress (hfiles.symm ▸ hstands) (hfiles.symm ▸ hkeeps)
        (hfiles.symm ▸ hreg) hs hrest (by simp [given_ne])
    simp only [Option.map_some, Option.toList_some, each, hfinish, hdrain]
    refine ⟨_, _, rfl, ?_, ?_, fun hnil => absurd hnil given_ne, ?_⟩
    · show (Directory.filesOf (Directory.setFiles _ symbol files') symbol).Settled _ _ _ _
      rw [Directory.filesOf_setFiles, if_pos rfl]
      exact hsettled
    · intro c hc
      rw [List.mem_singleton.1 hc]
      exact hsymbol
    · intro _
      refine ⟨more ++ rest, by rw [← List.append_assoc, hrest], ?_⟩
      rw [Event.business_append]
      simp [hpublished]

/-! ## Reports on one symbol -/

section Report

variable {r : Report} {other : String}

theorem Report.published_eq (hreplies : ∀ reply ∈ r.replies, reply.1 = symbol)
    (hclosings : ∀ c ∈ r.closings, c.symbol = symbol) :
    r.published symbol =
      r.replies.flatMap (·.2.published) ++ r.closings.flatMap (·.published) := by
  unfold published about
  dsimp only
  rw [List.filter_eq_self.2, List.filter_eq_self.2]
  · exact fun c hc => decide_eq_true (hclosings c hc)
  · exact fun reply hr => decide_eq_true (hreplies reply hr)

theorem Report.published_other (hreplies : ∀ reply ∈ r.replies, reply.1 = symbol)
    (hclosings : ∀ c ∈ r.closings, c.symbol = symbol) (hne : other ≠ symbol) :
    r.published other = [] := by
  unfold published about
  dsimp only
  rw [List.filter_eq_nil_iff.2, List.filter_eq_nil_iff.2]
  · rfl
  · intro c hc heq
    exact hne ((of_decide_eq_true heq).symm.trans (hclosings c hc))
  · intro reply hr heq
    exact hne ((of_decide_eq_true heq).symm.trans (hreplies reply hr))

end Report

/-! ## Whole sessions -/

theorem commands_cons (given : List Command) (a : Act) (rest : List Act) :
    given ++ (a :: rest).filterMap (·.deed.command?) =
      given ++ a.deed.command?.toList ++ rest.filterMap (·.deed.command?) := by
  rw [List.filterMap_cons]
  cases a.deed.command? <;> simp

/-- One thing that happens to the symbol. -/
theorem Serves.act (h : e.Serves f symbol fresh lasting old given published) {a : Act}
    (ha : a.symbol = symbol)
    (hs : Journal.Serviceable (readOptions e.config.maxPayload).limit f fresh
      (old ++ (given ++ a.deed.command?.toList)))
    (hok : (e.act a).2.answer = .ok ()) :
    (e.act a).1.Serves f symbol fresh lasting old (given ++ a.deed.command?.toList)
        (published ++ (e.act a).2.published) ∧
      (e.act a).1.config = e.config := by
  subst ha
  have hold := hs.mono (List.prefix_append old _)
  unfold Engine.act at hok ⊢
  cases hdeed : a.deed with
  | submit c =>
    rw [hdeed] at hok hs
    simp only [Engine.submit] at hok ⊢
    split at hok
    · next hkind =>
      rw [if_pos hkind]
      simp only [List.append_nil]
      exact h.enqueue hold hok
    · cases hok
  | cancel c =>
    rw [hdeed] at hok hs
    simp only [Engine.cancel] at hok ⊢
    split at hok
    · next hkind =>
      rw [if_pos hkind]
      simp only [List.append_nil]
      exact h.enqueue hold hok
    · cases hok
  | work most =>
    rw [hdeed] at hs
    simp only [Deed.command?, Option.toList_none, List.append_nil] at hs ⊢
    exact h.wake hs.modest most
  | publish seen =>
    rw [hdeed] at hs
    simp only [Deed.command?, Option.toList_none, List.append_nil] at hs ⊢
    exact h.publish hs seen

theorem Serves.acts (h : e.Serves f symbol fresh lasting old given published) {acts : List Act}
    (hacts : ∀ a ∈ acts, a.symbol = symbol)
    (hs : Journal.Serviceable (readOptions e.config.maxPayload).limit f fresh
      (old ++ (given ++ acts.filterMap (·.deed.command?))))
    (hok : ∀ reply ∈ (e.acts acts).2, reply.2.answer = .ok ()) :
    (e.acts acts).1.Serves f symbol fresh lasting old (given ++ acts.filterMap (·.deed.command?))
        (published ++ (e.acts acts).2.flatMap (·.2.published)) ∧
      (e.acts acts).1.config = e.config ∧ ∀ reply ∈ (e.acts acts).2, reply.1 = symbol := by
  induction acts generalizing e given published with
  | nil =>
    simp only [Engine.acts, List.filterMap_nil, List.flatMap_nil, List.append_nil]
    exact ⟨h, trivial, fun reply hr => (by cases hr)⟩
  | cons a rest ih =>
    rw [commands_cons] at hs ⊢
    have ha := hacts a List.mem_cons_self
    have hfirst := hok (a.symbol, (e.act a).2) List.mem_cons_self
    have hbegun : old ++ (given ++ a.deed.command?.toList) <+:
        old ++ (given ++ a.deed.command?.toList ++ rest.filterMap (·.deed.command?)) :=
      (List.prefix_append_right_inj old).2 (List.prefix_append ..)
    obtain ⟨hact, hconfig⟩ := h.act ha (hs.mono hbegun) hfirst
    obtain ⟨hacted, hconfig', hsymbols⟩ := ih hact
      (fun b hb => hacts b (List.mem_cons_of_mem a hb)) (hconfig ▸ hs)
      fun reply hr => hok reply (List.mem_cons_of_mem _ hr)
    refine ⟨?_, hconfig'.trans hconfig, ?_⟩
    · show (Engine.acts (e.act a).1 rest).1.Serves _ _ _ _ _ _
        (published ++ ((e.act a).2.published ++ _))
      rw [← List.append_assoc]
      exact hacted
    · intro reply hr
      rcases List.mem_cons.1 hr with rfl | hr
      · exact ha
      · exact hsymbols reply hr

/-! ### What is not refused -/

/-- A client is not refused if its command is what it asks for, and fewer commands were sent than can
wait. -/
theorem Serves.act_accepts (h : e.Serves f symbol fresh lasting old given published) {a : Act}
    (ha : a.symbol = symbol)
    (hs : Journal.Serviceable (readOptions e.config.maxPayload).limit f fresh old)
    (hsymbol : symbol.isEmpty = false) (hproper : a.deed.proper)
    (hlen : (given ++ a.deed.command?.toList).length ≤ max e.config.mailboxSize 1) :
    (e.act a).2.answer = .ok () := by
  subst ha
  rw [List.length_append] at hlen
  unfold Engine.act
  cases hdeed : a.deed with
  | submit c =>
    rw [hdeed] at hproper hlen
    change c.isSubmit = true at hproper
    simp only [Engine.submit]
    rw [if_pos hproper]
    exact h.enqueue_accepts hs hsymbol (Nat.lt_of_succ_le hlen) c
  | cancel c =>
    rw [hdeed] at hproper hlen
    change c.isCancel = true at hproper
    simp only [Engine.cancel]
    rw [if_pos hproper]
    exact h.enqueue_accepts hs hsymbol (Nat.lt_of_succ_le hlen) c
  | work most => rfl
  | publish seen => rfl

theorem Serves.acts_accept (h : e.Serves f symbol fresh lasting old given published)
    {acts : List Act} (hacts : ∀ a ∈ acts, a.symbol = symbol)
    (hs : Journal.Serviceable (readOptions e.config.maxPayload).limit f fresh
      (old ++ (given ++ acts.filterMap (·.deed.command?))))
    (hsymbol : symbol.isEmpty = false) (hproper : ∀ a ∈ acts, a.deed.proper)
    (hlen : (given ++ acts.filterMap (·.deed.command?)).length ≤ max e.config.mailboxSize 1) :
    ∀ reply ∈ (e.acts acts).2, reply.2.answer = .ok () := by
  induction acts generalizing e given published with
  | nil =>
    intro reply hr
    cases hr
  | cons a rest ih =>
    rw [commands_cons] at hs hlen
    have ha := hacts a List.mem_cons_self
    have hbegun : old ++ (given ++ a.deed.command?.toList) <+:
        old ++ (given ++ a.deed.command?.toList ++ rest.filterMap (·.deed.command?)) :=
      (List.prefix_append_right_inj old).2 (List.prefix_append ..)
    have hfirst := h.act_accepts ha (hs.mono (List.prefix_append old _)) hsymbol
      (hproper a List.mem_cons_self) (Nat.le_trans (List.prefix_append _ _).length_le hlen)
    obtain ⟨hact, hconfig⟩ := h.act ha (hs.mono hbegun) hfirst
    intro reply hr
    rcases List.mem_cons.1 hr with rfl | hr
    · exact hfirst
    · exact ih hact (fun b hb => hacts b (List.mem_cons_of_mem a hb)) (hconfig ▸ hs)
        (fun b hb => hproper b (List.mem_cons_of_mem a hb)) (hconfig ▸ hlen) reply hr

namespace Session

variable {s : Session} {books : String → Option Book} {directory : Directory}

/-- Nothing happens to other symbols in a session, and its publisher is at work. -/
structure Serves (s : Session) (symbol : String) : Prop where
  acts : ∀ a ∈ s.acts, a.symbol = symbol
  publishing : s.config.publishing = true

theorem Serves.commands_eq (h : s.Serves symbol) :
    s.commands symbol = s.acts.filterMap (·.deed.command?) := by
  rw [commands, List.filter_eq_self.2]
  intro a ha
  rw [h.acts a ha]
  exact decide_eq_true rfl

/-- Nobody is refused in a session: everyone sends what they ask for, and no more commands are sent
than can wait. -/
structure Easy (s : Session) (symbol : String) : Prop where
  proper : ∀ a ∈ s.acts, a.deed.proper
  few : (s.commands symbol).length ≤ max s.config.mailboxSize 1

theorem Serves.opening (h : s.Serves symbol) (hbook : books symbol = some fresh)
    (hfiles : (directory.filesOf symbol).Settled f fresh lasting old) :
    (s.opening f books directory).Serves f symbol fresh lasting old [] [] :=
  .unused ⟨rfl, rfl, hbook, h.publishing, fun _ _ => rfl⟩ rfl hfiles

theorem Easy.accepts (heasy : s.Easy symbol) (hsymbol : symbol.isEmpty = false)
    (hbook : books symbol = some fresh) (h : s.Serves symbol)
    (hfiles : (directory.filesOf symbol).Settled f fresh lasting old)
    (hs : Journal.Serviceable (readOptions s.config.maxPayload).limit f fresh
      (old ++ s.commands symbol)) :
    ∀ reply ∈ (s.run f books directory).2.replies, reply.2.answer = .ok () := by
  have hfew := heasy.few
  rw [h.commands_eq] at hs hfew
  exact (h.opening hbook hfiles).acts_accept h.acts hs hsymbol heasy.proper hfew

/-- What a session with settled files leaves and publishes, if no command is refused. Nothing is
published for other symbols. -/
theorem run_settled (hbook : books symbol = some fresh) (h : s.Serves symbol)
    (hfiles : (directory.filesOf symbol).Settled f fresh lasting old)
    (hs : Journal.Serviceable (readOptions s.config.maxPayload).limit f fresh
      (old ++ s.commands symbol))
    (hok : ∀ reply ∈ (s.run f books directory).2.replies, reply.2.answer = .ok ()) :
    ((s.run f books directory).1.filesOf symbol).Settled f fresh lasting
        (old ++ s.commands symbol) ∧
      (∀ other, other ≠ symbol → (s.run f books directory).2.published other = []) ∧
      (s.commands symbol = [] → (s.run f books directory).2.published symbol = []) ∧
      (s.commands symbol ≠ [] → ∃ more, Journal.resumed fresh lasting old ++ more =
          Journal.history fresh (old ++ s.commands symbol) ∧
        (s.run f books directory).2.published symbol = Event.business more) := by
  rw [h.commands_eq] at hs ⊢
  obtain ⟨hserves, hconfig, hsymbols⟩ := (h.opening hbook hfiles).acts h.acts hs hok
  rw [List.nil_append, List.nil_append] at hserves
  obtain ⟨e', closings, hshutdown, hsettled, hclosings, hnone, hsome⟩ :=
    hserves.shutdown (hconfig.symm ▸ hs)
  have hrun : s.run f books directory =
      (e'.directory, { replies := ((s.opening f books directory).acts s.acts).2, closings }) := by
    rw [run_eq]
    dsimp only
    rw [hshutdown]
  rw [hrun]
  refine ⟨hsettled, fun other hne => Report.published_other hsymbols hclosings hne, ?_⟩
  rw [Report.published_eq hsymbols hclosings]
  exact ⟨hnone, hsome⟩

end Session

end Engine

end Bourse
