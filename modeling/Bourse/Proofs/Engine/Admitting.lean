import Bourse.Proofs.Engine.Isolation
import Bourse.Proofs.Outbox.Surroundings
import Bourse.Proofs.Recovery.Reopening

/-!
# Commands that are taken

A command of which a client is told that it was taken waits in the mailbox of its symbol, or it was
executed behind those that were taken before (`Engine.Takes`). Whatever happens to the symbol keeps
that, and commands that are refused make no difference. Nor does what happens to symbols with other
files.
-/

namespace Bourse

open Recovery

/-! ## What publishing leaves alone -/

/-- Files with the same logs. -/
structure SymbolFiles.SameLogs (files files' : SymbolFiles) : Prop where
  log : files'.log = files.log
  outbox : files'.outbox = files.outbox

namespace SymbolFiles.SameLogs

variable {files : SymbolFiles}

theorem refl (files : SymbolFiles) : files.SameLogs files :=
  ⟨rfl, rfl⟩

theorem storeCursor (files : SymbolFiles) (offset : Nat) :
    files.SameLogs (files.storeCursor offset).1 := by
  unfold SymbolFiles.storeCursor
  split
  · exact refl files
  · split
    · exact ⟨rfl, rfl⟩
    · exact ⟨rfl, rfl⟩

end SymbolFiles.SameLogs

/-- Publishing changes no log. -/
theorem Drain.outlet_keeps (files : SymbolFiles) :
    Drain.outlet.Keeps fun d => files.SameLogs d.files where
  publish _ _ h := h
  store d offset h := by
    have hstored := SymbolFiles.SameLogs.storeCursor d.files offset
    exact ⟨hstored.log.trans h.log, hstored.outbox.trans h.outbox⟩

theorem Publisher.advance_sameLogs (f : Format) (maxPayload seen : Nat) (progress : Option Progress)
    (files : SymbolFiles) : files.SameLogs (advance f maxPayload seen progress files).2.files := by
  unfold advance
  split
  · split
    · exact .refl files
    · next hstart => exact (Drain.outlet_keeps files).start (.refl files) hstart
  · next p =>
    let view := { files with outbox := files.outbox.truncate (max p.reach seen) }
    have hturn := (Drain.outlet_keeps view).turn f maxPayload p (s := { files := view })
      (.refl view)
    exact ⟨hturn.log, rfl⟩

/-! ## A symbol in use -/

/-- An actor that was given these commands since its symbol was recovered. It has executed the first
of them, and the others wait. -/
structure RunningSymbol.Takes (r : RunningSymbol) (files : SymbolFiles) (f : Format)
    (left : SymbolFiles) (book : Book) (last : Seq) (given : List Command) : Prop where
  running : r.halted = false
  actor : ∃ done, done ++ r.mailbox.queue = given ∧
    (r.actorOn files).Continues (SymbolLogs.storage f) id f left.log.bytes left.outbox.bytes book
      last done

/-- The command of a client who was told that it was taken. -/
def Deed.taken (d : Deed) (answer : Except SubmitError Unit) : List Command :=
  if answer.isOk then d.command?.toList else []

namespace Engine

variable {e e' : Engine} {symbol : String} {before : SymbolFiles} {given : List Command}

/-- The commands for a symbol that were taken since the files were `before`. While there are none
the symbol is not in use, though it may have been tried to recover it. -/
inductive Takes (e : Engine) (symbol : String) (before : SymbolFiles) : List Command → Prop where
  | unused (running : e.running[symbol]? = none)
      (tried : Tried e.config.options e.format (e.fresh symbol) before
        (e.directory.filesOf symbol)) : Takes e symbol before []
  | used {r : RunningSymbol} {left : SymbolFiles} {book : Book} {recovered : Recovered}
      {given : List Command} (running : e.running[symbol]? = some r)
      (recovers : Recovers e.config.options e.format (e.fresh symbol) before left book recovered)
      (takes : r.Takes (e.directory.filesOf symbol) e.format left book recovered.lastSeq given)
      (given_ne : given ≠ []) : Takes e symbol before given

/-! ### Taking up a symbol -/

/-- A symbol that cannot be taken up may be tried again. -/
theorem tried_of_start {cause : SubmitError} (h : e.start symbol = (e', .error cause))
    (hrunning : e.running[symbol]? = none)
    (htried : Tried e.config.options e.format (e.fresh symbol) before
      (e.directory.filesOf symbol)) : e'.Takes symbol before [] := by
  unfold start at h
  split at h
  · cases h
    exact .unused hrunning htried
  · next book hbook =>
    dsimp only at h
    have hagain {left : SymbolFiles} {book' : Book} {result : Except RecoveryError Recovered}
        (hrecover : recover e.config.options e.format (e.directory.filesOf symbol) book =
          ((left, book'), result)) :
        ({ e with directory := e.directory.setFiles symbol left } : Engine).Takes symbol before
          [] := by
      refine .unused hrunning ?_
      show Tried _ _ _ _ (Directory.filesOf (e.directory.setFiles symbol left) symbol)
      rw [Directory.filesOf_setFiles, if_pos rfl]
      exact .attempt htried hbook hrecover
    split at h
    · next hrecover =>
      cases h
      exact hagain hrecover
    · cases h

/-- An actor that was just started has executed nothing. -/
theorem takes_of_start {r : RunningSymbol} (h : e.start symbol = (e', .ok r))
    (htried : Tried e.config.options e.format (e.fresh symbol) before
      (e.directory.filesOf symbol)) :
    ∃ directory left book recovered, e' = { e with directory } ∧
      Recovers e.config.options e.format (e.fresh symbol) before left book recovered ∧
      r.mailbox.queue = [] ∧
      r.Takes (directory.filesOf symbol) e.format left book recovered.lastSeq [] := by
  unfold start at h
  split at h
  · cases h
  next fresh hbook =>
  dsimp only at h
  split at h
  · cases h
  next left book recovered hrecover =>
  cases h
  have hrecovers : Recovers e.config.options e.format (e.fresh symbol) before left book recovered :=
    ⟨_, _, htried, hbook, hrecover⟩
  obtain ⟨ps, rest, hparsed⟩ := Log.exists_parsed e.config.options.limit before.log.bytes
  have hreopened := hrecovers.reopened hparsed
  -- The publisher may store its cursor first; the logs stay as recovery has left them.
  have hstarted (progress : Option Publisher.Progress) {files : SymbolFiles}
      (hsame : left.SameLogs files) :
      RunningSymbol.Takes
        { actor :=
            { storage := SymbolLogs.storage e.format, format := e.format,
              batchMax := e.config.batchMax, logs := recovered.logs, book := book,
              lastSeq := recovered.lastSeq }
          mailbox := { capacity := e.config.mailboxSize }
          progress }
        (Directory.filesOf (e.directory.setFiles symbol files) symbol) e.format left book
        recovered.lastSeq [] := by
    rw [Directory.filesOf_setFiles, if_pos rfl]
    refine ⟨rfl, [], rfl, Actor.continues_nil rfl rfl ?_⟩
    have hlogs := hreopened.logs
    rw [← recovered.logs.refresh_self] at hlogs
    rw [← hreopened.files] at hsame
    exact hlogs.refresh hsame.log hsame.outbox
  refine ⟨_, left, book, recovered, rfl, hrecovers, rfl, hstarted _ ?_⟩
  split
  · split
    · next hpublisher => exact (Drain.outlet_keeps left).start (.refl left) hpublisher
    · exact .refl left
  · exact .refl left

/-! ### Commands -/

/-- A command for a symbol in use waits behind those that were taken before, or it is refused. -/
theorem takes_post {r : RunningSymbol} {left : SymbolFiles} {book : Book} {recovered : Recovered}
    (hrecovers : Recovers e.config.options e.format (e.fresh symbol) before left book recovered)
    (htakes : r.Takes (e.directory.filesOf symbol) e.format left book recovered.lastSeq given)
    (hempty : given = [] → r.mailbox.queue = []) (c : Command) :
    (e.post symbol r c).1.Takes symbol before
      (given ++ if (e.post symbol r c).2.isOk then [c] else []) := by
  obtain ⟨hhalted, done, hqueue, hactor⟩ := htakes
  cases hpost : (e.post symbol r c).2 with
  | ok =>
    rw [post_of_ok hpost]
    show Takes _ _ _ (given ++ [c])
    refine .used (getElem?_insert_self ..) hrecovers ⟨hhalted, done, ?_, hactor⟩ (by simp)
    show done ++ (r.mailbox.queue ++ [c]) = given ++ [c]
    rw [← hqueue, List.append_assoc]
  | error cause =>
    have hfull : r.mailbox.send? c = none := by
      unfold post at hpost
      rw [if_neg (by rw [hhalted]; exact Bool.false_ne_true)] at hpost
      split at hpost
      · cases hpost
      · assumption
    -- A mailbox that is full has something in it.
    have hgiven : given ≠ [] := by
      intro hnil
      unfold Mailbox.send? at hfull
      rw [hempty hnil] at hfull
      simp at hfull
    unfold post
    rw [if_neg (by rw [hhalted]; exact Bool.false_ne_true), hfull]
    show Takes _ _ _ (given ++ [])
    rw [List.append_nil]
    exact .used (getElem?_insert_self ..) hrecovers ⟨hhalted, done, hqueue, hactor⟩ hgiven

/-- A command is taken, or it makes no difference to what was taken. -/
theorem Takes.enqueue (h : e.Takes symbol before given) (c : Command) :
    (e.enqueue symbol c).1.Takes symbol before
      (given ++ if (e.enqueue symbol c).2.isOk then [c] else []) := by
  have hrefused (cause : SubmitError) : e.Takes symbol before
      (given ++ if (Except.error cause : Except SubmitError Unit).isOk then [c] else []) := by
    show Takes _ _ _ (given ++ [])
    rwa [List.append_nil]
  unfold Engine.enqueue
  split
  · exact hrefused _
  split
  · exact hrefused _
  cases h with
  | unused running tried =>
    rw [running]
    dsimp only
    rcases hstart : e.start symbol with ⟨e', cause | r⟩
    · exact tried_of_start hstart running tried
    · obtain ⟨directory, left, book, recovered, rfl, hrecovers, hqueue, htakes⟩ :=
        takes_of_start hstart tried
      exact takes_post (e := { e with directory }) hrecovers htakes (fun _ => hqueue) c
  | used running recovers takes given_ne =>
    rw [running]
    exact takes_post recovers takes (fun hnil => absurd hnil given_ne) c

/-! ### The actor and the publisher -/

/-- With whatever book the symbol is recovered, none of these commands has too many events. -/
def Allows (e : Engine) (symbol : String) (before : SymbolFiles) (cs : List Command) : Prop :=
  ∀ left book r, Recovers e.config.options e.format (e.fresh symbol) before left book r →
    book.Modest cs

/-- The actor executes what waits. -/
theorem Takes.wake (h : e.Takes symbol before given) (hm : e.Allows symbol before given)
    (most : Nat) : (e.wake symbol most).Takes symbol before given := by
  unfold Engine.wake
  cases h with
  | unused running tried =>
    rw [running]
    exact .unused running tried
  | @used r left book recovered given running recovers takes given_ne =>
    rw [running]
    dsimp only
    by_cases hidle : (r.halted || r.mailbox.queue.isEmpty) = true
    · rw [if_pos hidle]
      exact .used running recovers takes given_ne
    · rw [if_neg hidle]
      obtain ⟨hhalted, done, hqueue, hactor⟩ := takes
      let files := e.directory.filesOf symbol
      let size := max 1 (min most (r.actorOn files).batchSize)
      let batch := r.mailbox.queue.take size
      -- The batch is the beginning of what waits, so it is as modest as all that was taken.
      have hmodest : book.Modest (done ++ batch) := by
        have hall := hm _ _ _ recovers
        rw [← hqueue, ← List.take_append_drop size r.mailbox.queue, ← List.append_assoc] at hall
        exact (Book.modest_append.1 hall).1
      obtain ⟨a, result, hcommit, -, hok, -⟩ := hactor.commit (SymbolLogs.storage_backs e.format)
        (Book.modest_append.1 hmodest).1 batch
      obtain ⟨rfl, hcontinues, -⟩ := hok hmodest
      rw [hcommit]
      dsimp only
      obtain ⟨-, -, hsaved⟩ := SymbolLogs.Holds.save hcontinues.logs files
      refine .used (getElem?_insert_self ..) recovers
        ⟨hhalted, done ++ batch, ?_, { hcontinues with logs := ?_ }⟩ given_ne
      · show done ++ batch ++ r.mailbox.queue.drop _ = given
        rw [List.append_assoc, List.take_append_drop]
        exact hqueue
      · show (a.logs.refresh (Directory.filesOf (e.directory.setFiles symbol _) symbol)).Holds _ _
        rw [Directory.filesOf_setFiles, if_pos rfl]
        exact hsaved

/-- Publishing makes no difference. -/
theorem Takes.publish (h : e.Takes symbol before given) (seen : Nat) :
    (e.publish symbol seen).1.Takes symbol before given := by
  unfold Engine.publish
  cases h with
  | unused running tried =>
    rw [running]
    exact .unused running tried
  | @used r left book recovered given running recovers takes given_ne =>
    rw [running]
    dsimp only
    split
    · have hsame := Publisher.advance_sameLogs e.format e.config.maxPayload seen r.progress
        (e.directory.filesOf symbol)
      obtain ⟨hhalted, done, hqueue, hactor⟩ := takes
      refine .used (getElem?_insert_self ..) recovers
        ⟨hhalted, done, hqueue, { hactor with logs := ?_ }⟩ given_ne
      show (r.actor.logs.refresh (Directory.filesOf (e.directory.setFiles symbol _) symbol)).Holds
        _ _
      rw [Directory.filesOf_setFiles, if_pos rfl]
      exact SymbolLogs.Holds.refresh hactor.logs hsame.log hsame.outbox
    · exact .used running recovers takes given_ne

/-! ## What happens to symbols -/

/-- The commands for a symbol of which clients were told that they were taken, in the order in which
they were sent. -/
def acknowledged (symbol : String) (acts : List Act) (replies : List (String × Reply)) :
    List Command :=
  (acts.zip replies).flatMap fun (a, _, reply) =>
    if a.symbol = symbol then a.deed.taken reply.answer else []

theorem acknowledged_cons (e : Engine) (symbol : String) (a : Act) (rest : List Act) :
    acknowledged symbol (a :: rest) (e.acts (a :: rest)).2 =
      (if a.symbol = symbol then a.deed.taken (e.act a).2.answer else []) ++
        acknowledged symbol rest ((e.act a).1.acts rest).2 :=
  rfl

/-- What happens to the symbol keeps all commands that were taken. -/
theorem Takes.act (h : e.Takes symbol before given) (hm : e.Allows symbol before given) {a : Act}
    (ha : a.symbol = symbol) :
    (e.act a).1.Takes symbol before (given ++ a.deed.taken (e.act a).2.answer) := by
  subst ha
  have hrefused : e.Takes a.symbol before (given ++ []) := by rwa [List.append_nil]
  unfold Engine.act
  cases hdeed : a.deed with
  | submit c =>
    simp only [Engine.submit]
    split
    · exact h.enqueue c
    · exact hrefused
  | cancel c =>
    simp only [Engine.cancel]
    split
    · exact h.enqueue c
    · exact hrefused
  | work most =>
    show Takes _ _ _ (given ++ [])
    rw [List.append_nil]
    exact h.wake hm most
  | publish seen =>
    show Takes _ _ _ (given ++ [])
    rw [List.append_nil]
    exact h.publish seen

/-- What is kept can be seen of the symbol. -/
theorem Takes.alike (h : e.Takes symbol before given) (halike : e.Alike e' symbol) :
    e'.Takes symbol before given := by
  cases h with
  | unused running tried =>
    rw [halike.running] at running
    rw [halike.config, halike.format, halike.fresh, halike.files] at tried
    exact .unused running tried
  | used running recovers takes given_ne =>
    rw [halike.running] at running
    rw [halike.config, halike.format, halike.fresh] at recovers
    rw [halike.format, halike.files] at takes
    exact .used running recovers takes given_ne

/-- What an engine is for, which nothing changes that happens to symbols. -/
structure Akin (e e' : Engine) : Prop where
  config : e'.config = e.config
  format : e'.format = e.format
  fresh : e'.fresh = e.fresh
  closed : e'.closed = e.closed

theorem Akin.refl (e : Engine) : e.Akin e :=
  ⟨rfl, rfl, rfl, rfl⟩

theorem Akin.trans {e'' : Engine} (h : e.Akin e') (h' : e'.Akin e'') : e.Akin e'' :=
  ⟨h'.config.trans h.config, h'.format.trans h.format, h'.fresh.trans h.fresh,
    h'.closed.trans h.closed⟩

theorem akin_changes (e : Engine) (symbol : String) (ds : List Change) :
    e.Akin (e.changes symbol ds) := by
  induction ds generalizing e with
  | nil => exact .refl e
  | cons d ds ih =>
    have hchange : e.Akin (e.change symbol d) := ⟨rfl, rfl, rfl, rfl⟩
    exact hchange.trans (ih _)

theorem act_eq_changes (e : Engine) (a : Act) :
    ∃ ds reply, e.act a = (e.changes a.symbol ds, reply) := by
  obtain ⟨ds, reply, hact, -⟩ := local_act a.symbol a.deed e e (.refl e a.symbol)
  exact ⟨ds, reply, hact⟩

theorem akin_act (e : Engine) (a : Act) : e.Akin (e.act a).1 := by
  obtain ⟨ds, reply, hact⟩ := act_eq_changes e a
  rw [hact]
  exact akin_changes e a.symbol ds

theorem Allows.akin {cs : List Command} (h : e.Allows symbol before cs) (hakin : e.Akin e') :
    e'.Allows symbol before cs := by
  unfold Allows
  rw [hakin.config, hakin.format, hakin.fresh]
  exact h

theorem Allows.of_append {cs ds : List Command} (h : e.Allows symbol before (cs ++ ds)) :
    e.Allows symbol before cs :=
  fun left book r hrecovers => (Book.modest_append.1 (h left book r hrecovers)).1

/-- No symbol in use has the files of this one. -/
def Apart (e : Engine) (symbol : String) : Prop :=
  ∀ other, (e.running[other]?).isSome → fileStem other = fileStem symbol → other = symbol

theorem running_changes_other {other : String} (hne : other ≠ symbol) (e : Engine)
    (ds : List Change) : (e.changes symbol ds).running[other]? = e.running[other]? := by
  induction ds generalizing e with
  | nil => rfl
  | cons d ds ih =>
    show ((e.change symbol d).changes symbol ds).running[other]? = _
    rw [ih, running_change, if_neg hne]

theorem Apart.act (h : e.Apart symbol) {a : Act}
    (ha : fileStem a.symbol = fileStem symbol → a.symbol = symbol) : (e.act a).1.Apart symbol := by
  intro other hother hstem
  by_cases hsame : other = a.symbol
  · subst hsame
    exact ha hstem
  · obtain ⟨ds, reply, hact⟩ := act_eq_changes e a
    rw [hact, running_changes_other hsame] at hother
    exact h other hother hstem

/-- Whatever happens in an engine, what is kept of the symbol is what clients were told. -/
theorem Takes.acts (h : e.Takes symbol before given) (hapart : e.Apart symbol) {acts : List Act}
    (hacts : ∀ a ∈ acts, fileStem a.symbol = fileStem symbol → a.symbol = symbol)
    (hm : e.Allows symbol before (given ++ acknowledged symbol acts (e.acts acts).2)) :
    (e.acts acts).1.Takes symbol before (given ++ acknowledged symbol acts (e.acts acts).2) ∧
      (e.acts acts).1.Apart symbol ∧ e.Akin (e.acts acts).1 := by
  induction acts generalizing e given with
  | nil =>
    show e.Takes symbol before (given ++ []) ∧ _
    rw [List.append_nil]
    exact ⟨h, hapart, .refl e⟩
  | cons a rest ih =>
    have hakin := akin_act e a
    have ha := hacts a List.mem_cons_self
    have hrest : ∀ b ∈ rest, fileStem b.symbol = fileStem symbol → b.symbol = symbol :=
      fun b hb => hacts b (List.mem_cons_of_mem a hb)
    rw [acknowledged_cons, ← List.append_assoc] at hm ⊢
    have hfirst : (e.act a).1.Takes symbol before
        (given ++ if a.symbol = symbol then a.deed.taken (e.act a).2.answer else []) := by
      by_cases hsymbol : a.symbol = symbol
      · rw [if_pos hsymbol]
        exact h.act hm.of_append.of_append hsymbol
      -- Another symbol has another stem, so nothing that is seen of this one changes.
      · rw [if_neg hsymbol, List.append_nil]
        have hstem : fileStem symbol ≠ fileStem a.symbol := fun hstem => hsymbol (ha hstem.symm)
        obtain ⟨ds, reply, hact⟩ := act_eq_changes e a
        rw [hact]
        exact h.alike ((Alike.refl e symbol).changes_other hstem ds).symm
    obtain ⟨htakes, hapart', hakin'⟩ := ih hfirst (hapart.act ha) hrest (hm.akin hakin)
    exact ⟨htakes, hapart', hakin.trans hakin'⟩

end Engine

end Bourse
