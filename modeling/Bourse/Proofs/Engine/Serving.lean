import Bourse.Proofs.Engine.Draining
import Bourse.Proofs.Recovery.Restarting

/-!
# A symbol in a session

While an engine is open a symbol is unused, with files that were `Settled` by the sessions before, or
its actor and its publisher have come some way: the actor has executed the first of the commands that
were sent, and the publisher has handed on the first of their events (`Engine.Serves`). Nothing that
happens to the symbol ends that, and the shutdown settles the files with all commands and hands on
all events that are left.
-/

namespace Bourse

open Recovery

/-! ## Commands that can be kept -/

/-- No command has too many events, every record is within the limit of a reader, and both logs are
within the range of positions. -/
structure Journal.Serviceable (limit : Nat) (f : Format) (fresh : Book) (cs : List Command) :
    Prop where
  modest : fresh.Modest cs
  fits : Fits limit f fresh cs
  logRange : (logBytes f cs).length ≤ File.maxPosition
  outboxRange : (outboxBytes f fresh cs).length ≤ File.maxPosition

namespace Journal

variable {limit : Nat} {f : Format} {fresh : Book} {cs ds : List Command}

theorem Serviceable.mono (h : Serviceable limit f fresh cs) (hd : ds <+: cs) :
    Serviceable limit f fresh ds where
  modest := by
    rw [List.prefix_iff_eq_take.1 hd]
    exact h.modest.take _
  fits := by
    rw [List.prefix_iff_eq_take.1 hd]
    exact h.fits.take _
  logRange := Nat.le_trans (Journal.logBytes_prefix f hd).length_le h.logRange
  outboxRange := Nat.le_trans (Journal.outboxBytes_prefix f fresh hd).length_le h.outboxRange

theorem Serviceable.numbered (h : Serviceable limit f fresh cs) : cs.length < UInt64.size :=
  File.length_lt_of_inRange h.logRange (Nat.le_refl _)

/-- The events of commands that are numbered from the beginning. -/
def history (fresh : Book) (cs : List Command) : List Event :=
  events fresh (Actor.number 0 cs)

theorem history_prefix (fresh : Book) (h : ds <+: cs) : history fresh ds <+: history fresh cs := by
  obtain ⟨more, rfl⟩ := h
  rw [history, history, Actor.number_append]
  exact events_prefix ..

theorem closedPart_history (h : fresh.Modest cs) :
    Event.closedPart (history fresh cs) = history fresh cs :=
  closedPart_events h

/-- Binary records are within the limit of any usual reader. -/
theorem serviceable_binary (hlimit : 68 ≤ limit) (hm : fresh.Modest cs)
    (hlog : 75 * cs.length ≤ File.maxPosition)
    (houtbox : 76 * (history fresh cs).length ≤ File.maxPosition) :
    Serviceable limit .binary fresh cs where
  modest := hm
  fits := fits_binary hlimit fresh cs
  logRange := by
    rw [length_logBytes_binary]
    exact hlog
  outboxRange := by
    rw [outboxBytes, length_eventBytes_binary]
    exact houtbox

/-- What a publisher does not hand on again. -/
def resumed (fresh : Book) (lasting : Bool) (cs : List Command) : List Event :=
  if lasting then history fresh cs else []

theorem resumed_prefix (fresh : Book) (lasting : Bool) (cs : List Command) :
    resumed fresh lasting cs <+: history fresh cs := by
  unfold resumed
  split
  · exact List.prefix_refl _
  · exact List.nil_prefix

end Journal

/-! ## Between two sessions -/

/-- The files of a symbol when all sessions so far were shut down. -/
structure SymbolFiles.Settled (files : SymbolFiles) (f : Format) (fresh : Book) (lasting : Bool)
    (cs : List Command) : Prop where
  keeps : files.Keeps f fresh cs
  marks : files.Marks (Journal.outboxBytes f fresh cs).length lasting
  unused : cs = [] → files.log = .absent ∧ files.outbox = .absent ∧ files.cursor = .absent

/-! ## A symbol in use -/

namespace SymbolLogs

variable {s : SymbolLogs} {files files' : SymbolFiles} {log outbox : Bytes}

theorem refresh_self (s : SymbolLogs) : s.refresh s.files = s := by
  rw [refresh, ite_self, ite_self]

/-- The cursor is none of the logs' business. -/
theorem Holds.refresh (h : (s.refresh files).Holds log outbox) (hlog : files'.log = files.log)
    (hout : files'.outbox = files.outbox) : (s.refresh files').Holds log outbox := by
  obtain ⟨hl, hlt, ho, hot⟩ := h
  refine ⟨?_, hlt, ?_, hot⟩
  · show s.log.Holds (if s.logGone then s.files.log else files'.log) log
    rw [hlog]
    exact hl
  · show s.outbox.Holds (if s.outboxGone then s.files.outbox else files'.outbox) outbox
    rw [hout]
    exact ho

/-- What was written stands at the paths of the symbol once it was saved. -/
theorem Holds.save (h : s.Holds log outbox) (files : SymbolFiles) :
    (s.save files).log = s.files.log ∧ (s.save files).outbox = s.files.outbox ∧
      (s.refresh (s.save files)).Holds log outbox := by
  have hlog : (s.save files).log = s.files.log := by
    rw [SymbolLogs.save, h.logThere]
    rfl
  have hout : (s.save files).outbox = s.files.outbox := by
    rw [SymbolLogs.save, h.outboxThere]
    rfl
  refine ⟨hlog, hout, ?_⟩
  rw [← s.refresh_self] at h
  exact h.refresh hlog hout

end SymbolLogs

namespace RunningSymbol

/-- The actor of a symbol has executed these commands, and its publisher has handed on the first of
their events. -/
structure Serves (r : RunningSymbol) (files : SymbolFiles) (f : Format) (fresh : Book)
    (lasting : Bool) (maxPayload : Nat) (cs : List Command) (front : List Event) : Prop where
  actor : (r.actorOn files).Served f fresh cs
  outbox : files.outbox.bytes = Journal.eventBytes f (Journal.history fresh cs)
  running : r.halted = false
  journal : front <+: Journal.history fresh cs
  progress : ∃ p, r.progress = some p ∧ p.Stands f maxPayload lasting files front

variable {r : RunningSymbol} {files : SymbolFiles} {f : Format} {fresh : Book} {lasting : Bool}
  {maxPayload : Nat} {cs : List Command} {front : List Event}

theorem Serves.there (h : r.Serves files f fresh lasting maxPayload cs front) :
    r.actor.logs.logGone = false ∧ r.actor.logs.outboxGone = false :=
  ⟨h.actor.logs.logThere, h.actor.logs.outboxThere⟩

theorem Serves.regular (h : r.Serves files f fresh lasting maxPayload cs front) :
    files.outbox.isRegular := by
  have hregular : (if r.actor.logs.outboxGone then r.actor.logs.files.outbox
      else files.outbox).isRegular := h.actor.logs.outbox.regular
  rwa [h.there.2] at hregular

end RunningSymbol

/-! ## Taking up a symbol -/

theorem Directory.filesOf_setFiles (d : Directory) (symbol other : String) (files : SymbolFiles) :
    (d.setFiles symbol files).filesOf other =
      if fileStem other = fileStem symbol then files else d.filesOf other := by
  unfold filesOf setFiles
  dsimp only
  rw [Std.TreeMap.getElem?_insert]
  by_cases h : fileStem other = fileStem symbol
  · rw [if_pos h, h, if_pos Std.ReflCmp.compare_self]
  · rw [if_neg h, if_neg fun hc => h (Std.LawfulEqCmp.eq_of_compare hc).symm]

namespace Engine

variable {e : Engine} {symbol : String} {fresh : Book} {lasting : Bool} {cs : List Command}

/-- A symbol with settled files is taken up. -/
theorem start_serves (hbook : e.fresh symbol = some fresh) (hpublishing : e.config.publishing = true)
    (hfiles : (e.directory.filesOf symbol).Settled e.format fresh lasting cs)
    (hs : Journal.Serviceable (readOptions e.config.maxPayload).limit e.format fresh cs) :
    ∃ files r, e.start symbol =
        ({ e with directory := e.directory.setFiles symbol files }, .ok r) ∧
      r.mailbox = { capacity := e.config.mailboxSize } ∧
      r.Serves files e.format fresh lasting e.config.maxPayload cs
        (Journal.resumed fresh lasting cs) := by
  obtain ⟨complete, hreadable⟩ := Recovery.readable_of_keeps (o := e.config.options) hfiles.keeps
    hs.numbered hs.fits
  obtain ⟨files, book, r, hrecover, hrestored, -, -, hcursor, hscratch⟩ :=
    Recovery.recover_readable hreadable hs.modest
  have hmarks : files.Marks (Journal.eventBytes e.format (Journal.history fresh cs)).length
      lasting := hfiles.marks.congr hcursor hscratch
  have hsize : files.outbox.size =
      (Journal.eventBytes e.format (Journal.history fresh cs)).length := by
    rw [← File.length_bytes, hrestored.outbox]
    rfl
  obtain ⟨p, hstart, hp⟩ := Publisher.start_stands (Journal.closedPart_history hs.modest) hmarks
    (Nat.le_of_eq hsize.symm) (hsize ▸ hs.outboxRange) e.config.maxPayload
  unfold start
  rw [hbook]
  dsimp only
  rw [hrecover]
  dsimp only
  rw [if_pos hpublishing, hstart]
  refine ⟨files, _, rfl, rfl, ?_⟩
  exact
    { actor :=
        { storage := rfl
          format := rfl
          book := hrestored.book
          lastSeq := hrestored.lastSeq
          logs := by
            show (r.logs.refresh files).Holds _ _
            rw [← hrestored.files, SymbolLogs.refresh_self]
            exact hrestored.logs }
      outbox := hrestored.outbox
      running := rfl
      journal := Journal.resumed_prefix ..
      progress := ⟨p, rfl, hp⟩ }

/-! ## An engine with one symbol -/

/-- An engine of which one symbol may be in use. -/
structure Dedicated (e : Engine) (f : Format) (symbol : String) (fresh : Book) : Prop where
  opened : e.closed = false
  format : e.format = f
  book : e.fresh symbol = some fresh
  publishing : e.config.publishing = true
  alone : ∀ other, other ≠ symbol → e.running[other]? = none

/-- How far a symbol is in a session. After the commands `old` of earlier sessions the commands
`given` were sent, and of their events these are published. -/
inductive Serves (e : Engine) (f : Format) (symbol : String) (fresh : Book) (lasting : Bool)
    (old : List Command) : (given : List Command) → (published : List Event) → Prop where
  | unused (dedicated : e.Dedicated f symbol fresh) (running : e.running[symbol]? = none)
      (settled : (e.directory.filesOf symbol).Settled f fresh lasting old) :
      Serves e f symbol fresh lasting old [] []
  | used {r : RunningSymbol} {cs given : List Command} {more : List Event}
      (dedicated : e.Dedicated f symbol fresh) (running : e.running[symbol]? = some r)
      (serves : r.Serves (e.directory.filesOf symbol) f fresh lasting e.config.maxPayload cs
        (Journal.resumed fresh lasting old ++ more))
      (capacity : r.mailbox.capacity = e.config.mailboxSize) (begun : old <+: cs)
      (queue : cs ++ r.mailbox.queue = old ++ given) (given_ne : given ≠ []) :
      Serves e f symbol fresh lasting old given (Event.business more)

variable {f : Format} {old given : List Command} {published : List Event} {c : Command}

theorem Serves.dedicated (h : e.Serves f symbol fresh lasting old given published) :
    e.Dedicated f symbol fresh := by
  cases h <;> assumption

/-- Other files and another state of the symbol make no difference to what an engine is for. -/
theorem Dedicated.update (h : e.Dedicated f symbol fresh) (directory : Directory)
    (r : RunningSymbol) :
    ({ e with directory, running := e.running.insert symbol r } : Engine).Dedicated f symbol
      fresh where
  opened := h.opened
  format := h.format
  book := h.book
  publishing := h.publishing
  alone other hne := by
    show (e.running.insert symbol r)[other]? = none
    rw [Std.TreeMap.getElem?_insert, if_neg, h.alone other hne]
    intro heq
    exact hne (Std.LawfulEqCmp.eq_of_compare heq).symm

theorem getElem?_insert_self (running : Std.TreeMap String RunningSymbol) (symbol : String)
    (r : RunningSymbol) : (running.insert symbol r)[symbol]? = some r := by
  rw [Std.TreeMap.getElem?_insert, if_pos Std.ReflCmp.compare_self]

/-! ### Commands -/

/-- The engine when a command was queued. -/
def posted (e : Engine) (symbol : String) (r : RunningSymbol) (c : Command) : Engine :=
  { e with
    running := e.running.insert symbol
      { r with mailbox := { r.mailbox with queue := r.mailbox.queue ++ [c] } } }

theorem post_of_ok {r : RunningSymbol} (h : (e.post symbol r c).2 = .ok ()) :
    e.post symbol r c = (e.posted symbol r c, .ok ()) := by
  unfold post Mailbox.send? at h ⊢
  split at h
  · cases h
  · next hhalted =>
    rw [if_neg hhalted]
    split at h
    · next hsend =>
      split at hsend
      · injection hsend with hsend
        rw [← hsend]
        rfl
      · cases hsend
    · cases h

theorem post_of_lt {r : RunningSymbol} (hrunning : r.halted = false)
    (hroom : r.mailbox.queue.length < max r.mailbox.capacity 1) :
    (e.post symbol r c).2 = .ok () := by
  unfold post Mailbox.send?
  rw [if_neg (by rw [hrunning]; exact Bool.false_ne_true), if_pos hroom]

theorem Serves.post {r : RunningSymbol} {cs : List Command} {more : List Event}
    (hd : e.Dedicated f symbol fresh)
    (hserves : r.Serves (e.directory.filesOf symbol) f fresh lasting e.config.maxPayload cs
      (Journal.resumed fresh lasting old ++ more))
    (hcapacity : r.mailbox.capacity = e.config.mailboxSize) (hbegun : old <+: cs)
    (hqueue : cs ++ r.mailbox.queue = old ++ given) (c : Command) :
    (e.posted symbol r c).Serves f symbol fresh lasting old (given ++ [c])
      (Event.business more) := by
  refine .used (hd.update e.directory _) (getElem?_insert_self ..) ?_ hcapacity hbegun ?_ (by simp)
  · exact ⟨hserves.actor, hserves.outbox, hserves.running, hserves.journal, hserves.progress⟩
  · show cs ++ (r.mailbox.queue ++ [c]) = old ++ (given ++ [c])
    rw [← List.append_assoc, hqueue, List.append_assoc]

/-- A command that is taken waits behind those sent before. -/
theorem Serves.enqueue (h : e.Serves f symbol fresh lasting old given published)
    (hs : Journal.Serviceable (readOptions e.config.maxPayload).limit f fresh old)
    (hok : (e.enqueue symbol c).2 = .ok ()) :
    (e.enqueue symbol c).1.Serves f symbol fresh lasting old (given ++ [c]) published ∧
      (e.enqueue symbol c).1.config = e.config := by
  obtain ⟨hopened, hformat, hbook, hpublishing, halone⟩ := h.dedicated
  unfold Engine.enqueue at hok ⊢
  split at hok
  · cases hok
  · next hne =>
    rw [if_neg hne]
    rw [if_neg (by rw [hopened]; exact Bool.false_ne_true)] at hok ⊢
    cases h with
    | unused dedicated running settled =>
      rw [running] at hok ⊢
      dsimp only at hok ⊢
      subst hformat
      rcases hstart : e.start symbol with ⟨e', _ | r⟩
      · rw [hstart] at hok
        cases hok
      · obtain ⟨files, r', hstart', hmailbox, hserves⟩ :=
          start_serves hbook hpublishing settled hs
        rw [hstart] at hok hstart'
        obtain ⟨rfl, hsame⟩ := Prod.mk.inj hstart'
        injection hsame with hsame
        subst hsame
        simp only [Attempt.andThen] at hok ⊢
        rw [post_of_ok hok]
        refine ⟨?_, rfl⟩
        have hd' : ({ e with directory := e.directory.setFiles symbol files } : Engine).Dedicated
            e.format symbol fresh := ⟨hopened, rfl, hbook, hpublishing, halone⟩
        have hfiles : (e.directory.setFiles symbol files).filesOf symbol = files := by
          rw [Directory.filesOf_setFiles, if_pos rfl]
        rw [← List.append_nil (Journal.resumed fresh lasting old), ← hfiles] at hserves
        have hqueue : old ++ r.mailbox.queue = old ++ [] := by rw [hmailbox]
        exact (Serves.post hd' hserves (by rw [hmailbox]) (List.prefix_refl _) hqueue c :)
    | used dedicated running serves capacity begun queue given_ne =>
      rw [running] at hok ⊢
      dsimp only at hok ⊢
      rw [post_of_ok hok]
      exact ⟨Serves.post dedicated serves capacity begun queue c, rfl⟩

/-- No command is refused while fewer were sent than can wait. -/
theorem Serves.enqueue_accepts (h : e.Serves f symbol fresh lasting old given published)
    (hs : Journal.Serviceable (readOptions e.config.maxPayload).limit f fresh old)
    (hsymbol : symbol.isEmpty = false) (hlen : given.length < max e.config.mailboxSize 1) (c : Command) :
    (e.enqueue symbol c).2 = .ok () := by
  obtain ⟨hopened, hformat, hbook, hpublishing, -⟩ := h.dedicated
  unfold Engine.enqueue
  rw [if_neg (by rw [hsymbol]; exact Bool.false_ne_true),
    if_neg (by rw [hopened]; exact Bool.false_ne_true)]
  cases h with
  | unused dedicated running settled =>
    rw [running]
    subst hformat
    obtain ⟨files, r, hstart, hmailbox, hserves⟩ :=
      start_serves hbook hpublishing settled hs
    dsimp only
    rw [hstart]
    refine post_of_lt hserves.running ?_
    rw [hmailbox]
    exact Nat.lt_of_lt_of_le Nat.zero_lt_one (Nat.le_max_right ..)
  | used dedicated running serves capacity begun queue given_ne =>
    rw [running]
    refine post_of_lt serves.running ?_
    have hqueue := congrArg List.length queue
    rw [List.length_append, List.length_append] at hqueue
    have hbegun := begun.length_le
    rw [capacity]
    omega

/-! ### The actor -/

/-- The actor executes what waits, and its events are in the file of the outbox then. -/
theorem Serves.wake (h : e.Serves f symbol fresh lasting old given published)
    (hm : fresh.Modest (old ++ given)) (most : Nat) :
    (e.wake symbol most).Serves f symbol fresh lasting old given published ∧
      (e.wake symbol most).config = e.config := by
  unfold Engine.wake
  cases h with
  | unused dedicated running settled =>
    rw [running]
    exact ⟨.unused dedicated running settled, rfl⟩
  | @used r cs given more dedicated running serves capacity begun queue given_ne =>
    rw [running]
    dsimp only
    by_cases hidle : (r.halted || r.mailbox.queue.isEmpty) = true
    · rw [if_pos hidle]
      exact ⟨.used dedicated running serves capacity begun queue given_ne, rfl⟩
    · rw [if_neg hidle]
      let size := max 1 (min most (r.actorOn (e.directory.filesOf symbol)).batchSize)
      let batch := r.mailbox.queue.take size
      have hbatch : cs ++ batch <+: old ++ given := by
        rw [← queue]
        exact (List.prefix_append_right_inj cs).2 (List.take_prefix ..)
      have hmodest : fresh.Modest (cs ++ batch) := by
        rw [List.prefix_iff_eq_take.1 hbatch]
        exact hm.take _
      obtain ⟨a, hcommit, hserved, hflushed⟩ := serves.actor.commit hmodest
      rw [hcommit]
      dsimp only
      refine ⟨?_, rfl⟩
      obtain ⟨-, hout, hsaved⟩ := hserved.logs.save (e.directory.filesOf symbol)
      have hfiles : (e.directory.setFiles symbol (a.logs.save (e.directory.filesOf symbol))).filesOf
          symbol = a.logs.save (e.directory.filesOf symbol) := by
        rw [Directory.filesOf_setFiles, if_pos rfl]
      refine .used (dedicated.update _ _) (getElem?_insert_self ..) ?_ capacity
        (begun.trans (List.prefix_append cs batch)) ?_ given_ne
      · show RunningSymbol.Serves _ (Directory.filesOf (e.directory.setFiles symbol _) symbol)
          _ _ _ _ (cs ++ batch) _
        rw [hfiles]
        obtain ⟨p, hp, hstands⟩ := serves.progress
        refine
          { actor :=
              { storage := hserved.storage
                format := hserved.format
                book := hserved.book
                lastSeq := hserved.lastSeq
                logs := hsaved }
            outbox := ?_
            running := serves.running
            journal := serves.journal.trans (Journal.history_prefix fresh (List.prefix_append ..))
            progress := ⟨p, hp, ?_⟩ }
        · rw [hout]
          exact hflushed
        · refine hstands.grow ?_ rfl rfl
          rw [hout, hflushed, serves.outbox]
          exact Journal.outboxBytes_prefix f fresh (List.prefix_append ..)
      · show cs ++ batch ++ r.mailbox.queue.drop _ = _
        rw [List.append_assoc, List.take_append_drop]
        exact queue

/-! ### The publisher -/

/-- The publisher hands on some of the next events. -/
theorem Serves.publish (h : e.Serves f symbol fresh lasting old given published)
    (hs : Journal.Serviceable (readOptions e.config.maxPayload).limit f fresh (old ++ given))
    (seen : Nat) :
    (e.publish symbol seen).1.Serves f symbol fresh lasting old given
        (published ++ (e.publish symbol seen).2) ∧
      (e.publish symbol seen).1.config = e.config := by
  unfold Engine.publish
  cases h with
  | unused dedicated running settled =>
    rw [running]
    exact ⟨.unused dedicated running settled, rfl⟩
  | @used r cs given more dedicated running serves capacity begun queue given_ne =>
    obtain rfl := dedicated.format
    obtain ⟨p, hp, hstands⟩ := serves.progress
    have hcs : cs <+: old ++ given := by
      rw [← queue]
      exact List.prefix_append ..
    have hs' := hs.mono hcs
    have hrange : (e.directory.filesOf symbol).outbox.size ≤ File.maxPosition := by
      rw [← File.length_bytes, serves.outbox]
      exact hs'.outboxRange
    obtain ⟨p', drain, next, hadvance, hjournal, hstands', hpublished, hlog, hout⟩ :=
      Publisher.advance_stands hstands serves.regular serves.outbox serves.journal hs'.fits.events
        hrange seen
    rw [running]
    dsimp only
    rw [if_pos dedicated.publishing, hp, hadvance]
    dsimp only
    rw [hpublished, ← Event.business_append]
    refine ⟨.used (dedicated.update _ _) (getElem?_insert_self ..) ?_ capacity begun queue given_ne,
      rfl⟩
    rw [List.append_assoc] at hjournal hstands'
    have hfiles : (e.directory.setFiles symbol drain.files).filesOf symbol = drain.files := by
      rw [Directory.filesOf_setFiles, if_pos rfl]
    show RunningSymbol.Serves _ (Directory.filesOf (e.directory.setFiles symbol _) symbol)
      _ _ _ _ _ _
    rw [hfiles]
    exact
      { actor :=
          { storage := serves.actor.storage
            format := serves.actor.format
            book := serves.actor.book
            lastSeq := serves.actor.lastSeq
            logs := serves.actor.logs.refresh hlog hout }
        outbox := by rw [hout, serves.outbox]
        running := serves.running
        journal := hjournal
        progress := ⟨p', rfl, hstands'⟩ }

end Engine

end Bourse
