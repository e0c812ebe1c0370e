import Bourse.Proofs.Lifetime.Returning
import Bourse.Proofs.Lifetime.Unhindered

/-!
# Delivery at least once and in order

At every moment of a symbol's life, whatever is left of its files can be recovered, and the outbox
that this rebuilds tells what its subscribers have got: `delivered_in_order`.
-/

namespace Bourse

/-- A command that is not too large adds events to an outbox. -/
theorem Journal.length_outboxBytes_lt {f : Format} {b : Book} {cs : List Command} {c : Command}
    (h : b.Modest (cs ++ [c])) :
    (outboxBytes f b cs).length < (outboxBytes f b (cs ++ [c])).length := by
  obtain ⟨hcs, hc, -⟩ := Book.modest_append.1 h
  rw [Actor.outboxBytes_append hcs, List.length_append]
  refine Nat.lt_add_of_pos_right ?_
  have hgroup : events (b.executeAll cs) (Actor.number (UInt64.ofNat cs.length) [c]) =
      group (b.executeAll cs) (UInt64.ofNat cs.length + 1, c) := by
    rw [events_cons_of_le hc]
    exact List.append_nil _
  rw [hgroup]
  rcases group_cases (b.executeAll cs) (UInt64.ofNat cs.length + 1, c) with
    ⟨-, front, last, hlast, -⟩ | ⟨hlt, -⟩
  · rw [hlast, Publisher.length_eventBytes_concat, Log.headerSize]
    omega
  · exact absurd hc (Nat.not_le.2 hlt)

variable {sv : Service} {ds all : List Command} {files : SymbolFiles} {kept : Nat}
  {published : List Event}

/-- Every command that the outbox closes is in the log. -/
theorem Rests.logged (h : Rests sv ds all files kept published) (hm : sv.fresh.Modest all) {t : Nat}
    (ht : t < all.length)
    (hclosed : (Journal.outboxBytes sv.format sv.fresh (all.take (t + 1))).length ≤
      files.outbox.size) :
    (Journal.logBytes sv.format (all.take (t + 1))).length ≤ files.log.size := by
  have hout := h.outbox.length_le
  rw [File.length_bytes] at hout
  have hds := List.prefix_iff_eq_take.1 h.secured
  have hlt : t < ds.length := by
    -- Otherwise the outbox would have more than the events of the secured commands.
    refine Nat.lt_of_not_le fun hle => ?_
    have hnext : all.take (t + 1) = all.take t ++ [all[t]] := List.take_succ_eq_append_getElem ht
    have hmodest : sv.fresh.Modest (all.take t ++ [all[t]]) := hnext ▸ hm.take (t + 1)
    have hmore := Journal.length_outboxBytes_lt (f := sv.format) hmodest
    have hsecured : ds <+: all.take t := by
      rw [hds]
      exact List.take_prefix_take_left hle
    have hbytes := (Journal.outboxBytes_prefix sv.format sv.fresh hsecured).length_le
    rw [hnext] at hclosed
    omega
  have hlog : all.take (t + 1) <+: ds := by
    rw [hds]
    exact List.take_prefix_take_left hlt
  exact Nat.le_trans (Journal.logBytes_prefix sv.format hlog).length_le h.here

/-- What is left when a session ends can be recovered. -/
theorem Rests.recovers (h : Rests sv ds all files kept published)
    (hall : sv.Admits sv.fresh 0 all) {o : Recovery.Options} (hlimit : sv.options.limit ≤ o.limit) :
    ∃ files' book r, Recovery.recover o sv.format files sv.fresh = ((files', book), .ok r) := by
  have hfits : Journal.Fits o.limit sv.format sv.fresh all :=
    { commands := fun p hp => Nat.le_trans (hall.commands p hp) hlimit
      events := fun e he => Nat.le_trans (hall.events e he) hlimit }
  have hreadable := Recovery.readable_of_cut (i := files.log.size) (j := files.outbox.size)
    (File.length_lt_of_inRange h.logRange (Nat.le_refl _)) hall.modest hfits h.logUsable
    h.outboxUsable (by rw [← File.length_bytes]; exact List.prefix_iff_eq_take.1 h.log)
    (by
      rw [← File.length_bytes]
      exact List.prefix_iff_eq_take.1
        (h.outbox.trans (Journal.outboxBytes_prefix sv.format sv.fresh h.secured)))
    fun t ht => h.logged hall.modest ht
  obtain ⟨files', book, r, hrecover, -⟩ :=
    Recovery.recover_readable hreadable (hall.modest.take _)
  exact ⟨files', book, r, hrecover⟩

/-- What a rebuilt outbox tells about the subscribers of a world. The stored cursor is at the
beginning of it or behind the end of a command, subscribers took every event before the cursor, and
without repetitions they took the first events of the outbox, in the order of their keys. -/
def World.Accounted (w : World) (f : Format) (rebuilt : File) : Prop :=
  ∃ es n, rebuilt.bytes = Journal.eventBytes f es ∧ w.outbox <+: rebuilt.bytes ∧
    es.Pairwise Event.Before ∧
    Cursor.load w.files.cursor = .ok (Journal.eventBytes f (es.take n)).length ∧
    Event.Closed (es.take n) ∧ (∀ e ∈ Event.business (es.take n), e ∈ w.published) ∧
    Event.firsts w.published <+: Event.business es

namespace World

/-- Take any moment in the life of a symbol, and any files that may be found when the session ends
there. They can be recovered, and the outbox that this rebuilds accounts for what subscribers got. -/
theorem delivered_in_order {w : World} (hw : Reaches sv true true fresh w)
    (hleaves : w.Leaves files) {o : Recovery.Options} (hlimit : sv.options.limit ≤ o.limit) :
    ∃ files' book r, Recovery.recover o sv.format files sv.fresh = ((files', book), .ok r) ∧
      w.Accounted sv.format files'.outbox := by
  obtain ⟨ds, all, -, hkeeps, hall⟩ := (keeps_fresh sv).run (fun _ => admits_nil sv) hw
  have hrests := hkeeps.rests hleaves
  obtain ⟨files', book, r, hrecover⟩ := hrests.recovers (hall rfl) hlimit
  obtain ⟨cs, hds, hcs, hlog, -, ⟨done, hdelivered⟩, hok⟩ := hrests.recover hrecover
  obtain ⟨-, hrestored, -⟩ := hok r rfl
  obtain ⟨back, hback, hclosed, hcursor⟩ := hdelivered.cursor
  have htake := List.prefix_iff_eq_take.1 (hback.trans hdelivered.journal)
  refine ⟨files', book, r, hrecover, Journal.events sv.fresh (Actor.number 0 cs), back.length,
    hrestored.outbox, ?_, ?_, ?_, ?_, ?_, ?_⟩
  · rw [hrestored.outbox]
    exact hkeeps.outbox.trans (Journal.outboxBytes_prefix sv.format sv.fresh hds)
  · refine Journal.pairwise_events ?_
    have := hcs.length_le
    have := File.length_lt_of_inRange hkeeps.logRange (Nat.le_refl _)
    show 0 + cs.length < UInt64.size
    omega
  · rw [← htake, ← hleaves.cursor]
    exact hcursor
  · rw [← htake]
    exact hclosed
  · intro e he
    rw [← htake] at he
    -- What lies before the cursor is among the events that subscribers got.
    have hgot := (Event.business_prefix hback).subset he
    rw [← hdelivered.received] at hgot
    exact Event.firsts_subset _ e hgot
  · rw [hdelivered.received]
    exact Event.business_prefix hdelivered.journal

/-- A session that begins before the first event delivers all of them, if they are no more than a
chunk. -/
theorem reaches_delivered (secure tame : Bool) {a : Actor Site} {cs : List Command}
    (h : a.Begins sv cs files kept published) (hcursor : files.cursor = .absent)
    (hscratch : files.scratch.Usable)
    (hrange : (Journal.outboxBytes sv.format sv.fresh cs).length ≤ File.maxPosition)
    (hall : sv.Admits sv.fresh 0 cs)
    (hlen : (Journal.events sv.fresh (Actor.number 0 cs)).length < Publisher.chunkSize)
    {last : Event} (hlast : (Journal.events sv.fresh (Actor.number 0 cs)).getLast? = some last)
    (hend : last.isCommandEnd = true) :
    ∃ s', Reaches sv secure tame (up a true) (up (a.withLogs s') true) ∧ a.logs.Beside s' ∧
      s'.published =
        published ++ Event.business (Journal.events sv.fresh (Actor.number 0 cs)) ∧
      Cursor.load s'.logs.files.cursor =
        .ok (Journal.outboxBytes sv.format sv.fresh cs).length := by
  have hload : Cursor.load a.logs.logs.files.cursor = .ok 0 := by
    rw [h.cursor, hcursor]
    rfl
  obtain ⟨s', hadvance, hbeside, hpublished, hstored⟩ := Site.publish_all []
    (Journal.events sv.fresh (Actor.number 0 cs)) h.progress hload h.logs.outbox.regular h.outbox
    (by rw [← File.length_bytes, h.outbox]; exact hrange)
    (by rw [h.maxPayload]; exact hall.events) hlen hlast hend
    (by rw [h.cursor, hcursor]; exact Or.inl rfl) (by rw [h.scratch]; exact hscratch)
  refine ⟨s', ?_, hbeside, by rw [hpublished, h.published], hstored⟩
  rw [← hadvance]
  exact .tail (.single (.publish {})) (.publish _)

/-- A blank request is rejected, and subscribers take the rejection. -/
theorem reaches_rejected (secure : Bool) (request : UInt64) :
    ∃ a, Reaches .standard secure true fresh (up a true) ∧
      a.logs.logs.Holds (Journal.logBytes .binary [.blank request])
        (Journal.outboxBytes .binary {} [.blank request]) ∧
      a.logs.kept = (if secure then 75 else 0) ∧
      a.logs.published =
        [{ seq := 1, idx := 0, request, kind := .rejected 0 0 .badCancel }] ∧
      Cursor.load a.logs.logs.files.cursor = .ok 152 := by
  obtain ⟨a, hreaches, hbegins⟩ := reaches_blank secure true .absent [] request
  have hout := Journal.length_outboxBytes_blank {} request
  have hrange : (Journal.outboxBytes .binary {} [.blank request]).length ≤ File.maxPosition := by
    rw [hout]
    decide
  have hlen : (Journal.events {} (Actor.number 0 [.blank request])).length <
      Publisher.chunkSize := by
    show 2 < Publisher.chunkSize
    decide
  have hlast : (Journal.events {} (Actor.number 0 [.blank request])).getLast? =
      some { seq := 1, idx := 1, request, kind := .commandEnd } := rfl
  obtain ⟨s', hpublish, hbeside, hpublished, hstored⟩ :=
    reaches_delivered secure true hbegins rfl (Or.inl rfl) hrange
      (Service.admits_blank _ _ request) hlen hlast rfl
  refine ⟨a.withLogs s', hreaches.trans hpublish, ?_, ?_, hpublished, ?_⟩
  · show s'.logs.Holds _ _
    rw [hbeside.logs]
    exact { hbegins.logs with }
  · show s'.kept = _
    rw [hbeside.kept]
    exact hbegins.kept
  · show Cursor.load s'.logs.files.cursor = _
    rw [hstored]
    exact congrArg Except.ok hout

/-- Subscribers took a rejection; then the session ends, and the outbox is lost. -/
theorem delivered_in_order_rejection :
    ∃ w files files' book r, Reaches .standard true true fresh w ∧ w.Leaves files ∧
      files.outbox = .absent ∧ w.published.length = 1 ∧
      Recovery.recover {} .binary files {} = ((files', book), .ok r) ∧
      w.Accounted .binary files'.outbox := by
  obtain ⟨a, hreaches, hholds, hkept, hpublished, -⟩ := reaches_rejected true 1
  have hleaves : (up a true).Leaves
      (a.logs.logs.leftover (Journal.logBytes .binary [.blank 1])) := by
    refine leaves_leftover hholds (Nat.le_of_eq ?_)
    rw [hkept, Journal.length_logBytes_blank]
    rfl
  obtain ⟨files', book, r, hrecover, haccounted⟩ :=
    delivered_in_order hreaches hleaves (Nat.le_refl _)
  exact ⟨_, _, files', book, r, hreaches, hleaves, rfl, congrArg List.length hpublished, hrecover,
    haccounted⟩

/-- An event is never delivered if a crash may take from the log what a recovery has read: the
event lies before a cursor that was stored for another one, which was lost. -/
theorem undelivered_after_loss :
    ∃ w files files' book r, Reaches .standard false true fresh w ∧ w.Leaves files ∧
      Recovery.recover {} .binary files {} = ((files', book), .ok r) ∧
      ¬ w.Accounted .binary files'.outbox := by
  obtain ⟨a, hreaches, -, hkept, hpublished, hcursor⟩ := reaches_rejected false 1
  -- Nothing was ever flushed. The crash takes all of both logs, and the cursor stays.
  have hlost := Step.loses .standard false true true hkept
  obtain ⟨a', hreaches', hbegins'⟩ :=
    reaches_blank false true a.logs.logs.files.cursor a.logs.published 2
  have hleaves : (up a' true).Leaves
      (a'.logs.logs.leftover (Journal.logBytes .binary [.blank 2])) := by
    refine leaves_leftover hbegins'.logs ?_
    rw [hbegins'.kept]
    exact Nat.zero_le _
  have hadmits := Service.admits_blank {} 0 2
  have hlog := Journal.length_logBytes_blank 2
  obtain ⟨files', book, r, hrecover, hrestored, -⟩ := Recovery.recover_readable
    (readable_leftover hadmits (Nat.le_trans (Nat.le_of_eq hlog) (by decide))) hadmits.modest
  refine ⟨_, _, files', book, r, hreaches.trans (.trans (.single hlost) hreaches'), hleaves,
    hrecover, ?_⟩
  rintro ⟨es, n, hes, -, -, hload, -, htaken, -⟩
  -- The cursor is behind the rejection of the second request.
  have hevents : es = Journal.events {} (Actor.number 0 [.blank 2]) := by
    rw [hrestored.outbox] at hes
    exact (Journal.eq_of_eventBytes_eq hes).symm
  have hstored : Cursor.load (up a' true).files.cursor = .ok 152 := by
    show Cursor.load a'.logs.logs.files.cursor = _
    rw [hbegins'.cursor]
    exact hcursor
  rw [hstored, Journal.length_eventBytes_binary] at hload
  injection hload with hload
  have hall : es.take n = es := by
    refine (List.take_prefix n es).eq_of_length ?_
    rw [hevents, Journal.events_blank] at hload ⊢
    show (List.take n _).length = 2
    omega
  rw [hall, hevents] at htaken
  -- Subscribers took only the rejection of the first one.
  have hgot := htaken { seq := 1, idx := 0, request := 2, kind := .rejected 0 0 .badCancel }
    List.mem_cons_self
  change _ ∈ a'.logs.published at hgot
  rw [hbegins'.published, hpublished, List.mem_singleton] at hgot
  cases hgot

end World

end Bourse
