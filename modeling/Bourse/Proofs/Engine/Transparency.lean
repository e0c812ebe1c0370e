import Bourse.Proofs.Engine.Closing

/-!
# Restarts that nobody notices

Files that sessions leave settled are decided by the commands alone, and so is what the sessions have
published until then. However commands are spread over sessions, an engine that is shut down and
opened again is therefore like one that was never shut down: `restarts_unnoticed`. That takes a
cursor that can be stored. The name of its scratch file is the longest of all; if it is too long the
logs are kept and every session begins to publish from the first event, so that subscribers get
events again: `republished_after_restart`.
-/

namespace Bourse

open Recovery

/-! ## Names of files -/

/-- Most bytes that a stem can have if every file with it can be named. -/
def SymbolPaths.longestStem : Nat := 241

/-- Most bytes that a stem can have if all files but the scratch file can be named. -/
def SymbolPaths.longestUsable : Nat := 245

namespace SymbolFiles

open SymbolPaths

/-- Where nothing was put, the scratch file is the first that cannot be named. -/
theorem vacant_eq {stem : String} (h : stem.utf8ByteSize ≤ longestUsable) :
    vacant stem =
      { scratch := if stem.utf8ByteSize ≤ longestStem then .absent else .unnameable } := by
  have hlog : ".wal".utf8ByteSize = 4 := by decide
  have houtbox : ".ev.wal".utf8ByteSize = 7 := by decide
  have hcursor : ".ev.cursor".utf8ByteSize = 10 := by decide
  have hscratch : ".ev.cursor.tmp".utf8ByteSize = 14 := by decide
  unfold longestUsable at h
  unfold vacant ofStem File.vacant File.maxName longestStem
  simp only [String.utf8ByteSize_append, hlog, houtbox, hcursor, hscratch]
  rw [if_neg (by omega), if_neg (by omega), if_neg (by omega)]
  congr 1
  split
  · rw [if_neg (by omega)]
  · rw [if_pos (by omega)]

/-- The files in an empty directory are settled. -/
theorem settled_empty {symbol : String} (h : (fileStem symbol).utf8ByteSize ≤ longestUsable)
    (f : Format) (fresh : Book) :
    ((∅ : Directory).filesOf symbol).Settled f fresh
      (decide ((fileStem symbol).utf8ByteSize ≤ longestStem)) [] := by
  have hfiles : (∅ : Directory).filesOf symbol = vacant (fileStem symbol) := rfl
  rw [hfiles, vacant_eq h]
  refine ⟨⟨Or.inl rfl, rfl, Or.inl rfl, rfl⟩, ?_, fun _ => ⟨rfl, rfl, rfl⟩⟩
  by_cases hstem : (fileStem symbol).utf8ByteSize ≤ longestStem
  · rw [decide_eq_true hstem, if_pos hstem]
    exact .unset rfl rfl rfl
  · rw [decide_eq_false hstem, if_neg hstem]
    exact .unstorable rfl rfl

end SymbolFiles

/-! ## Settled files are all alike -/

namespace SymbolFiles

variable {f : Format} {fresh : Book} {cs : List Command}

theorem Settled.eq {files files' : SymbolFiles} (h : files.Settled f fresh true cs)
    (h' : files'.Settled f fresh true cs) (hm : fresh.Modest cs) : files = files' := by
  have hscratch {files : SymbolFiles} (h : files.Settled f fresh true cs) :
      files.scratch = .absent := by
    cases h.marks <;> assumption
  obtain ⟨log, outbox, cursor, scratch⟩ := files
  obtain ⟨log', outbox', cursor', scratch'⟩ := files'
  obtain rfl : scratch = scratch' := (hscratch h).trans (hscratch h').symm
  by_cases hcs : cs = []
  · obtain ⟨hlog, houtbox, hcursor⟩ := h.unused hcs
    obtain ⟨hlog', houtbox', hcursor'⟩ := h'.unused hcs
    obtain rfl : log = log' := hlog.trans hlog'.symm
    obtain rfl : outbox = outbox' := houtbox.trans houtbox'.symm
    obtain rfl : cursor = cursor' := hcursor.trans hcursor'.symm
    rfl
  -- A command has a record in the log, an event in the outbox, and a cursor behind that.
  · have hpos : 0 < cs.length := List.length_pos_iff.2 hcs
    have hlogPos := Journal.length_le_logBytes f cs
    have houtboxPos : cs.length ≤ (Journal.outboxBytes f fresh cs).length := by
      refine Nat.le_trans ?_ (Journal.length_le_eventBytes f (Journal.history fresh cs))
      exact @countP_events fresh 0 cs hm ▸ List.countP_le_length
    have hregular {file : File} {bytes : Bytes} (hb : file.bytes = bytes)
        (hle : cs.length ≤ bytes.length) : file.isRegular := by
      refine File.isRegular_of_bytes fun hnil => ?_
      rw [← hb, hnil, List.length_nil] at hle
      omega
    have hcursor {files : SymbolFiles} (h : files.Settled f fresh true cs) :
        files.cursor = .ofBytes (Cursor.encode (Journal.outboxBytes f fresh cs).length) := by
      cases h.marks with
      | unset _ _ hstart => omega
      | stored _ hcursor => exact hcursor
    obtain rfl : log = log' := File.eq_of_bytes_eq (hregular h.keeps.log hlogPos)
      (hregular h'.keeps.log hlogPos) (h.keeps.log.trans h'.keeps.log.symm)
    obtain rfl : outbox = outbox' := File.eq_of_bytes_eq (hregular h.keeps.outbox houtboxPos)
      (hregular h'.keeps.outbox houtboxPos) (h.keeps.outbox.trans h'.keeps.outbox.symm)
    obtain rfl : cursor = cursor' := (hcursor h).trans (hcursor h').symm
    rfl

end SymbolFiles

namespace Engine

variable {f : Format} {symbol : String} {fresh : Book} {books : String → Option Book}

/-! ## One session after the other -/

section Sessions

variable {directory : Directory} {old : List Command} (ss : List Session)

/-- What sessions leave settled, and what was published until then. -/
theorem sessions_settled (hbook : books symbol = some fresh) (hserves : ∀ s ∈ ss, s.Serves symbol)
    (hfiles : (directory.filesOf symbol).Settled f fresh true old)
    (hs : ∀ s ∈ ss, Journal.Serviceable (readOptions s.config.maxPayload).limit f fresh
      (old ++ ss.flatMap (·.commands symbol)))
    (hok : ∀ report ∈ (sessions f books directory ss).2, ∀ reply ∈ report.replies,
      reply.2.answer = .ok ()) :
    ((sessions f books directory ss).1.filesOf symbol).Settled f fresh true
        (old ++ ss.flatMap (·.commands symbol)) ∧
      Event.business (Journal.history fresh old) ++
          (sessions f books directory ss).2.flatMap (·.published symbol) =
        Event.business (Journal.history fresh (old ++ ss.flatMap (·.commands symbol))) := by
  induction ss generalizing directory old with
  | nil =>
    simp only [sessions_nil, List.flatMap_nil, List.append_nil]
    exact ⟨hfiles, trivial⟩
  | cons s rest ih =>
    rw [List.flatMap_cons, ← List.append_assoc] at hs ⊢
    have hfirst := hs s List.mem_cons_self
    obtain ⟨hsettled, -, hnone, hsome⟩ := Session.run_settled hbook (hserves s List.mem_cons_self)
      hfiles (hfirst.mono (List.prefix_append ..)) (hok _ List.mem_cons_self)
    obtain ⟨hfinal, hrest⟩ := ih (fun s hmem => hserves s (List.mem_cons_of_mem _ hmem)) hsettled
      (fun s hmem => hs s (List.mem_cons_of_mem _ hmem))
      (fun report hmem => hok report (List.mem_cons_of_mem _ hmem))
    have hpublished : Event.business (Journal.history fresh old) ++
        (s.run f books directory).2.published symbol =
          Event.business (Journal.history fresh (old ++ s.commands symbol)) := by
      by_cases hcommands : s.commands symbol = []
      · rw [hnone hcommands, hcommands, List.append_nil, List.append_nil]
      · obtain ⟨more, hmore, hevents⟩ := hsome hcommands
        rw [← hmore, hevents, Event.business_append]
        rfl
    refine ⟨hfinal, ?_⟩
    rw [← hrest, ← hpublished, List.append_assoc]
    rfl

/-- In sessions that are easy enough nobody is refused. -/
theorem sessions_accept (hbook : books symbol = some fresh) (hsymbol : symbol.isEmpty = false)
    (hserves : ∀ s ∈ ss, s.Serves symbol) (heasy : ∀ s ∈ ss, s.Easy symbol) {lasting : Bool}
    (hfiles : (directory.filesOf symbol).Settled f fresh lasting old)
    (hs : ∀ s ∈ ss, Journal.Serviceable (readOptions s.config.maxPayload).limit f fresh
      (old ++ ss.flatMap (·.commands symbol))) :
    ∀ report ∈ (sessions f books directory ss).2, ∀ reply ∈ report.replies,
      reply.2.answer = .ok () := by
  induction ss generalizing directory old with
  | nil =>
    intro report hmem
    cases hmem
  | cons s rest ih =>
    rw [List.flatMap_cons, ← List.append_assoc] at hs
    have hserve := hserves s List.mem_cons_self
    have hfirst := (hs s List.mem_cons_self).mono (List.prefix_append ..)
    have haccepts := (heasy s List.mem_cons_self).accepts hsymbol hbook hserve hfiles hfirst
    obtain ⟨hsettled, -⟩ := Session.run_settled hbook hserve hfiles hfirst haccepts
    intro report hmem
    rcases List.mem_cons.1 hmem with rfl | hmem
    · exact haccepts
    · exact ih (fun s hmem => hserves s (List.mem_cons_of_mem _ hmem))
        (fun s hmem => heasy s (List.mem_cons_of_mem _ hmem)) hsettled
        (fun s hmem => hs s (List.mem_cons_of_mem _ hmem)) report hmem

end Sessions

/-- A session with one offer, which the publisher reads before the session ends. -/
def Session.offering : Session where
  acts := [⟨"ACME", .submit { action := .submit (.offer 0) }⟩, ⟨"ACME", .work 1⟩,
    ⟨"ACME", .publish 100⟩]

/-- A session with the order that takes the offer. -/
def Session.taking : Session where
  acts := [⟨"ACME", .submit (.sweep 1)⟩]

/-- Both sessions in one. -/
def Session.trading : Session where
  acts := offering.acts ++ taking.acts

/-- **Restarts go unnoticed.** The commands of a single session are spread over sessions `parts`, one
after the other; all begin with an empty directory, and no command is refused. Both times each event
that a client can see is published once and in order, and the files are the same in the end: both
logs are those of the journal, the cursor is behind the outbox, and from them any recovery brings
back the book that the commands lead to. -/
theorem restarts_unnoticed (hbook : books symbol = some fresh)
    (hstem : (fileStem symbol).utf8ByteSize ≤ SymbolPaths.longestStem) {single : Session}
    {parts : List Session} (hserves : ∀ s ∈ single :: parts, s.Serves symbol)
    (hparts : parts.flatMap (·.commands symbol) = single.commands symbol)
    (hs : ∀ s ∈ single :: parts, Journal.Serviceable (readOptions s.config.maxPayload).limit f fresh
      (single.commands symbol))
    (hok : ∀ report ∈ (sessions f books ∅ [single]).2 ++ (sessions f books ∅ parts).2,
      ∀ reply ∈ report.replies, reply.2.answer = .ok ()) :
    let events := Journal.history fresh (single.commands symbol)
    let left := (sessions f books ∅ parts).1.filesOf symbol
    (sessions f books ∅ parts).2.flatMap (·.published symbol) = Event.business events ∧
      (sessions f books ∅ [single]).2.flatMap (·.published symbol) = Event.business events ∧
      (Event.business events).Pairwise Event.Before ∧
      left = (sessions f books ∅ [single]).1.filesOf symbol ∧
      left.log.bytes = Journal.logBytes f (single.commands symbol) ∧
      left.outbox.bytes = Journal.eventBytes f events ∧
      Cursor.load left.cursor = .ok left.outbox.size ∧
      ∀ o : Recovery.Options, Journal.Fits o.limit f fresh (single.commands symbol) →
        ∃ files book r, Recovery.recover o f left fresh = ((files, book), .ok r) ∧
          book = fresh.executeAll (single.commands symbol) ∧
          r.lastSeq.toNat = (single.commands symbol).length := by
  intro events left
  have hempty : ((∅ : Directory).filesOf symbol).Settled f fresh true [] := by
    have h := SymbolFiles.settled_empty (Nat.le_trans hstem (by decide)) f fresh
    rwa [decide_eq_true hstem] at h
  have hsingle := hs single List.mem_cons_self
  obtain ⟨hleft, hpublished⟩ := sessions_settled parts hbook
    (fun s hmem => hserves s (List.mem_cons_of_mem _ hmem)) hempty
    (by
      rw [hparts]
      exact fun s hmem => hs s (List.mem_cons_of_mem _ hmem))
    fun report hmem => hok report (List.mem_append_right _ hmem)
  obtain ⟨hleft', hpublished'⟩ := sessions_settled [single] hbook
    (fun s hmem => hserves s (List.mem_singleton.1 hmem ▸ List.mem_cons_self)) hempty
    (fun s hmem => by
      rw [List.flatMap_singleton, List.mem_singleton.1 hmem]
      exact hsingle)
    fun report hmem => hok report (List.mem_append_left _ hmem)
  rw [List.nil_append, hparts] at hleft hpublished
  rw [List.nil_append, List.flatMap_singleton] at hleft' hpublished'
  have hsize : left.outbox.size = (Journal.outboxBytes f fresh (single.commands symbol)).length := by
    rw [← File.length_bytes, hleft.keeps.outbox]
  refine ⟨hpublished, hpublished', ?_, hleft.eq hleft' hsingle.modest, hleft.keeps.log,
    hleft.keeps.outbox, ?_, ?_⟩
  · refine List.Pairwise.sublist List.filter_sublist (Journal.pairwise_events ?_)
    rw [UInt64.toNat_zero, Nat.zero_add]
    exact hsingle.numbered
  · rw [hsize]
    exact hleft.marks.load hsingle.outboxRange
  · intro o hfits
    obtain ⟨complete, hreadable⟩ :=
      Recovery.readable_of_keeps hleft.keeps hsingle.numbered hfits
    obtain ⟨files, book, r, hrecover, hrestored, -⟩ :=
      Recovery.recover_readable hreadable hsingle.modest
    refine ⟨files, book, r, hrecover, hrestored.book, ?_⟩
    rw [hrestored.lastSeq]
    exact Recovery.Rebuild.toNat_ofNat_of_lt hsingle.numbered

/-- A trade with an order of the session before. -/
theorem restarts_unnoticed_trade :
    ((sessions .binary (fun _ => some {}) ∅ [.offering, .taking]).2.flatMap
        (·.published "ACME")).map Event.key = [(1, 0), (1, 1), (2, 0), (2, 1)] ∧
      ((sessions .binary (fun _ => some {}) ∅ [.trading]).2.flatMap (·.published "ACME")).map
        Event.key = [(1, 0), (1, 1), (2, 0), (2, 1)] ∧
      (sessions .binary (fun _ => some {}) ∅ [.offering, .taking]).1.filesOf "ACME" =
        (sessions .binary (fun _ => some {}) ∅ [.trading]).1.filesOf "ACME" := by
  let all : List Session := [.trading, .offering, .taking]
  have hstem : (fileStem "ACME").utf8ByteSize ≤ SymbolPaths.longestStem := by decide
  have hserves : ∀ s ∈ all, s.Serves "ACME" := by
    have hacts : ∀ s ∈ all, ∀ a ∈ s.acts, a.symbol = "ACME" := by decide
    have hpublishing : ∀ s ∈ all, s.config.publishing = true := by decide
    exact fun s hmem => ⟨hacts s hmem, hpublishing s hmem⟩
  have heasy : ∀ s ∈ all, s.Easy "ACME" := by
    have hproper : ∀ s ∈ all, ∀ a ∈ s.acts, a.deed.proper := by decide
    have hfew : ∀ s ∈ all, (s.commands "ACME").length ≤ max s.config.mailboxSize 1 := by decide
    exact fun s hmem => ⟨hproper s hmem, hfew s hmem⟩
  have hs : ∀ s ∈ all, Journal.Serviceable (readOptions s.config.maxPayload).limit .binary {}
      (Session.trading.commands "ACME") := by
    have hlimit : ∀ s ∈ all, 68 ≤ (readOptions s.config.maxPayload).limit := by decide
    intro s hmem
    exact Journal.serviceable_binary (hlimit s hmem) (by decide +kernel) (by decide)
      (by decide +kernel)
  have hempty := SymbolFiles.settled_empty (Nat.le_trans hstem (by decide)) .binary {}
  have hparts : [Session.offering, Session.taking].flatMap (·.commands "ACME") =
      Session.trading.commands "ACME" := by decide
  have hok : ∀ report ∈ (sessions .binary (fun _ => some {}) ∅ [.trading]).2 ++
      (sessions .binary (fun _ => some {}) ∅ [.offering, .taking]).2,
      ∀ reply ∈ report.replies, reply.2.answer = .ok () := by
    intro report hmem
    rcases List.mem_append.1 hmem with hmem | hmem
    · refine sessions_accept _ rfl (by decide) ?_ ?_ hempty ?_ report hmem
      · exact fun s h => hserves s (List.mem_singleton.1 h ▸ List.mem_cons_self)
      · exact fun s h => heasy s (List.mem_singleton.1 h ▸ List.mem_cons_self)
      · rw [List.nil_append, List.flatMap_singleton]
        exact fun s h => hs s (List.mem_singleton.1 h ▸ List.mem_cons_self)
    · refine sessions_accept _ rfl (by decide) ?_ ?_ hempty ?_ report hmem
      · exact fun s h => hserves s (List.mem_cons_of_mem _ h)
      · exact fun s h => heasy s (List.mem_cons_of_mem _ h)
      · rw [List.nil_append, hparts]
        exact fun s h => hs s (List.mem_cons_of_mem _ h)
  obtain ⟨hsplit, hwhole, -, hfiles, -⟩ := restarts_unnoticed rfl hstem hserves hparts hs hok
  have hkeys : (Event.business (Journal.history {} (Session.trading.commands "ACME"))).map
      Event.key = [(1, 0), (1, 1), (2, 0), (2, 1)] := by
    decide +kernel
  exact ⟨hsplit ▸ hkeys, hwhole ▸ hkeys, hfiles⟩

/-! ## Sessions that begin again -/

/-- The order to be cancelled is not there. -/
def miss : Command :=
  { action := .cancel 0 }

theorem serviceable_misses : Journal.Serviceable (readOptions ({} : Config).maxPayload).limit .binary
    {} [miss, miss] :=
  Journal.serviceable_binary (by decide) (by decide) (by decide) (by decide)

theorem serviceable_miss :
    Journal.Serviceable (readOptions ({} : Config).maxPayload).limit .binary {} [miss] :=
  serviceable_misses.mono (List.prefix_append [miss] [miss])

theorem key_miss : (Event.business (Journal.history {} [miss])).map Event.key = [(1, 0)] := by
  decide

theorem key_misses :
    (Event.business (Journal.history {} [miss, miss])).map Event.key = [(1, 0), (2, 0)] := by
  decide

/-- A session in which one order after the other is to be cancelled, though there is none. -/
def Session.cancelling (symbol : String) (n : Nat) : Session where
  acts := List.replicate n ⟨symbol, .cancel miss⟩

theorem Session.commands_cancelling (symbol : String) (n : Nat) :
    (cancelling symbol n).commands symbol = List.replicate n miss := by
  unfold commands cancelling
  rw [List.filter_replicate, if_pos (decide_eq_true rfl)]
  induction n with
  | zero => rfl
  | succ n ih =>
    rw [List.replicate_succ, List.replicate_succ, List.filterMap_cons, ih]
    rfl

theorem Session.cancelling_serves (symbol : String) (n : Nat) :
    (cancelling symbol n).Serves symbol where
  acts a ha := by rw [List.eq_of_mem_replicate ha]
  publishing := rfl

theorem Session.cancelling_easy {n : Nat} (hn : n ≤ 4096) (symbol : String) :
    (cancelling symbol n).Easy symbol where
  proper a ha := by
    rw [List.eq_of_mem_replicate ha]
    rfl
  few := by
    rw [commands_cancelling, List.length_replicate]
    exact Nat.le_trans hn (Nat.le_max_left ..)

/-- What such a session does to settled files, and what it publishes. -/
theorem Session.run_cancelling {directory : Directory} {old all : List Command} {lasting : Bool}
    {n : Nat} (books : String → Option Book) (symbol : String) (hpos : 0 < n) (hn : n ≤ 4096)
    (hall : old ++ List.replicate n miss = all)
    (hsymbol : symbol.isEmpty = false) (hbook : books symbol = some fresh)
    (hfiles : (directory.filesOf symbol).Settled f fresh lasting old)
    (hs : Journal.Serviceable (readOptions ({} : Config).maxPayload).limit f fresh all) :
    (∀ reply ∈ ((cancelling symbol n).run f books directory).2.replies,
        reply.2.answer = .ok ()) ∧
      (((cancelling symbol n).run f books directory).1.filesOf symbol).Settled f fresh lasting all ∧
      (∀ other, other ≠ symbol →
        ((cancelling symbol n).run f books directory).2.published other = []) ∧
      ∃ more, Journal.resumed fresh lasting old ++ more = Journal.history fresh all ∧
        ((cancelling symbol n).run f books directory).2.published symbol = Event.business more := by
  subst hall
  rw [← commands_cancelling symbol n] at hs ⊢
  have haccepts := (cancelling_easy hn symbol).accepts hsymbol hbook (cancelling_serves symbol n)
    hfiles hs
  obtain ⟨hsettled, hothers, -, hsome⟩ :=
    run_settled hbook (cancelling_serves symbol n) hfiles hs haccepts
  refine ⟨haccepts, hsettled, hothers, hsome ?_⟩
  rw [commands_cancelling]
  exact List.ne_nil_of_length_pos (by rwa [List.length_replicate])

/-- A symbol of so many letters. -/
def longName (n : Nat) : String :=
  String.ofList (List.replicate n 'q')

theorem utf8ByteSize_longName (n : Nat) : (longName n).utf8ByteSize = n := by
  unfold longName
  induction n with
  | zero => rfl
  | succ n ih =>
    rw [List.replicate_succ', String.ofList_append, String.utf8ByteSize_append, ih]
    rfl

theorem fileStem_longName (n : Nat) : fileStem (longName n) = longName n := by
  have hplain : isPlain 'q' = true := by decide
  rw [fileStem, longName, String.toList_ofList, List.map_replicate, if_pos hplain]

/-- If the cursor is the only thing that cannot be stored, the second of two sessions publishes the
event of the first one again. -/
theorem published_again (hstem : SymbolPaths.longestStem < (fileStem symbol).utf8ByteSize)
    (hlasting : (fileStem symbol).utf8ByteSize ≤ SymbolPaths.longestUsable)
    (hsymbol : symbol.isEmpty = false) :
    let split := sessions .binary (fun _ => some {}) ∅
      [.cancelling symbol 1, .cancelling symbol 1]
    let whole := sessions .binary (fun _ => some {}) ∅ [.cancelling symbol 2]
    (∀ report ∈ split.2 ++ whole.2, ∀ reply ∈ report.replies, reply.2.answer = .ok ()) ∧
      (split.2.flatMap (·.published symbol)).map Event.key = [(1, 0), (1, 0), (2, 0)] ∧
      (whole.2.flatMap (·.published symbol)).map Event.key = [(1, 0), (2, 0)] := by
  have hempty : ((∅ : Directory).filesOf symbol).Settled .binary {} false [] := by
    have h := SymbolFiles.settled_empty hlasting .binary {}
    rwa [decide_eq_false (Nat.not_le.2 hstem)] at h
  have hfirst : [] ++ List.replicate 1 miss = [miss] := rfl
  have hsecond : [miss] ++ List.replicate 1 miss = [miss, miss] := rfl
  have hboth : [] ++ List.replicate 2 miss = [miss, miss] := rfl
  obtain ⟨hok₁, hsettled, -, more₁, hmore₁, hpublished₁⟩ := Session.run_cancelling
    (fun _ => some {}) symbol (by decide) (by decide) hfirst hsymbol rfl hempty serviceable_miss
  obtain ⟨hok₂, -, -, more₂, hmore₂, hpublished₂⟩ := Session.run_cancelling
    (fun _ => some {}) symbol (by decide) (by decide) hsecond hsymbol rfl hsettled serviceable_misses
  obtain ⟨hok, -, -, more, hmore, hpublished⟩ := Session.run_cancelling
    (fun _ => some {}) symbol (by decide) (by decide) hboth hsymbol rfl hempty serviceable_misses
  -- Every session begins to publish from the first event.
  rw [Journal.resumed, if_neg Bool.false_ne_true, List.nil_append] at hmore₁ hmore₂ hmore
  refine ⟨?_, ?_, ?_⟩
  · simp only [sessions_cons, sessions_nil, List.cons_append, List.nil_append, List.mem_cons,
      List.not_mem_nil, or_false]
    intro report hmem
    rcases hmem with hmem | hmem | hmem
    · exact hmem ▸ hok₁
    · exact hmem ▸ hok₂
    · exact hmem ▸ hok
  · simp only [sessions_cons, sessions_nil, List.flatMap_cons, List.flatMap_nil, List.append_nil,
      hpublished₁, hpublished₂, hmore₁, hmore₂, List.map_append, key_miss, key_misses]
    rfl
  · simp only [sessions_cons, sessions_nil, List.flatMap_cons, List.flatMap_nil, List.append_nil,
      hpublished, hmore, key_misses]

/-- The shortest name that is too long for the scratch file of the cursor. No command is refused, and
still a restart does not go unnoticed. -/
theorem republished_after_restart :
    let split := sessions .binary (fun _ => some {}) ∅
      [.cancelling (longName 242) 1, .cancelling (longName 242) 1]
    let whole := sessions .binary (fun _ => some {}) ∅ [.cancelling (longName 242) 2]
    (∀ report ∈ split.2 ++ whole.2, ∀ reply ∈ report.replies, reply.2.answer = .ok ()) ∧
      (split.2.flatMap (·.published (longName 242))).map Event.key = [(1, 0), (1, 0), (2, 0)] ∧
      (whole.2.flatMap (·.published (longName 242))).map Event.key = [(1, 0), (2, 0)] := by
  have hstem : (fileStem (longName 242)).utf8ByteSize = 242 := by
    rw [fileStem_longName, utf8ByteSize_longName]
  refine published_again ?_ ?_ (by decide +kernel)
  · rw [hstem]
    decide
  · rw [hstem]
    decide

end Engine

end Bourse
