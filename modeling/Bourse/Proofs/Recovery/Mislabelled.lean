import Bourse.Proofs.Log.Parsing
import Bourse.Proofs.Record.Canonical
import Bourse.Proofs.Recovery.Stopping

/-!
# Records that announce a wrong length

The checksum of a record does not cover its length. When a byte of the length is changed, a reader
takes another number of bytes for the payload. Unless these have the recorded checksum as well, it
reports the damage, and a recovery leaves the log as it is. But when there are not as many bytes in
the file, the record looks like one that was torn, wherever it stands: a recovery cuts the log there,
with all whole records behind it. `recover_mislabelled` says both, and
`recover_mislabelled_past_end` is a log that is lost in this way.
-/

namespace Bourse

namespace Recovery

variable {o : Options} {f : Format} {files : SymbolFiles} {book : Book}

/-! ## Logs that cannot be replayed -/

/-- When the commands cannot be replayed, the log stays as it is. -/
theorem recover_error_of_replay
    (h : ∀ complete s, ∃ e, (Log.replay (readOptions o.maxPayload) files.log .log
      (Rebuild.step f complete) s).2 = .error e) :
    ∃ files' book' e, recover o f files book = ((files', book'), .error e) ∧
      files'.log = files.log := by
  rcases hrecover : recover o f files book with ⟨⟨files', book'⟩, result⟩
  cases recover_eq_iff.1 hrecover with
  | unrepaired => exact ⟨_, _, _, rfl, rfl⟩
  | unopened => exact ⟨_, _, _, rfl, rfl⟩
  | unreplayed => exact ⟨_, _, _, rfl, rfl⟩
  | logUnopened _ _ replays =>
    obtain ⟨e, he⟩ := h _ _
    rw [replays] at he
    cases he
  | recovered _ _ replays =>
    obtain ⟨e, he⟩ := h _ _
    rw [replays] at he
    cases he

namespace Rebuild

/-- A record that is no command ends a replay. -/
theorem forEach_undecodable {complete : Seq} {records : List Log.Record}
    (h : ∃ r ∈ records, ∃ cause, f.decodeCommand r.payload = .error cause) (s : Rebuild) :
    ∃ e, (Attempt.forEach (step f complete) s records).2 = .error e := by
  obtain ⟨r, hr, cause, hcause⟩ := h
  induction records generalizing s with
  | nil => cases hr
  | cons first rest ih =>
    rw [Attempt.forEach_cons]
    rcases List.mem_cons.1 hr with rfl | hr
    · rw [step, hcause]
      exact ⟨_, rfl⟩
    · cases hstep : step f complete s first with
      | mk s' result =>
        cases result with
        | error e => exact ⟨e, rfl⟩
        | ok _ => exact ih s' hr

end Rebuild

/-- A log with a record that is no command, or one that ends with an error, stays as it is. -/
theorem recover_unsound (hf : files.log.Usable) {ps : List Bytes} {rest : Bytes}
    (hparsed : Log.Parsed o.limit files.log.bytes ps rest)
    (h : (∃ p ∈ ps, ∃ cause, f.decodeCommand p = .error cause) ∨
      ∃ e, Log.verdict o.limit true (Log.frames ps).length rest = .error e) :
    ∃ files' book' e, recover o f files book = ((files', book'), .error e) ∧
      files'.log = files.log := by
  refine recover_error_of_replay fun complete s => ?_
  have hnone : (Log.Frame.parse o.limit rest).isRecord = false :=
    Log.Frame.isRecord_eq_false_iff.2 hparsed.maximal
  rw [Log.replay_frames (o := readOptions o.maxPayload) hf hparsed.bytes hparsed.fits hnone,
    Log.ending_eq_verdict (o := readOptions o.maxPayload) hnone]
  cases hrun : Attempt.forEach (Rebuild.step f complete) s (Log.recordsFrom 0 ps) with
  | mk s' result =>
    cases result with
    | error e => exact ⟨e, rfl⟩
    | ok _ =>
      rcases h with ⟨p, hp, hcause⟩ | ⟨e, he⟩
      · have hmem : p ∈ (Log.recordsFrom 0 ps).map Log.Record.payload := by
          rwa [Log.map_payload_recordsFrom]
        obtain ⟨r, hr, rfl⟩ := List.mem_map.1 hmem
        obtain ⟨e, he⟩ := Rebuild.forEach_undecodable ⟨r, hr, hcause⟩ s
        rw [hrun] at he
        cases he
      · refine ⟨.log e, ?_⟩
        show Except.map _ (Except.mapError _ (Log.verdict o.limit true _ rest)) = _
        rw [he]
        rfl

/-- If a recovery of a log with a torn end succeeds, it has replayed the records before that end
and cut off everything else. -/
theorem recover_torn {ps : List Bytes} {tail : Bytes} (hf : files.log.Usable)
    (hlog : files.log.bytes = Log.frames ps ++ tail) (hfits : ∀ p ∈ ps, Log.Fits o.limit p)
    (htorn : Log.Torn (readOptions o.maxPayload) tail) {files' : SymbolFiles} {book' : Book}
    {r : Recovered} (h : recover o f files book = ((files', book'), .ok r)) :
    r.replayed = ps.length ∧ files'.log.bytes = Log.frames ps := by
  obtain ⟨-, outbox, writer, rebuilt, stats, -, -, hreplay, hopened, -, -, -, -, hreplayed⟩ :=
    exists_rebuilt_of_recover h
  rw [Log.replay_torn hf hlog hfits htorn] at hreplay
  rcases hrun : Attempt.forEach (Rebuild.step f r.repair.lastSeq)
    { book, outbox := (writer, outbox), lastSeq := r.repair.lastSeq }
    (Log.recordsFrom 0 ps) with ⟨s, e | _⟩
  · rw [hrun] at hreplay
    cases hreplay
  · rw [hrun] at hreplay
    cases hreplay
    obtain ⟨hbytes, -⟩ := truncate_torn hlog hf
    have hsame := Log.Writer.bytes_of_open? hopened
    constructor
    · rw [hreplayed, (Rebuild.replays_of_forEach hrun).replayed, Log.length_recordsFrom,
        Nat.zero_add]
    · exact hsame.trans hbytes

end Recovery

/-! ## A length that was changed -/

namespace Log

/-- A checksum is determined by its four bytes. -/
theorem crc32_eq_of_ofNat {p q : Bytes}
    (h : Bytes.ofNat 4 (crc32 p).toNat = Bytes.ofNat 4 (crc32 q).toNat) : crc32 p = crc32 q := by
  have hvalue := congrArg Bytes.value h
  rw [value_ofNat_crc32, value_ofNat_crc32] at hvalue
  exact UInt32.toNat_inj.1 hvalue

/-- The checksum of a payload behind the four bytes `field` of a length that need not be its own, and
then any bytes. -/
def mislabelled (field payload body : Bytes) : Bytes :=
  field ++ (Bytes.ofNat 4 (crc32 payload).toNat ++ body)

section Mislabelled

variable {field payload body : Bytes} (hfield : field.length = 4)

include hfield

theorem length_mislabelled :
    (mislabelled field payload body).length = headerSize + body.length := by
  rw [mislabelled, List.length_append, List.length_append, hfield, Bytes.length_ofNat, headerSize]
  omega

theorem take_mislabelled : (mislabelled field payload body).take 4 = field :=
  List.take_left' hfield

/-- A record that stands there holds the announced number of bytes, which have the checksum of the
payload. -/
theorem eq_of_mislabelled {q rest : Bytes} (hq : q.length ≤ maxLength)
    (h : mislabelled field payload body = frame q ++ rest) :
    q.length = Bytes.value field ∧ crc32 q = crc32 payload ∧
      q = body.take (Bytes.value field) := by
  rw [mislabelled, frame, List.append_assoc, List.append_assoc] at h
  obtain ⟨rfl, hmore⟩ := List.append_inj h (by rw [hfield, Bytes.length_ofNat])
  obtain ⟨hsum, rfl⟩ := List.append_inj hmore (by rw [Bytes.length_ofNat, Bytes.length_ofNat])
  rw [value_ofNat_length hq, List.take_left]
  exact ⟨rfl, (crc32_eq_of_ofNat hsum).symm, rfl⟩

/-- How a replay ends there, if it finds no record. -/
theorem verdict_mislabelled {limit : Nat} {tolerant : Bool} (start : Nat) :
    verdict limit tolerant start (mislabelled field payload body) =
      if limit < Bytes.value field then .error (.payloadTooLarge start (Bytes.value field) limit)
      else if body.length < Bytes.value field then
        if tolerant then .ok true else .error (.truncatedPayload start)
      else .error (.checksumMismatch start) := by
  have hlen : (mislabelled field payload body).length = headerSize + body.length :=
    length_mislabelled hfield
  have hne : mislabelled field payload body ≠ [] := by
    intro h
    rw [h, headerSize, List.length_nil] at hlen
    omega
  have hheader : ¬ (mislabelled field payload body).length < headerSize := by omega
  have hbody : (mislabelled field payload body).length - headerSize = body.length := by omega
  unfold verdict
  dsimp only
  rw [if_neg hne, if_neg hheader, take_mislabelled hfield, hbody]

/-- If it announces more bytes than there are, though no more than the limit, it is taken for a record
that was torn. -/
theorem torn_mislabelled {o : ReadOptions} (ho : o.tolerant = true)
    (hlimit : Bytes.value field ≤ o.limit) (hover : body.length < Bytes.value field) :
    Torn o (mislabelled field payload body) := by
  have hnone : (Frame.parse o.limit (mislabelled field payload body)).isRecord = false := by
    refine Frame.isRecord_eq_false_iff.2 ?_
    rintro q ⟨-, hq⟩ ⟨rest, hrest⟩
    obtain ⟨hlen, -, heq⟩ := eq_of_mislabelled hfield hq hrest.symm
    have hshort := congrArg List.length heq
    rw [hlen, List.length_take] at hshort
    omega
  refine ⟨hnone, fun start => ?_⟩
  have hne : (mislabelled field payload body).isEmpty = false := by
    rw [List.isEmpty_eq_false_iff, ← List.length_pos_iff, length_mislabelled hfield, headerSize]
    omega
  rw [ending_eq_verdict hnone, verdict_mislabelled hfield, if_neg (Nat.not_lt.2 hlimit),
    if_pos hover, ho, hne]
  rfl

end Mislabelled

variable {payload : Bytes} {i : Nat} {b : UInt8}

/-- A record of which a byte of the length was changed announces another number of bytes. -/
theorem set_frame (hi : i < 4) (hchanged : (frame payload)[i]? ≠ some b)
    (hp : payload.length ≤ maxLength) : ∃ field : Bytes, field.length = 4 ∧
      field = ((frame payload).set i b).take 4 ∧ Bytes.value field ≠ payload.length ∧
      ∀ more, (frame payload).set i b ++ more = mislabelled field payload (payload ++ more) := by
  have hlen : i < (Bytes.ofNat 4 payload.length).length := by rwa [Bytes.length_ofNat]
  have hset : (frame payload).set i b = (Bytes.ofNat 4 payload.length).set i b ++
      (Bytes.ofNat 4 (crc32 payload).toNat ++ payload) := by
    rw [frame, List.append_assoc, List.set_append_left _ _ hlen]
  have hfield : ((Bytes.ofNat 4 payload.length).set i b).length = 4 := by
    rw [List.length_set, Bytes.length_ofNat]
  refine ⟨_, hfield, ?_, ?_, ?_⟩
  · rw [hset, List.take_left' hfield]
  · intro h
    -- The length would be the old one, and so would its byte.
    have hsame : (Bytes.ofNat 4 payload.length).set i b = Bytes.ofNat 4 payload.length := by
      refine Bytes.value_injective (List.length_set ..) ?_
      rw [h, value_ofNat_length hp]
    refine hchanged ?_
    rw [frame, List.append_assoc, List.getElem?_append_left hlen, ← hsame,
      List.getElem?_set_self hlen]
  · intro more
    rw [hset, mislabelled]
    simp only [List.append_assoc]

end Log

namespace Recovery

variable {o : Options} {f : Format} {files : SymbolFiles} {book : Book}

/-- A length that was changed does not pass unnoticed: what it announces is beyond the limit, or there
are as many bytes, and these are not a command with the checksum of the record. Only lines can be
that, because all other commands have one length. -/
structure Noticed (limit : Nat) (f : Format) (payload : Bytes) (announced : Nat) (body : Bytes) :
    Prop where
  within : announced ≤ limit → announced ≤ body.length
  noAccident : f = .csv → announced ≤ limit →
    Log.crc32 (body.take announced) = Log.crc32 payload →
    ∃ cause, f.decodeCommand (body.take announced) = .error cause

/-- A command of another length is no binary command. -/
theorem decodeCommand_of_length_ne {p q : Bytes} (hp : ∃ r, Format.binary.decodeCommand p = .ok r)
    (hlen : q.length ≠ p.length) : ∃ cause, Format.binary.decodeCommand q = .error cause := by
  cases hq : Format.binary.decodeCommand q with
  | error cause => exact ⟨cause, rfl⟩
  | ok r =>
    have hsound := Binary.exists_decodeCommand_iff.1 ⟨r, hq⟩
    rw [hsound.length, (Binary.exists_decodeCommand_iff.1 hp).length] at hlen
    exact absurd rfl hlen

/-- Where the length is noticed, a recovery stops and leaves the log as it is. -/
theorem recover_noticed {before : List Bytes} {field payload body : Bytes}
    (hf : files.log.Usable) (hfield : field.length = 4)
    (hlog : files.log.bytes = Log.frames before ++ Log.mislabelled field payload body)
    (hbefore : ∀ p ∈ before, Log.Fits o.limit p) (hcommand : ∃ r, f.decodeCommand payload = .ok r)
    (hne : Bytes.value field ≠ payload.length)
    (h : Noticed o.limit f payload (Bytes.value field) body) :
    ∃ files' book' e, recover o f files book = ((files', book'), .error e) ∧
      files'.log = files.log := by
  obtain ⟨qs, rest, hqs⟩ := Log.exists_parsed o.limit (Log.mislabelled field payload body)
  have hparsed := hqs.append hbefore
  rw [← hlog] at hparsed
  refine recover_unsound hf hparsed ?_
  cases qs with
  | nil =>
    have hrest : rest = Log.mislabelled field payload body := hqs.bytes.symm
    rw [hrest, Log.verdict_mislabelled hfield]
    by_cases hlimit : o.limit < Bytes.value field
    · exact .inr ⟨_, if_pos hlimit⟩
    · have hwithin := h.within (Nat.le_of_not_lt hlimit)
      rw [if_neg hlimit, if_neg (Nat.not_lt.2 hwithin)]
      exact .inr ⟨_, rfl⟩
  | cons q qs =>
    -- Other bytes are taken for the payload; they are no command.
    obtain ⟨hfit, hmax⟩ := hqs.fits q List.mem_cons_self
    have hbytes := hqs.bytes
    rw [Log.frames_cons, List.append_assoc] at hbytes
    obtain ⟨hlen, hsum, heq⟩ := Log.eq_of_mislabelled hfield hmax hbytes
    refine .inl ⟨q, List.mem_append_right _ List.mem_cons_self, ?_⟩
    cases f with
    | binary => exact decodeCommand_of_length_ne hcommand (hlen ▸ hne)
    | csv =>
      rw [heq]
      exact h.noAccident rfl (hlen ▸ hfit) (heq ▸ hsum)

/-- **What becomes of a log in which a byte of a length was changed.** Where the change is noticed, a
recovery fails, whatever the outbox holds, and the log stays as it is. Where the record announces more
bytes than there are behind its header, and no more than the limit, nothing tells it from a torn one:
a recovery that succeeds has replayed the records before it and cut off all others. -/
theorem recover_mislabelled {before after : List Bytes} {payload : Bytes} {i : Nat} {b : UInt8}
    (hi : i < 4) (hchanged : (Log.frame payload)[i]? ≠ some b)
    (hlog : files.log.bytes =
      Log.frames before ++ (Log.frame payload).set i b ++ Log.frames after)
    (hfits : ∀ p ∈ before ++ payload :: after, Log.Fits o.limit p)
    (hcommand : ∃ r, f.decodeCommand payload = .ok r) :
    let announced := Bytes.value (((Log.frame payload).set i b).take 4)
    let body := payload ++ Log.frames after
    (Noticed o.limit f payload announced body →
      ∃ files' book' e, recover o f files book = ((files', book'), .error e) ∧
        files'.log = files.log) ∧
    (announced ≤ o.limit → body.length < announced →
      ∀ files' book' r, recover o f files book = ((files', book'), .ok r) →
        r.replayed = before.length ∧ files'.log.bytes = Log.frames before) := by
  have hbefore : ∀ p ∈ before, Log.Fits o.limit p := fun p hp => hfits p (List.mem_append_left _ hp)
  obtain ⟨field, hfield, hvalue, hne, hset⟩ := Log.set_frame hi hchanged
    (hfits payload (List.mem_append_right _ List.mem_cons_self)).2
  rw [List.append_assoc, hset] at hlog
  rw [← hvalue]
  have hregular : files.log.isRegular := by
    refine File.isRegular_of_bytes fun h => ?_
    have hlen := congrArg List.length (hlog.symm.trans h)
    rw [List.length_append, Log.length_mislabelled hfield, Log.headerSize, List.length_nil] at hlen
    omega
  refine ⟨fun hnoticed => ?_, fun hlimit hover files' book' r h => ?_⟩
  · exact recover_noticed (.inr hregular) hfield hlog hbefore hcommand hne hnoticed
  · exact recover_torn (.inr hregular) hlog hbefore
      (Log.torn_mislabelled hfield rfl hlimit hover) h

/-- Two cancellations, the first of which announces 16777216 bytes too many. Nothing is lost. -/
theorem recover_mislabelled_beyond_limit :
    let first := Format.binary.encodeCommand 1 { request := 1, action := .cancel 5 }
    let second := Format.binary.encodeCommand 2 { request := 2, action := .cancel 6 }
    let files : SymbolFiles := { log := .ofBytes ((Log.frame first).set 3 1 ++ Log.frames [second]) }
    ∃ files' book' e, recover {} .binary files {} = ((files', book'), .error e) ∧
      files'.log = files.log := by
  intro first second files
  have hvalue : Bytes.value (((Log.frame first).set 3 1).take 4) = 16777283 := by decide
  have hlog : files.log.bytes = Log.frames [] ++ (Log.frame first).set 3 1 ++ Log.frames [second] :=
    File.bytes_ofBytes _
  have hfits : ∀ p ∈ [] ++ first :: [second], Log.Fits ({} : Options).limit p := by decide
  refine (recover_mislabelled (by decide) (by decide) hlog hfits
    ⟨_, Format.decodeCommand_encodeCommand ..⟩).1 ⟨?_, ?_⟩
  · intro h
    rw [hvalue] at h
    exact absurd h (by decide)
  · intro h
    cases h

/-- The same log, but now the first record announces 256 bytes too many, which is within the limit and
more than there are. Both commands are whole and can be read, and the recovery succeeds without any of
them. The log is empty then. -/
theorem recover_mislabelled_past_end :
    let first := Format.binary.encodeCommand 1 { request := 1, action := .cancel 5 }
    let second := Format.binary.encodeCommand 2 { request := 2, action := .cancel 6 }
    let files : SymbolFiles := { log := .ofBytes ((Log.frame first).set 1 1 ++ Log.frames [second]) }
    (∀ p ∈ [first, second], Log.Fits ({} : Options).limit p ∧
        ∃ r, Format.binary.decodeCommand p = .ok r) ∧
      (Log.frame first)[1]? ≠ some 1 ∧
      ∃ files' book' r, recover {} .binary files {} = ((files', book'), .ok r) ∧
        r.replayed = 0 ∧ files'.log.bytes = [] := by
  intro first second files
  have hfits : ∀ p ∈ [first, second], Log.Fits ({} : Options).limit p := by decide
  have hchanged : (Log.frame first)[1]? ≠ some 1 := by decide
  refine ⟨fun p hp => ⟨hfits p hp, ?_⟩, hchanged, ?_⟩
  · rcases List.mem_cons.1 hp with rfl | hp
    · exact ⟨_, Format.decodeCommand_encodeCommand ..⟩
    · rw [List.mem_singleton.1 hp]
      exact ⟨_, Format.decodeCommand_encodeCommand ..⟩
  obtain ⟨field, hfield, hvalue, -, hset⟩ := Log.set_frame (by decide) hchanged
    (hfits first List.mem_cons_self).2
  have hannounced : Bytes.value field = 323 := by
    rw [hvalue]
    decide
  have hbody : (first ++ Log.frames [second]).length = 142 := by
    rw [Log.frames_cons, Log.frames_nil, List.append_nil, List.length_append, Log.length_frame]
    rfl
  have htorn : Log.Torn (readOptions 0) ((Log.frame first).set 1 1 ++ Log.frames [second]) := by
    rw [hset]
    refine Log.torn_mislabelled hfield rfl ?_ ?_
    · rw [hannounced]
      decide
    · rw [hannounced, hbody]
      decide
  have hreadable : Readable {} .binary {} files [] 0 :=
    { logUsable := File.usable_ofBytes _
      outboxUsable := .inl rfl
      complete_le := Nat.le_refl _
      numbered := by decide
      modest := trivial
      log := ⟨_, File.bytes_ofBytes _, htorn⟩
      logFits := fun p hp => (by cases hp)
      outbox := ⟨[], [], rfl, fun e he => (by cases he), Log.torn_cut rfl (.inl rfl),
        fun e he => (by cases he)⟩ }
  obtain ⟨files', book', r, hrecover, hrestored, hreplayed, -⟩ :=
    recover_readable hreadable trivial
  exact ⟨files', book', r, hrecover, hreplayed, hrestored.log⟩

end Recovery

end Bourse
