import Bourse.Proofs.Record.Codec
import Bourse.Record.Request

/-!
# Lines are read back

A record of text is read back from the line that was written, whatever numbers it holds. The line
of a publication is the symbol, a comma and the line of the event behind a space. If the symbol has
no comma, the first comma of the line ends it. Whatever the symbol is, the line says which
publication it came from, because the last capital letter of the line begins the event.
-/

namespace Bourse

/-! ## What lines are made of -/

namespace Text

theorem mem_ofFields {l : List (List Char)} {c : Char} (h : c ∈ ofFields l) :
    c = ',' ∨ c = ' ' ∨ ∃ f ∈ l, c ∈ f := by
  induction l with
  | nil => cases h
  | cons f rest ih =>
    cases rest with
    | nil => exact .inr (.inr ⟨f, List.mem_cons_self, h⟩)
    | cons g rest =>
      rcases List.mem_append.1 h with hf | hsep
      · exact .inr (.inr ⟨f, List.mem_cons_self, hf⟩)
      rcases List.mem_cons.1 hsep with hcomma | hspace
      · exact .inl hcomma
      rcases List.mem_cons.1 hspace with hspace | hrest
      · exact .inr (.inl hspace)
      rcases ih hrest with hcomma | hspace | ⟨k, hk, hck⟩
      · exact .inl hcomma
      · exact .inr (.inl hspace)
      · exact .inr (.inr ⟨k, List.mem_cons_of_mem _ hk, hck⟩)

/-- What stands behind the last capital letter of a text. -/
def behindCapital (text : List Char) : List Char :=
  (text.reverse.takeWhile fun c => !c.isUpper).reverse

theorem behindCapital_append {front rest : List Char} {c : Char} (hc : c.isUpper)
    (hrest : ∀ d ∈ rest, d.isUpper = false) : behindCapital (front ++ c :: rest) = rest := by
  have hreverse : ∀ d ∈ rest.reverse, (!d.isUpper) = true := by
    intro d hd
    rw [hrest d (List.mem_reverse.1 hd), Bool.not_false]
  rw [behindCapital, List.reverse_append, List.reverse_cons, List.append_assoc,
    List.takeWhile_append_of_pos hreverse, List.singleton_append,
    List.takeWhile_cons_of_neg (by rw [hc]; decide), List.append_nil, List.reverse_reverse]

/-- A character that is a digit or a minus sign. -/
def Numeric (c : Char) : Prop :=
  c.isDigit ∨ c = '-'

theorem numeric_of_mem_ofNat {n : Nat} {c : Char} (h : c ∈ ofNat n) : Numeric c :=
  .inl (isDigit_of_mem_ofNat h)

theorem numeric_of_mem_ofInt {n : Int} {c : Char} (h : c ∈ ofInt n) : Numeric c := by
  unfold ofInt at h
  split at h
  · rcases List.mem_cons.1 h with hminus | hdigit
    · exact .inr hminus
    · exact numeric_of_mem_ofNat hdigit
  · exact numeric_of_mem_ofNat h

theorem Numeric.not_isUpper {c : Char} (h : Numeric c) : c.isUpper = false := by
  rcases h with hdigit | rfl
  · have hhigh : c.toNat ≤ 57 := (toNat_of_isDigit hdigit).2
    refine decide_eq_false fun hupper => ?_
    have hlow : 65 ≤ c.toNat := UInt32.le_iff_toNat_le.1 hupper.1
    omega
  · decide

end Text

namespace Csv

theorem isUpper_tag (kind : EventKind) : (tag kind).isUpper := by
  cases kind <;> (rw [tag]; decide)

theorem numeric_of_mem_kindFields {kind : EventKind} {f : List Char} {c : Char}
    (hf : f ∈ kindFields kind) (hc : c ∈ f) : Text.Numeric c := by
  have hword : ∀ n : UInt64, f = word n → Text.Numeric c := fun n hn =>
    Text.numeric_of_mem_ofNat (hn ▸ hc)
  have hint : ∀ n : Int64, f = int n → Text.Numeric c := fun n hn =>
    Text.numeric_of_mem_ofInt (hn ▸ hc)
  cases kind <;> simp only [kindFields, List.mem_cons, List.not_mem_nil, or_false] at hf <;> grind

/-- The line of an event is its letter and a rest without capital letters. -/
theorem eventLine_eq (e : Event) :
    ∃ rest, eventLine e = tag e.kind :: rest ∧ ∀ c ∈ rest, c.isUpper = false := by
  refine ⟨',' :: ' ' :: Text.ofFields
    (word e.seq :: Text.ofNat e.idx.toNat :: word e.request :: kindFields e.kind), rfl, ?_⟩
  intro c hc
  rcases List.mem_cons.1 hc with rfl | hc
  · decide
  rcases List.mem_cons.1 hc with rfl | hc
  · decide
  rcases Text.mem_ofFields hc with rfl | rfl | ⟨f, hf, hcf⟩
  · decide
  · decide
  refine Text.Numeric.not_isUpper ?_
  rcases List.mem_cons.1 hf with rfl | hf
  · exact Text.numeric_of_mem_ofNat hcf
  rcases List.mem_cons.1 hf with rfl | hf
  · exact Text.numeric_of_mem_ofNat hcf
  rcases List.mem_cons.1 hf with rfl | hf
  · exact Text.numeric_of_mem_ofNat hcf
  · exact numeric_of_mem_kindFields hf hcf

/-- The space between a symbol and the line of an event does no harm. -/
theorem readEvent_space (e : Event) : readEvent (' ' :: eventLine e) = .ok e := by
  have hplain := fun f hf => (plain_eventFields e f hf).1
  obtain ⟨pieces, hpieces⟩ := Text.splitCommas_ofFields (hplain _ List.mem_cons_self) _
  refine readEvent_of_fields ?_
  rw [← Text.fields_ofFields (by simp) hplain]
  exact Text.fields_space hpieces (hplain _ List.mem_cons_self)

theorem eventLine_injective {d e : Event} (h : eventLine d = eventLine e) : d = e := by
  have hd := readEvent_eventLine d
  rw [h, readEvent_eventLine] at hd
  exact (Except.ok.inj hd).symm

end Csv

/-! ## The lines of publications -/

namespace Publication

/-- What stands before the first comma of a line. -/
theorem takeWhile_line {p : Publication} (h : ',' ∉ p.symbol.toList) :
    p.line.takeWhile (· ≠ ',') = p.symbol.toList := by
  rw [line, List.takeWhile_append_of_pos]
  · simp
  · intro c hc
    exact decide_eq_true fun e => h (e ▸ hc)

/-- What stands after the first comma of a line. -/
theorem drop_dropWhile_line {p : Publication} (h : ',' ∉ p.symbol.toList) :
    (p.line.dropWhile (· ≠ ',')).drop 1 = ' ' :: Csv.eventLine p.event := by
  rw [line, List.dropWhile_append_of_pos]
  · simp
  · intro c hc
    exact decide_eq_true fun e => h (e ▸ hc)

/-- A line says where it came from: what stands behind its last capital letter ends the line of
the event, the letter begins it, and the symbol is all but two characters of the rest. -/
theorem line_injective {p q : Publication} (h : p.line = q.line) : p = q := by
  obtain ⟨restp, hp, hrestp⟩ := Csv.eventLine_eq p.event
  obtain ⟨restq, hq, hrestq⟩ := Csv.eventLine_eq q.event
  have hline : (p.symbol.toList ++ [',', ' ']) ++ Csv.tag p.event.kind :: restp =
      (q.symbol.toList ++ [',', ' ']) ++ Csv.tag q.event.kind :: restq := by
    rw [line, line, hp, hq] at h
    simpa using h
  have hrest : restp = restq := by
    rw [← Text.behindCapital_append (Csv.isUpper_tag p.event.kind) hrestp, hline,
      Text.behindCapital_append (Csv.isUpper_tag q.event.kind) hrestq]
  rw [hrest, List.append_cons, List.append_cons _ (Csv.tag q.event.kind)] at hline
  have hfront := List.append_cancel_right hline
  obtain ⟨hsep, htag⟩ := List.append_inj' hfront rfl
  have hsymbol : p.symbol.toList = q.symbol.toList := List.append_cancel_right hsep
  have hevent : Csv.eventLine p.event = Csv.eventLine q.event := by
    rw [hp, hq, hrest, List.singleton_inj.1 htag]
  show (⟨p.symbol, p.event⟩ : Publication) = ⟨q.symbol, q.event⟩
  rw [String.toList_inj.1 hsymbol, Csv.eventLine_injective hevent]

/-- A symbol may look like the beginning of an event. -/
example : line ⟨"A, X", { seq := 1, idx := 0, request := 7, kind := .cancelled 5 }⟩ =
    "A, X, X, 1, 0, 7, 5".toList := by decide

end Publication

/-- Lines of text are read back: commands with their sequence numbers and events, from what the
writer adds to any buffer; the event of a publication, behind the first comma of its line, if its
symbol has none; and no two publications have the same line. -/
theorem Csv.lines_read_back :
    (∀ seq c, readCommand (commandLine seq c) = .ok (seq, c)) ∧
    (∀ e, readEvent (eventLine e) = .ok e) ∧
    (∀ buffer seq c, ∃ record, Format.csv.appendCommand buffer seq c = buffer ++ record ∧
      Bytes.text? record = some (commandLine seq c) ∧
      Format.csv.decodeCommand record = .ok (seq, c)) ∧
    (∀ buffer e, ∃ record, Format.csv.appendEvent buffer e = buffer ++ record ∧
      Bytes.text? record = some (eventLine e) ∧ Format.csv.decodeEvent record = .ok e) ∧
    (∀ p : Publication, ',' ∉ p.symbol.toList →
      p.line.takeWhile (· ≠ ',') = p.symbol.toList ∧
        readEvent ((p.line.dropWhile (· ≠ ',')).drop 1) = .ok p.event) ∧
    ∀ p q : Publication, p.line = q.line → p = q := by
  refine ⟨readCommand_commandLine, readEvent_eventLine, ?_, ?_, ?_, ?_⟩
  · intro buffer seq c
    exact ⟨_, rfl, Bytes.text?_ofText _, Format.decodeCommand_encodeCommand .csv seq c⟩
  · intro buffer e
    exact ⟨_, rfl, Bytes.text?_ofText _, Format.decodeEvent_encodeEvent .csv e⟩
  · intro p h
    rw [Publication.drop_dropWhile_line h]
    exact ⟨Publication.takeWhile_line h, readEvent_space p.event⟩
  · exact fun p q => Publication.line_injective

end Bourse
