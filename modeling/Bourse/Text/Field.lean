/-!
# Lines and fields

A text is read line by line. The fields of a line stand between commas; blanks around a field do
not belong to it. A line is written with a comma and a space between fields.

The characters that count as white space are those of the Unicode property `White_Space`.
Zero-width characters do not have it and are text like any other.
-/

namespace Bourse.Text

/-! ## Blanks -/

/-- The characters that have the property `White_Space`, as ranges of code points. -/
def blankRanges : List (Nat × Nat) :=
  [(0x09, 0x0d), (0x20, 0x20), (0x85, 0x85), (0xa0, 0xa0), (0x1680, 0x1680), (0x2000, 0x200a),
    (0x2028, 0x2029), (0x202f, 0x202f), (0x205f, 0x205f), (0x3000, 0x3000)]

/-- Whether a character is white space. -/
def isBlank (c : Char) : Bool :=
  blankRanges.any fun (first, last) => first ≤ c.toNat && c.toNat ≤ last

/-- Text without the blanks at its ends. -/
def trim (text : List Char) : List Char :=
  ((text.dropWhile isBlank).reverse.dropWhile isBlank).reverse

/-! ## Lines -/

/-- A line without the carriage return that may stand before its line feed. -/
def chomp (line : List Char) : List Char :=
  if line.getLast? = some '\r' then line.dropLast else line

/-- The lines of a text after those in `found`; `line` holds the beginning of the next one,
backwards. What follows the last line feed is a line too, unless it is empty. -/
def linesFrom (found : Array (List Char)) (line : List Char) : List Char → Array (List Char)
  | [] => if line = [] then found else found.push line.reverse
  | c :: rest =>
    if c = '\n' then linesFrom (found.push (chomp line.reverse)) [] rest
    else linesFrom found (c :: line) rest

/-- The lines of a text. -/
def lines (text : List Char) : List (List Char) :=
  (linesFrom #[] [] text).toList

/-! ## Fields -/

/-- The pieces of a text between commas; there is always one more of them than commas. -/
def splitCommas : List Char → List (List Char)
  | [] => [[]]
  | c :: rest =>
    if c = ',' then [] :: splitCommas rest
    else
      match splitCommas rest with
      | [] => [[c]]
      | piece :: pieces => (c :: piece) :: pieces

/-- The fields of a line. -/
def fields (line : List Char) : List (List Char) :=
  (splitCommas line).map trim

/-- The line with these fields. -/
def ofFields : List (List Char) → List Char
  | [] => []
  | [f] => f
  | f :: rest => f ++ ',' :: ' ' :: ofFields rest

theorem splitCommas_ne_nil (text : List Char) : splitCommas text ≠ [] := by
  cases text with
  | nil => simp [splitCommas]
  | cons c rest =>
    unfold splitCommas
    split
    · simp
    · split <;> simp

end Bourse.Text
