/-!
Character classes of stream definitions, and trimming.

Two notions of blank space live side by side. A *separator* may stand between two tokens and means
nothing; a *blank* is any character with the Unicode property `White_Space`. Every separator is a
blank (`isBlank_of_isSeparator`), and the blanks that are no separators are refused by the lexer.
-/

namespace StreamLang

/-! ## Classes -/

/-- The characters with the Unicode property `White_Space`. -/
def isBlank (c : Char) : Bool :=
  let n := c.toNat
  (0x09 ≤ n && n ≤ 0x0D) || n == 0x20 || n == 0x85 || n == 0xA0 || n == 0x1680 ||
    (0x2000 ≤ n && n ≤ 0x200A) || n == 0x2028 || n == 0x2029 || n == 0x202F || n == 0x205F ||
    n == 0x3000

/-- The characters that may stand between tokens: space, tab, line feed, carriage return and form
feed. -/
def isSeparator (c : Char) : Bool :=
  c == ' ' || c == '\t' || c == '\n' || c == '\r' || c == '\x0c'

/-- An ASCII letter, which may start a name. -/
def isLetter (c : Char) : Bool :=
  c.isAlpha

/-- A character that may continue a name: an ASCII letter or digit, an underscore or a dot. -/
def isNameChar (c : Char) : Bool :=
  c.isAlphanum || c == '_' || c == '.'

/-- A name is a letter followed by name characters. -/
def isName : List Char → Bool
  | [] => false
  | c :: cs => isLetter c && cs.all isNameChar

/-- The delimiters end every unquoted token. -/
def isDelimiter (c : Char) : Bool :=
  c == '|' || c == '\'' || c == '"' || c == '=' || c == '>'

/-- A character that may continue an unquoted literal. -/
def isBare (c : Char) : Bool :=
  !(isBlank c || isDelimiter c)

/-- Separators are blanks. -/
theorem isBlank_of_isSeparator {c : Char} (h : isSeparator c = true) : isBlank c = true := by
  simp only [isSeparator, Bool.or_eq_true, beq_iff_eq] at h
  rcases h with (((rfl | rfl) | rfl) | rfl) | rfl <;> rfl

/-! ## Trimming -/

namespace Text

/-- The text without the blanks at its end. -/
def trimEnd (text : String) : String :=
  String.ofList (text.toList.reverse.dropWhile isBlank).reverse

/-- The text without the blanks at its start. -/
def trimStart (text : String) : String :=
  String.ofList (text.toList.dropWhile isBlank)

/-- The text without the blanks at either end. -/
def trim (text : String) : String :=
  trimStart (trimEnd text)

/-- Whether the text ends in a blank. -/
def endsBlank (text : String) : Bool :=
  text.toList.getLast?.any isBlank

/-- What stands before `ending`, when the text ends in it. -/
def beforeSuffix? (text ending : String) : Option String :=
  if ending.toList.isSuffixOf text.toList then
    some (String.ofList (text.toList.take (text.toList.length - ending.toList.length)))
  else none

end Text

end StreamLang
