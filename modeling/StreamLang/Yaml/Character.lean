/-!
The characters of a YAML text, with their places.

Line breaks are unified before characters are placed: carriage returns, alone or before a line
feed, and next lines become line feeds, while line and paragraph separators stay what they are.
-/

namespace StreamLang.Yaml

/-! ## Classes -/

/-- The characters that may stand in a YAML text. -/
def isAllowed (c : Char) : Bool :=
  let n := c.toNat
  n == 0x09 || n == 0x0A || n == 0x0D || (0x20 ≤ n && n ≤ 0x7E) || n == 0x85 ||
    (0xA0 ≤ n && n ≤ 0xFFFD) || 0x10000 ≤ n

/-- Spaces and tabs, which separate tokens within a line. -/
def isGap (c : Char) : Bool := c == ' ' || c == '\t'

/-- The characters that end a line. -/
def isBreak (c : Char) : Bool := c == '\n' || c == '\u2028' || c == '\u2029'

/-- The characters of anchors, tag handles and directive names. -/
def isWordChar (c : Char) : Bool := c.isAlphanum || c == '_' || c == '-'

/-- The characters that end a value in a flow collection. -/
def isFlowEnd (c : Char) : Bool := c == ',' || c == '[' || c == ']' || c == '{' || c == '}'

/-- The value of a hexadecimal digit. -/
def hexDigit? (c : Char) : Option Nat :=
  if c.isDigit then some (c.toNat - '0'.toNat)
  else if 'a' ≤ c ∧ c ≤ 'f' then some (c.toNat - 'a'.toNat + 10)
  else if 'A' ≤ c ∧ c ≤ 'F' then some (c.toNat - 'A'.toNat + 10)
  else none

/-- The number that hexadecimal digits stand for. -/
def hexNumber? (digits : List Char) : Option Nat :=
  digits.foldlM (fun n c => (hexDigit? c).map (n * 16 + ·)) 0

/-! ## Places -/

/-- A character with its byte offset, its line and its column, all counted from zero. Columns count
characters. -/
structure Placed where
  char : Char
  offset : Nat
  line : Nat
  column : Nat
  deriving DecidableEq, Repr

/-- The characters with all breaks but line and paragraph separators written as line feeds. -/
def unifyBreaks : List Char → List Char
  | '\r' :: '\n' :: cs => '\n' :: unifyBreaks cs
  | c :: cs => (if c == '\r' || c == '\u0085' then '\n' else c) :: unifyBreaks cs
  | [] => []

/-- Places characters from a given place on. -/
def placeFrom (offset line column : Nat) : List Char → List Placed
  | [] => []
  | c :: cs =>
      ⟨c, offset, line, column⟩ ::
        if isBreak c then placeFrom (offset + c.utf8Size) (line + 1) 0 cs
        else placeFrom (offset + c.utf8Size) line (column + 1) cs

/-- The byte order mark. -/
def byteOrderMark : Char := '\ufeff'

/-- The placed characters of a text, unless one of them is not allowed. -/
def placed? (text : String) : Option (List Placed) :=
  let cs := text.toList
  if cs.all isAllowed then some (placeFrom 0 0 0 (unifyBreaks cs)) else none

/-! ## Looking ahead -/

/-- Whether a gap, a break or the end of the text comes next. -/
def atBlank : List Placed → Bool
  | [] => true
  | p :: _ => isGap p.char || isBreak p.char

/-- Whether this character comes next. -/
def startsWith (c : Char) : List Placed → Bool
  | [] => false
  | p :: _ => p.char == c

/-- Whether a line starts here with the mark of a document's start or end. -/
def atDocumentMark : List Placed → Bool
  | p :: q :: r :: rest =>
      p.column == 0 && (p.char == '-' || p.char == '.') && q.char == p.char && r.char == p.char &&
        atBlank rest
  | _ => false

/-- What follows the gaps. -/
def skipGaps (ps : List Placed) : List Placed := ps.dropWhile fun p => isGap p.char

/-- What follows the rest of the line, which may hold nothing but a comment. The break itself is
left. -/
def skipComment? (ps : List Placed) : Option (List Placed) :=
  match skipGaps ps with
  | [] => some []
  | p :: rest =>
      if p.char == '#' then some (rest.dropWhile fun p => !isBreak p.char)
      else if isBreak p.char then some (p :: rest)
      else none

/-- What follows one break, if there is one. -/
def skipBreak : List Placed → List Placed
  | p :: rest => if isBreak p.char then rest else p :: rest
  | [] => []

/-- The characters without their places. -/
def chars (ps : List Placed) : List Char := ps.map Placed.char

end StreamLang.Yaml
