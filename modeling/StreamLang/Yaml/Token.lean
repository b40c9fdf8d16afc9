import StreamLang.Yaml.Scalar
import StreamLang.Yaml.Tag

/-!
Tokens of YAML texts.

Indentation and the keys of mappings become tokens of their own. A token that may start a key is
remembered until it is clear whether a colon follows; then the tokens that mark the key, and the
mapping it opens, are put in front of it.
-/

namespace StreamLang.Yaml

/-- The tokens of a YAML text. -/
inductive Token where
  | version (major minor : Nat)
  | tagHandle (handle : String) (start : List UInt8)
  | documentStart
  | documentEnd
  | blockSequenceStart
  | blockMappingStart
  | blockEnd
  | flowSequenceStart
  | flowSequenceEnd
  | flowMappingStart
  | flowMappingEnd
  | blockEntry
  | flowEntry
  | key
  | value
  | alias (name : String)
  | anchor (name : String)
  | tag (tag : Tag)
  | scalar (text : String) (plain : Bool)
  | streamEnd
  deriving DecidableEq, Repr

/-! ## Words, anchors and directives -/

/-- The word that comes next, and what follows it. -/
def word (ps : List Placed) : String × List Placed :=
  (String.ofList (chars (ps.takeWhile fun p => isWordChar p.char)),
    ps.dropWhile fun p => isWordChar p.char)

/-- The name of an anchor or alias, and what follows it. -/
def anchorName? (ps : List Placed) : Option (String × List Placed) :=
  let (name, rest) := word ps
  if name ≠ "" ∧ (atBlank rest ∨ rest.head?.any fun p => "?:,]\x7d%@`".toList.contains p.char) then
    some (name, rest)
  else none

/-- A number of at most nine digits, and what follows it. -/
def number? (ps : List Placed) : Option (Nat × List Placed) :=
  let digits := chars (ps.takeWhile fun p => p.char.isDigit)
  if digits.isEmpty ∨ 9 < digits.length then none
  else
    some (digits.foldl (fun n c => n * 10 + (c.toNat - '0'.toNat)) 0,
      ps.dropWhile fun p => p.char.isDigit)

/-- The directive after its percent sign, and what follows its line. -/
def directive? (ps : List Placed) : Option (Token × List Placed) := do
  let (name, rest) := word ps
  if !atBlank rest then none
  else
    let (token, rest) ←
      if name = "YAML" then do
        let (major, rest) ← number? (skipGaps rest)
        if !startsWith '.' rest then none
        else do
          let (minor, rest) ← number? rest.tail
          some (Token.version major minor, rest)
      else if name = "TAG" then do
        let rest := skipGaps rest
        if !startsWith '!' rest then none
        else do
          let (opening, rest) := Tag.opening rest.tail
          if !(opening == ['!'] || Tag.isHandle opening) then none
          else if !(rest.head?.any fun p => isGap p.char) then none
          else do
            let (start, rest) ← Tag.someTagText? true (skipGaps rest)
            if atBlank rest then
              some (Token.tagHandle (String.ofList opening) start, rest)
            else none
      else none
    let rest ← skipComment? rest
    pure (token, skipBreak rest)

/-! ## Scanner -/

/-- A token that may turn out to start a key: its number among the tokens, its place, and whether
it has to be a key because of its indentation. -/
structure KeyCandidate where
  number : Nat
  offset : Nat
  line : Nat
  column : Nat
  required : Bool
  deriving DecidableEq, Repr

/-- What the tokens read so far leave behind. Margins are one more than the column of a block
collection. -/
structure Scanner where
  /-- The tokens, the latest first. -/
  latest : List Token
  /-- Their number. -/
  count : Nat
  /-- The margins of the open block collections, the innermost first. -/
  margins : List Nat
  /-- The key candidate of the innermost open flow collection. -/
  candidate : Option KeyCandidate
  /-- The candidates of the collections around it; there is one for every open flow collection. -/
  outer : List (Option KeyCandidate)
  /-- Whether a key may start with the next token. -/
  keyAllowed : Bool

namespace Scanner

/-- The scanner before the first character. -/
def start : Scanner := ⟨[], 0, [], none, [], true⟩

/-- Whether a flow collection is open. -/
def inFlow (s : Scanner) : Bool := !s.outer.isEmpty

/-- The margin of the innermost block collection. -/
def margin (s : Scanner) : Nat := s.margins.headD 0

/-- Adds a token. -/
def emit (s : Scanner) (t : Token) : Scanner :=
  { s with latest := t :: s.latest, count := s.count + 1 }

/-- Puts a token before the one with this number. -/
def insertAt (s : Scanner) (number : Nat) (t : Token) : Scanner :=
  let later := s.count - number
  { s with latest := s.latest.take later ++ t :: s.latest.drop later, count := s.count + 1 }

/-- Allows or forbids keys at the next token. -/
def allowKey (s : Scanner) (allowed : Bool) : Scanner := { s with keyAllowed := allowed }

/-! ### Block collections -/

/-- Opens a block collection at a margin, unless one is open there or farther in. -/
def openBlock (s : Scanner) (margin : Nat) (number : Nat) (t : Token) : Scanner :=
  if s.inFlow || margin ≤ s.margin then s
  else { s.insertAt number t with margins := margin :: s.margins }

/-- Closes the block collections whose margin is larger. -/
def closeBlocks (s : Scanner) (margin : Nat) : Scanner :=
  if s.inFlow then s
  else
    let closed := s.margins.takeWhile (margin < ·)
    closed.foldl (fun s _ => s.emit .blockEnd)
      { s with margins := s.margins.dropWhile (margin < ·) }

/-! ### Key candidates -/

/-- Whether a candidate is too far back to be a key of the text at `p`: on another line, or by more
than 1024 bytes. -/
def isStale (p : Placed) (k : KeyCandidate) : Bool :=
  k.line < p.line || k.offset + 1024 < p.offset

/-- Drops the candidate, unless it has to be a key. -/
def dropCandidate (s : Scanner) : Option Scanner :=
  if s.candidate.any (·.required) then none else some { s with candidate := none }

/-- Drops the candidate when it is too far back, unless it has to be a key. Those of the collections
around come up when these are innermost again. -/
def dropStale (s : Scanner) (p : Placed) : Option Scanner :=
  if s.candidate.any (isStale p) then s.dropCandidate else some s

/-- Makes the next token a candidate, where keys are allowed. -/
def noteCandidate (s : Scanner) (p : Placed) : Option Scanner :=
  if s.keyAllowed then do
    let s ← s.dropCandidate
    let required := !s.inFlow && s.margin == p.column + 1
    pure { s with candidate := some ⟨s.count, p.offset, p.line, p.column, required⟩ }
  else some s

/-! ### Tokens -/

/-- Reads a mark that starts or ends a document. -/
def readDocumentMark (s : Scanner) (t : Token) : Option Scanner := do
  let s ← (s.closeBlocks 0).dropCandidate
  pure ((s.emit t).allowKey false)

/-- Opens a flow collection. -/
def readFlowStart (s : Scanner) (p : Placed) (t : Token) : Option Scanner := do
  let s ← s.noteCandidate p
  pure (({ s with candidate := none, outer := s.candidate :: s.outer }.emit t).allowKey true)

/-- Closes a flow collection. -/
def readFlowEnd (s : Scanner) (t : Token) : Option Scanner := do
  let s ← s.dropCandidate
  let s :=
    match s.outer with
    | [] => s
    | k :: outer => { s with candidate := k, outer }
  pure ((s.emit t).allowKey false)

/-- Reads the comma of a flow collection. -/
def readFlowEntry (s : Scanner) : Option Scanner := do
  let s ← s.dropCandidate
  pure ((s.emit .flowEntry).allowKey true)

/-- Reads the dash of a sequence. -/
def readBlockEntry (s : Scanner) (p : Placed) : Option Scanner := do
  if !s.inFlow && !s.keyAllowed then none
  else
    let s ← (s.openBlock (p.column + 1) s.count .blockSequenceStart).dropCandidate
    pure ((s.emit .blockEntry).allowKey true)

/-- Reads the question mark of a key. -/
def readKey (s : Scanner) (p : Placed) : Option Scanner := do
  if !s.inFlow && !s.keyAllowed then none
  else
    let s ← (s.openBlock (p.column + 1) s.count .blockMappingStart).dropCandidate
    pure ((s.emit .key).allowKey !s.inFlow)

/-- Reads the colon of a value. When there is a candidate, it has been a key. -/
def readValue (s : Scanner) (p : Placed) : Option Scanner :=
  match s.candidate with
  | some k =>
      let s := (s.insertAt k.number .key).openBlock (k.column + 1) k.number .blockMappingStart
      some (({ s with candidate := none }.emit .value).allowKey false)
  | none =>
      if !s.inFlow && !s.keyAllowed then none
      else
        let s := s.openBlock (p.column + 1) s.count .blockMappingStart
        some ((s.emit .value).allowKey !s.inFlow)

/-- Reads a token that may start a key, and after which none may start. -/
def readWith (s : Scanner) (p : Placed) (found : Option (Token × List Placed)) :
    Option (Scanner × List Placed) := do
  let s ← s.noteCandidate p
  let (t, rest) ← found
  pure ((s.emit t).allowKey false, rest)

/-- Reads a block scalar. -/
def readBlockScalar (s : Scanner) (folded : Bool) (ps : List Placed) :
    Option (Scanner × List Placed) := do
  let s ← s.dropCandidate
  let (text, rest) ← blockScalar folded s.margin ps
  pure ((s.emit (.scalar text false)).allowKey true, rest)

/-- Reads a plain scalar. -/
def readPlain (s : Scanner) (p : Placed) (ps : List Placed) : Option (Scanner × List Placed) := do
  let s ← s.noteCandidate p
  let split ← plainPieces s.inFlow s.margin false false (p :: ps)
  let text := String.ofList (foldPieces false false [] [] split.pieces)
  pure ((s.emit (.scalar text true)).allowKey split.broken, split.rest)

/-- Whether a plain scalar can start with `p`. -/
def startsPlain (inFlow : Bool) (p : Placed) (ps : List Placed) : Bool :=
  if p.char == '-' then !(ps.head?.any fun q => isGap q.char)
  else if p.char == '?' || p.char == ':' then !inFlow && !atBlank ps
  else !(isGap p.char || isBreak p.char || ",[]\x7b\x7d#&*!|>'\"%@`".toList.contains p.char)

/-- Reads the token at `p`. -/
def read (s : Scanner) (p : Placed) (ps : List Placed) : Option (Scanner × List Placed) :=
  let indicator (found : Option Scanner) := found.map (·, ps)
  if p.column == 0 && p.char == '%' then do
    let s ← (s.closeBlocks 0).dropCandidate
    let (t, rest) ← directive? ps
    pure ((s.emit t).allowKey false, rest)
  else if atDocumentMark (p :: ps) then
    (s.readDocumentMark (if p.char == '-' then .documentStart else .documentEnd)).map
      (·, ps.drop 2)
  else if p.char == '[' then indicator (s.readFlowStart p .flowSequenceStart)
  else if p.char == '{' then indicator (s.readFlowStart p .flowMappingStart)
  else if p.char == ']' then indicator (s.readFlowEnd .flowSequenceEnd)
  else if p.char == '}' then indicator (s.readFlowEnd .flowMappingEnd)
  else if p.char == ',' then indicator s.readFlowEntry
  else if p.char == '-' && atBlank ps then indicator (s.readBlockEntry p)
  else if p.char == '?' && (s.inFlow || atBlank ps) then indicator (s.readKey p)
  else if p.char == ':' && (s.inFlow || atBlank ps) then indicator (s.readValue p)
  else if p.char == '*' then s.readWith p ((anchorName? ps).map fun (n, rest) => (.alias n, rest))
  else if p.char == '&' then s.readWith p ((anchorName? ps).map fun (n, rest) => (.anchor n, rest))
  else if p.char == '!' then
    s.readWith p ((Tag.ofPlaced? s.inFlow ps).map fun (t, rest) => (.tag t, rest))
  else if p.char == '|' && !s.inFlow then s.readBlockScalar false ps
  else if p.char == '>' && !s.inFlow then s.readBlockScalar true ps
  else if p.char == '\'' || p.char == '"' then
    s.readWith p ((quotedScalar p.char ps).map fun (text, rest) => (.scalar text false, rest))
  else if startsPlain s.inFlow p ps then s.readPlain p ps
  else none

/-- Reads on at `p`: passes over gaps, comments, breaks and byte order marks at the start of a line,
or reads a token. A byte order mark takes a column. -/
def step (s : Scanner) (p : Placed) (ps : List Placed) : Option (Scanner × List Placed) :=
  if p.column == 0 && p.char == byteOrderMark then some (s, ps)
  else if p.char == ' ' || (p.char == '\t' && (s.inFlow || !s.keyAllowed)) then some (s, ps)
  else if p.char == '#' then some (s, ps.dropWhile fun p => !isBreak p.char)
  else if isBreak p.char then some (s.allowKey (s.keyAllowed || !s.inFlow), ps)
  else do
    let s ← s.dropStale p
    (s.closeBlocks (p.column + 1)).read p ps

/-- Ends the text. -/
def finish (s : Scanner) : Option (List Token) := do
  let s ← (s.closeBlocks 0).dropCandidate
  pure (s.emit .streamEnd).latest.reverse

/-- Reads all characters from the offset `resume` on, or none. -/
def run (s : Scanner) (resume : Option Nat) : List Placed → Option (List Token)
  | [] => s.finish
  | p :: ps =>
      if resume.all (p.offset < ·) then run s resume ps
      else
        match s.step p ps with
        | none => none
        | some (s, rest) => run s (rest.head?.map Placed.offset) ps

end Scanner

/-- The tokens of a YAML text, unless it is malformed. -/
def tokens? (text : String) : Option (List Token) := do
  let ps ← placed? text
  Scanner.start.run (some 0) ps

end StreamLang.Yaml
