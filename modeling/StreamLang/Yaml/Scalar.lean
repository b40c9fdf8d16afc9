import StreamLang.Yaml.Character

/-!
Scalars of YAML texts: plain, quoted and block scalars, and how their lines are folded.

Plain and quoted scalars are first split into *pieces*, so that folding sees what was written and
what an escape stands for as different things.
-/

namespace StreamLang.Yaml

/-! ## Folding -/

/-- A piece of a plain or quoted scalar. -/
inductive Piece where
  /-- A character that folding keeps. -/
  | char (c : Char)
  /-- A space or a tab. -/
  | gap (c : Char)
  /-- A line break. -/
  | lineBreak (c : Char)
  /-- An escaped line break, which joins two lines without a space. -/
  | joint
  deriving DecidableEq, Repr

/-- What the gaps and breaks between two kept characters stand for. Gaps stand for themselves
unless there is a break. One line feed is a space, and of more the first is dropped. After a joint
no break is dropped. -/
def foldRun (joined : Bool) (gaps breaks : List Char) : List Char :=
  if joined then breaks
  else
    match breaks with
    | [] => gaps
    | [b] => if b == '\n' then [' '] else [b]
    | b :: rest => if b == '\n' then rest else b :: rest

/-- The characters that pieces stand for. The gaps and breaks that came before them are given, the
latest first, with whether a joint came before those; `keepLast` says whether a run of gaps and
breaks at the end counts. -/
def foldPieces (keepLast joined : Bool) (gaps breaks : List Char) : List Piece → List Char
  | [] => if keepLast then foldRun joined gaps.reverse breaks.reverse else []
  | .char c :: rest =>
      foldRun joined gaps.reverse breaks.reverse ++ c :: foldPieces keepLast false [] [] rest
  | .joint :: rest =>
      foldRun joined gaps.reverse breaks.reverse ++ foldPieces keepLast true [] [] rest
  | .gap c :: rest =>
      if joined || !breaks.isEmpty then foldPieces keepLast joined gaps breaks rest
      else foldPieces keepLast joined (c :: gaps) breaks rest
  | .lineBreak b :: rest => foldPieces keepLast joined gaps (b :: breaks) rest

/-! ## Quoted scalars -/

/-- What an escaped character stands for by itself. -/
def simpleEscape? : Char → Option Char
  | '0' => some '\x00'
  | 'a' => some '\x07'
  | 'b' => some '\x08'
  | 't' => some '\t'
  | '\t' => some '\t'
  | 'n' => some '\n'
  | 'v' => some '\x0b'
  | 'f' => some '\x0c'
  | 'r' => some '\r'
  | 'e' => some '\x1b'
  | ' ' => some ' '
  | '"' => some '"'
  | '/' => some '/'
  | '\\' => some '\\'
  | 'N' => some '\u0085'
  | '_' => some '\u00a0'
  | 'L' => some '\u2028'
  | 'P' => some '\u2029'
  | _ => none

/-- The number of hexadecimal digits that follow an escaped character. -/
def escapeLength? : Char → Option Nat
  | 'x' => some 2
  | 'u' => some 4
  | 'U' => some 8
  | _ => none

/-- The character with this number, if there is one. -/
def charOfNumber? (n : Nat) : Option Char :=
  if n.isValidChar then some (Char.ofNat n) else none

/-- What an escape after its backslash stands for, and the number of characters it takes. -/
def escape? : List Placed → Option (Piece × Nat)
  | [] => none
  | p :: rest =>
      if isBreak p.char then some (.joint, 1)
      else
        match escapeLength? p.char with
        | some n =>
            let digits := chars (rest.take n)
            if digits.length < n then none
            else ((hexNumber? digits).bind charOfNumber?).map fun c => (.char c, n + 1)
        | none => (simpleEscape? p.char).map fun c => (.char c, 1)

/-- The pieces of a quoted scalar up to its closing quote, and what follows it. The first `skip`
characters belong to an escape that has been read. -/
def quotedPieces (quote : Char) : (skip : Nat) → List Placed → Option (List Piece × List Placed)
  | _, [] => none
  | n + 1, _ :: ps => quotedPieces quote n ps
  | 0, p :: ps =>
      if atDocumentMark (p :: ps) then none
      else if p.char = quote then
        if quote = '\'' ∧ startsWith quote ps then
          (quotedPieces quote 1 ps).map fun (pieces, rest) => (.char quote :: pieces, rest)
        else some ([], ps)
      else if quote = '"' ∧ p.char = '\\' then
        match escape? ps with
        | none => none
        | some (piece, n) =>
            (quotedPieces quote n ps).map fun (pieces, rest) => (piece :: pieces, rest)
      else
        let piece :=
          if isGap p.char then Piece.gap p.char
          else if isBreak p.char then .lineBreak p.char
          else .char p.char
        (quotedPieces quote 0 ps).map fun (pieces, rest) => (piece :: pieces, rest)

/-- The text of a quoted scalar after its opening quote, and what follows it. -/
def quotedScalar (quote : Char) (ps : List Placed) : Option (String × List Placed) :=
  (quotedPieces quote 0 ps).map fun (pieces, rest) =>
    (String.ofList (foldPieces true false [] [] pieces), rest)

/-! ## Plain scalars -/

/-- A plain scalar as far as it has been split. -/
structure PlainSplit where
  pieces : List Piece
  /-- What follows the scalar and the gaps and breaks after it. -/
  rest : List Placed
  /-- Whether there is a break among those. -/
  broken : Bool

/-- The split with one more piece before it. -/
def PlainSplit.cons (piece : Piece) (s : PlainSplit) : PlainSplit :=
  { s with pieces := piece :: s.pieces }

/-- Whether a plain scalar ends before the character `p`. -/
def endsPlain (inFlow : Bool) (p : Placed) (ps : List Placed) : Bool :=
  (p.char == ':' && atBlank ps) || (inFlow && isFlowEnd p.char)

/-- Whether a colon stands where it neither belongs to a scalar of a flow collection nor ends it. -/
def isStrayColon (inFlow : Bool) (p : Placed) (ps : List Placed) : Bool :=
  inFlow && p.char == ':' && (ps.head?.any fun q => q.char == '?' || isFlowEnd q.char)

/-- Splits a plain scalar whose lines reach at least to column `margin`. `fresh` says that a gap or
break came last, and `broken` that a break came since the last kept character. -/
def plainPieces (inFlow : Bool) (margin : Nat) (fresh broken : Bool) :
    List Placed → Option PlainSplit
  | [] => some ⟨[], [], broken⟩
  | p :: ps =>
      if isGap p.char then
        if broken && p.column < margin && p.char == '\t' then none
        else (plainPieces inFlow margin true broken ps).map (.cons (.gap p.char))
      else if isBreak p.char then
        (plainPieces inFlow margin true true ps).map (.cons (.lineBreak p.char))
      else if fresh && ((!inFlow && p.column < margin) || atDocumentMark (p :: ps) ||
          p.char == '#') then
        some ⟨[], p :: ps, broken⟩
      else if isStrayColon inFlow p ps then none
      else if endsPlain inFlow p ps then some ⟨[], p :: ps, broken⟩
      else (plainPieces inFlow margin false false ps).map (.cons (.char p.char))

/-! ## Block scalars -/

/-- What becomes of the breaks at the end of a block scalar. -/
inductive Chomping where
  /-- None is kept. -/
  | strip
  /-- The first is kept. -/
  | clip
  /-- All are kept. -/
  | keep
  deriving DecidableEq, Repr

/-- A line of a block scalar, without its indentation, and the break that ends it. -/
structure BlockLine where
  content : List Char
  lineEnd : Option Char
  deriving DecidableEq, Repr

/-- Puts a character before the first line. -/
def BlockLine.prepend (c : Char) : List BlockLine → List BlockLine
  | [] => [⟨[c], none⟩]
  | l :: ls => { l with content := c :: l.content } :: ls

/-- The lines of a block scalar indented to column `margin`, and what follows them. `inLine` says
that the indentation of the current line has been passed. -/
def blockLines (margin : Nat) (inLine : Bool) :
    List Placed → Option (List BlockLine × List Placed)
  | [] => some ([], [])
  | p :: ps =>
      if isBreak p.char then
        (blockLines margin false ps).map fun (lines, rest) =>
          (⟨[], some p.char⟩ :: lines, rest)
      else if inLine || p.column == margin then
        (blockLines margin true ps).map fun (lines, rest) =>
          (BlockLine.prepend p.char lines, rest)
      else if margin < p.column then some ([], p :: ps)
      else if p.char == ' ' then blockLines margin false ps
      else if p.char == '\t' then none
      else some ([], p :: ps)

/-- The largest column reached by the spaces of the lines before the first that holds anything
else. A tab among them is an error. -/
def leadingColumn? (widest : Nat) : List Placed → Option Nat
  | [] => some widest
  | p :: ps =>
      if p.char == ' ' then leadingColumn? (max widest (p.column + 1)) ps
      else if p.char == '\t' then none
      else if isBreak p.char then leadingColumn? widest ps
      else some widest

/-- What stands between two lines of a block scalar that hold something: the break after the first
and the breaks of the empty lines. In a folded scalar, one line feed between two lines that do not
start with a gap becomes a space, or nothing before empty lines. -/
def joinLines (folded indented : Bool) (lastBreak emptyLines : List Char) (next : Char) :
    List Char :=
  if folded && lastBreak == ['\n'] && !indented && !isGap next then
    if emptyLines.isEmpty then [' '] else emptyLines
  else lastBreak ++ emptyLines

/-- What chomping leaves of the breaks at the end of a block scalar. -/
def Chomping.apply (chomping : Chomping) (lastBreak emptyLines : List Char) : List Char :=
  match chomping with
  | .strip => []
  | .clip => lastBreak
  | .keep => lastBreak ++ emptyLines

/-- The characters that the lines of a block scalar stand for. The break after the last line that
holds anything is given, with the breaks since, and whether that line starts with a gap. -/
def foldLines (folded : Bool) (chomping : Chomping) (indented : Bool)
    (lastBreak emptyLines : List Char) : List BlockLine → List Char
  | [] => chomping.apply lastBreak emptyLines
  | l :: ls =>
      match l.content with
      | [] => foldLines folded chomping indented lastBreak (emptyLines ++ l.lineEnd.toList) ls
      | c :: _ =>
          joinLines folded indented lastBreak emptyLines c ++
            (l.content ++ foldLines folded chomping (isGap c) l.lineEnd.toList [] ls)

/-- The indicators after the sign of a block scalar: chomping and indentation in either order. -/
def blockHeader? : List Placed → Option (Chomping × Option Nat × List Placed)
  | ps =>
      let chomping? (ps : List Placed) : Option Chomping × List Placed :=
        match ps with
        | p :: rest =>
            if p.char == '+' then (some .keep, rest)
            else if p.char == '-' then (some .strip, rest)
            else (none, ps)
        | [] => (none, [])
      let digit? (ps : List Placed) : Option (Option Nat × List Placed) :=
        match ps with
        | p :: rest =>
            if p.char == '0' then none
            else if p.char.isDigit then some (some (p.char.toNat - '0'.toNat), rest)
            else some (none, ps)
        | [] => some (none, [])
      match chomping? ps with
      | (some chomping, rest) => (digit? rest).map fun (n, rest) => (chomping, n, rest)
      | (none, _) =>
          match digit? ps with
          | none => none
          | some (none, _) => some (.clip, none, ps)
          | some (some n, rest) =>
              let (chomping, rest) := chomping? rest
              some (chomping.getD .clip, some n, rest)

/-- The text of a block scalar after its sign, and what follows it. `above` is one more than the
column of the collection it stands in, or zero. -/
def blockScalar (folded : Bool) (above : Nat) (ps : List Placed) : Option (String × List Placed) := do
  let (chomping, indentation, rest) ← blockHeader? ps
  let rest := skipBreak (← skipComment? rest)
  let margin ←
    match indentation with
    | some n => some (above - 1 + n)
    | none => (leadingColumn? 0 rest).map fun widest => max widest (max above 1)
  let (lines, rest) ← blockLines margin false rest
  pure (String.ofList (foldLines folded chomping false [] [] lines), rest)

end StreamLang.Yaml
