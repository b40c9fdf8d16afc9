import StreamLang.Text.Blank
import StreamLang.Text.Bytes
import StreamLang.Token

/-!
Lexical structure: how a text splits into tokens.

`Lexeme.read` decides what stands at a character that is no separator: an operator, a quoted
literal, a destination, or a *run* of characters up to the next blank or delimiter, which is a
name, a label or a bare literal. `tokenize` reads one lexeme after the other, passing over the
separators between them, and closes the list with a token for the end of the text.
-/

namespace StreamLang

/-- A token before it is placed: its kind, its meaning, and the number of characters it covers. -/
structure Lexeme where
  kind : TokenKind
  text : String
  length : Nat
  deriving DecidableEq, Repr

namespace Lexeme

/-! ## Quoted literals -/

/-- Reads the inside of a literal quoted with `q`, after the opening quote: what it means, and the
number of characters up to and with the closing quote. Inside, a doubled quote means the quote, and
a backslash before the quote, a pipe or a backslash means that character. Without a closing quote
there is no literal. -/
def quoted? (q : Char) : List Char → Option (List Char × Nat)
  | [] => none
  | '\\' :: d :: cs =>
      if d = q ∨ d = '|' ∨ d = '\\' then
        (quoted? q cs).map fun (value, n) => (d :: value, n + 2)
      else
        (quoted? q (d :: cs)).map fun (value, n) => ('\\' :: value, n + 1)
  | c :: d :: cs =>
      if c = q then
        if d = q then (quoted? q cs).map fun (value, n) => (q :: value, n + 2)
        else some ([], 1)
      else (quoted? q (d :: cs)).map fun (value, n) => (c :: value, n + 1)
  | [c] => if c = q then some ([], 1) else none

/-- The literal that the quote `q` opens before `cs`. Left open, it is an error that covers the
rest of the text. -/
def quoted (q : Char) (cs : List Char) : Lexeme :=
  match quoted? q cs with
  | some (value, n) => ⟨.literal, String.ofList value, n + 1⟩
  | none => ⟨.error .unterminatedLiteral, String.ofList (q :: cs), cs.length + 1⟩

/-! ## Runs -/

/-- The error of a character that starts no token. -/
def unexpected (c : Char) : Lexeme :=
  ⟨.error .unexpectedCharacter, c.toString, 1⟩

/-- Whether the text goes on with a blank outside ASCII. -/
def beforeWideBlank (rest : List Char) : Bool :=
  rest.head?.any fun c => isBlank c && 0x80 ≤ c.toNat

/-- The lexeme of a maximal run of bare characters, before `rest`. A name is an identifier, and a
name with a colon after it a label; only before a blank outside ASCII does a name keep its colon.
Every other run is a literal. -/
def ofRun (run rest : List Char) : Lexeme :=
  if isName run then ⟨.identifier, String.ofList run, run.length⟩
  else if run.getLast? = some ':' ∧ isName run.dropLast then
    if beforeWideBlank rest then ⟨.identifier, String.ofList run, run.length⟩
    else ⟨.label, String.ofList run.dropLast, run.length⟩
  else ⟨.literal, String.ofList run, run.length⟩

/-- The destination that a colon starts before `cs`: its name is as long as it can be. -/
def destination (cs : List Char) : Lexeme :=
  let name := cs.takeWhile isNameChar
  if isName name then ⟨.destination, String.ofList name, name.length + 1⟩
  else unexpected ':'

/-! ## Any lexeme -/

/-- The lexeme at the character `c`, which is no separator, before `cs`. -/
def read (c : Char) (cs : List Char) : Lexeme :=
  match c with
  | '|' => ⟨.pipe, "|", 1⟩
  | '=' => ⟨.equals, "=", 1⟩
  | '>' => ⟨.gt, ">", 1⟩
  | '-' => if cs.head? = some '-' then ⟨.doubleDash, "--", 2⟩ else unexpected '-'
  | ':' => destination cs
  | '\'' => quoted '\'' cs
  | '"' => quoted '"' cs
  | c =>
      if isBlank c then unexpected c
      else ofRun (c :: cs.takeWhile isBare) (cs.dropWhile isBare)

/-- The lexeme as a token that starts at the byte offset `offset` of the text `cs`. -/
def place (x : Lexeme) (offset : Nat) (cs : List Char) : Token :=
  ⟨x.kind, x.text, .ofOffsets offset (offset + byteLength (cs.take x.length))⟩

end Lexeme

/-! ## Tokens of a text -/

/-- The tokens in a text whose first character is at the byte offset `offset`; the first `covered`
characters belong to a token that has been read. -/
def tokensFrom (offset : Nat) : (covered : Nat) → List Char → List Token
  | _, [] => []
  | n + 1, c :: cs => tokensFrom (offset + c.utf8Size) n cs
  | 0, c :: cs =>
      if isSeparator c then tokensFrom (offset + c.utf8Size) 0 cs
      else
        let x := Lexeme.read c cs
        x.place offset (c :: cs) :: tokensFrom (offset + c.utf8Size) (x.length - 1) cs

/-- The tokens in a text, without the one for its end. -/
def tokensOf (text : String) : List Token :=
  tokensFrom 0 0 text.toList

/-- The token for the end of a text. -/
def endOf (text : String) : Token :=
  .endOfText (byteLength text.toList)

/-- The tokens of a text: those in it, and one for its end. -/
def tokenize (text : String) : List Token :=
  tokensOf text ++ [endOf text]

end StreamLang
