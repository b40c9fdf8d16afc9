import StreamLang.Span

/-!
Tokens of stream definitions. Text that forms no token still becomes a token, of an error kind, so
that every text has a list of tokens and the parser alone decides what is wrong with it.
-/

namespace StreamLang

/-- What is wrong with text that forms no token. -/
inductive LexError where
  /-- No token starts with this character. -/
  | unexpectedCharacter
  /-- A quoted literal runs to the end of the text without its closing quote. -/
  | unterminatedLiteral
  deriving DecidableEq, Repr

/-- The kinds of token. -/
inductive TokenKind where
  /-- A name. -/
  | identifier
  | pipe
  | doubleDash
  | equals
  /-- A quoted or bare value. -/
  | literal
  /-- A named destination, written with a colon before its name. -/
  | destination
  /-- The label of a stage, written with a colon after its name. -/
  | label
  /-- The arrow that binds a destination to the stream. -/
  | gt
  | error (cause : LexError)
  /-- The end of the text. -/
  | eof
  deriving DecidableEq, Repr

/-- The cause in words. -/
def LexError.description : LexError → String
  | .unexpectedCharacter => "unexpected character"
  | .unterminatedLiteral => "unterminated quoted literal"

namespace TokenKind

/-- The kind as messages spell it. -/
def description : TokenKind → String
  | .identifier => "identifier"
  | .pipe => "'|'"
  | .doubleDash => "'--'"
  | .equals => "'='"
  | .literal => "literal"
  | .destination => "destination"
  | .label => "label"
  | .gt => "'>'"
  | .error cause => cause.description
  | .eof => "end of input"

end TokenKind

/-- A token with the bytes it covers. Its text is what it means: the bare name of a label or
destination, the contents of a quoted literal, and the covered text of every other token. -/
structure Token where
  kind : TokenKind
  text : String
  span : Span
  deriving DecidableEq, Repr

namespace Token

/-- The offset of the first byte. -/
def start (t : Token) : Nat := t.span.start

/-- The offset after the last byte. -/
def stop (t : Token) : Nat := t.span.stop

/-- The token that ends a text of the given length. -/
def endOfText (offset : Nat) : Token :=
  ⟨.eof, "", .ofOffsets offset offset⟩

end Token

end StreamLang
