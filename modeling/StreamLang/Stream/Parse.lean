import StreamLang.Stream.Partial
import StreamLang.Text.LineIndex
import StreamLang.Token.Lexeme

/-!
Reading stream definitions.

A `Cursor` walks over the tokens of a text and keeps a *checkpoint*: the start of the latest token
before which the text was a complete stream. When a token does not fit, the text up to the
checkpoint is the part of the input that can still be used, and the tokens after it are pending.
-/

namespace StreamLang

/-! ## Cursor -/

/-- A place among the tokens of a text. -/
structure Cursor where
  /-- What has been read. -/
  state : PartialStream
  /-- The offset up to which the text is known to be a stream by itself. -/
  checkpoint : Nat
  /-- The tokens read since the checkpoint. -/
  pending : List Token
  deriving DecidableEq, Repr

/-- The token at which reading stopped, and the cursor before it. -/
structure Halt where
  cursor : Cursor
  offending : Token
  deriving DecidableEq, Repr

namespace Cursor

/-- The cursor before the first token. -/
def start : Cursor := ⟨.start, 0, []⟩

/-- Takes the checkpoint before a token when the stream may end there. -/
def mark (c : Cursor) (t : Token) : Cursor :=
  if c.state.isComplete then { c with checkpoint := t.start, pending := [] } else c

/-- Whether a token starts where the latest pending token ends. -/
def touches (c : Cursor) (t : Token) : Bool :=
  c.pending.getLast?.any fun p => p.stop == t.start

/-- Reads one token. -/
def read (c : Cursor) (t : Token) : Except Halt Cursor :=
  let c := c.mark t
  match c.state.next (c.touches t) t with
  | some state => .ok { c with state, pending := c.pending ++ [t] }
  | none => .error ⟨c, t⟩

/-- Ends the stream at the token for the end of the text. -/
def close (c : Cursor) (t : Token) : Except Halt Topology :=
  match c.state.topology? with
  | some topology => .ok topology
  | none => .error ⟨c, t⟩

/-- Reads the tokens up to the end of the text. -/
def run (c : Cursor) (stop : Token) : List Token → Except Halt Topology
  | [] => c.close stop
  | t :: ts =>
      match c.read t with
      | .ok c => c.run stop ts
      | .error halt => .error halt

end Cursor

/-! ## Failures -/

/-- Why a text is no stream definition, and how far it is one. -/
structure ParseFailure where
  /-- The offset up to which the text is a stream by itself, or zero. -/
  checkpoint : Nat
  /-- The text up to the checkpoint. -/
  partialText : String
  /-- What the grammar asked for. -/
  expectation : Expectation
  /-- The kinds of token announced as possible. -/
  expected : List TokenKind
  /-- The token that did not fit. -/
  offending : Token
  /-- The tokens between the checkpoint and the one that did not fit. -/
  pending : List Token
  /-- Where the token that did not fit starts. -/
  position : LineColumn
  deriving DecidableEq, Repr

namespace ParseFailure

/-- The failure of a text that stopped at `halt`. -/
def ofHalt (text : String) (halt : Halt) : ParseFailure where
  checkpoint := halt.cursor.checkpoint
  partialText := Text.upTo text halt.cursor.checkpoint
  expectation := halt.cursor.state.expectation
  expected := halt.cursor.state.expected
  offending := halt.offending
  pending := halt.cursor.pending
  position := (LineIndex.ofText text).locate (UInt32.ofNat halt.offending.start)

/-- Whether the text simply ended too early. -/
def atEnd (e : ParseFailure) : Bool := e.offending.kind == .eof

/-- Whether the token would have fitted had it touched the one before it. -/
def isDetached (e : ParseFailure) : Bool :=
  e.expectation.isAdjacent && e.expected.contains e.offending.kind &&
    e.pending.getLast?.any fun p => p.stop != e.offending.start

/-- The token that did not fit, as messages show it. -/
def found (e : ParseFailure) : String :=
  match e.offending.kind with
  | .eof => "end of input"
  | .error cause => cause.description ++ " '" ++ e.offending.text ++ "'"
  | _ => "'" ++ e.offending.text ++ "'"

/-- What is wrong, without the place. -/
def reason (e : ParseFailure) : String :=
  if e.isDetached then
    e.expectation.description ++ ": whitespace is not allowed before " ++ e.found
  else
    e.expectation.description ++ ": expected " ++
      " or ".intercalate (e.expected.map TokenKind.description) ++ ", found " ++ e.found

/-- What is wrong, and where. -/
def message (e : ParseFailure) : String :=
  e.reason ++ " at " ++ e.position.render

end ParseFailure

/-! ## Parsing -/

/-- The topology of a text. -/
def Topology.parse (text : String) : Except ParseFailure Topology :=
  match Cursor.start.run (endOf text) (tokensOf text) with
  | .ok topology => .ok topology
  | .error halt => .error (.ofHalt text halt)

/-- The stream that a text defines under a name. -/
def Stream.parse (name text : String) : Except ParseFailure Stream :=
  (Topology.parse text).map fun topology => { topology with name, text }

/-- What was typed up to the checkpoint, read again, if a stage was complete before the failure. -/
def ParseFailure.typed? (e : ParseFailure) : Option Topology :=
  if e.checkpoint = 0 then none else (Topology.parse e.partialText).toOption

end StreamLang
