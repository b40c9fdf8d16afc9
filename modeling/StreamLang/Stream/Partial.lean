import StreamLang.Stream
import StreamLang.Token

/-!
Stream definitions as far as they have been read.

The grammar is

* a stream: an optional destination and `>`, stages with `|` between them, an optional `>` and
  destination;
* a stage: an optional label, a name, and parameters;
* a parameter: `--`, a key, `=` and a value, with nothing between them.

A `PartialStream` is a position in this grammar together with what has been read on the way there,
and `PartialStream.next` is one step through it. At every position at most one step is possible
for a token, so that reading never goes back.
-/

namespace StreamLang

/-- What the grammar asks for at a position where reading can stop. -/
inductive Expectation where
  /-- A name: at the start, after a pipe, after a label, or after the arrow of the source. -/
  | moduleName
  /-- A stage is complete. -/
  | pipeOrEnd
  /-- The key of a parameter, right after the dashes. -/
  | propertyName
  /-- The equals sign of a parameter, right after its key. -/
  | equals
  /-- The value of a parameter, right after the equals sign. -/
  | value
  /-- The destination that the stream feeds. -/
  | destination
  /-- The arrow after the destination that feeds the stream. -/
  | arrow
  /-- Nothing more. -/
  | endOfInput
  deriving DecidableEq, Repr

namespace Expectation

/-- The expectation as messages spell it. -/
def description : Expectation → String
  | .moduleName => "expecting module name"
  | .pipeOrEnd => "expecting '|' or end of input"
  | .propertyName => "expecting property name after '--'"
  | .equals => "expecting '=' after property name"
  | .value => "expecting property value after '='"
  | .destination => "expecting destination after '>'"
  | .arrow => "expecting '>' after destination"
  | .endOfInput => "expecting end of input"

/-- Whether what is expected has to touch the token before it. -/
def isAdjacent : Expectation → Bool
  | .propertyName | .equals | .value => true
  | _ => false

end Expectation

/-- The finished part of a stream: its source and its stages, the latest first. -/
structure Draft where
  source : Option String
  latest : List Stage
  deriving DecidableEq, Repr

namespace Draft

/-- The draft in which one more stage is finished. -/
def push (d : Draft) (s : Stage) : Draft := { d with latest := s :: d.latest }

/-- The topology of the finished stages. -/
def topology (d : Draft) (sink : Option String) : Topology :=
  ⟨d.source, d.latest.reverse, sink⟩

end Draft

/-- A stream as far as it has been read. -/
inductive PartialStream where
  /-- Nothing has been read. -/
  | start
  /-- The destination that feeds the stream. -/
  | source (destination : String)
  /-- Everything up to the start of a stage. -/
  | stageStart (done : Draft)
  /-- The label of a stage. -/
  | labelled (done : Draft) (label : String)
  /-- A stage, up to its name or a parameter. -/
  | stage (done : Draft) (current : Stage)
  /-- The dashes of a parameter. -/
  | dashes (done : Draft) (current : Stage)
  /-- A parameter up to its key. -/
  | key (done : Draft) (current : Stage) (key : String)
  /-- A parameter up to its equals sign. -/
  | equals (done : Draft) (current : Stage) (key : String)
  /-- All stages, and the arrow after them. -/
  | arrow (done : Draft)
  /-- All stages, and the destination they feed. -/
  | closed (done : Draft) (destination : String)
  deriving DecidableEq, Repr

namespace PartialStream

/-- Reading on by one token. `touching` says whether the token starts where the one before it
ends, which matters within a parameter only. -/
def next (p : PartialStream) (touching : Bool) (t : Token) : Option PartialStream :=
  match p, t.kind with
  | .start, .destination => some (.source t.text)
  | .start, .label => some (.labelled ⟨none, []⟩ t.text)
  | .start, .identifier => some (.stage ⟨none, []⟩ (.named t.text))
  | .source destination, .gt => some (.stageStart ⟨some destination, []⟩)
  | .stageStart d, .label => some (.labelled d t.text)
  | .stageStart d, .identifier => some (.stage d (.named t.text))
  | .labelled d label, .identifier => some (.stage d ((Stage.named t.text).withLabel label))
  | .stage d s, .pipe => some (.stageStart (d.push s))
  | .stage d s, .doubleDash => some (.dashes d s)
  | .stage d s, .gt => some (.arrow (d.push s))
  | .dashes d s, .identifier => if touching then some (.key d s t.text) else none
  | .key d s k, .equals => if touching then some (.equals d s k) else none
  | .equals d s k, .identifier => if touching then some (.stage d (s.withParameter k t.text)) else none
  | .equals d s k, .literal => if touching then some (.stage d (s.withParameter k t.text)) else none
  | .arrow d, .destination => some (.closed d t.text)
  | _, _ => none

/-- The topology of a stream that may end here. -/
def topology? : PartialStream → Option Topology
  | .stage d s => some ((d.push s).topology none)
  | .closed d destination => some (d.topology (some destination))
  | _ => none

/-- Whether the stream may end here. -/
def isComplete : PartialStream → Bool
  | .stage _ _ | .closed _ _ => true
  | _ => false

/-- A stream may end exactly where it has a topology. -/
@[simp] theorem isSome_topology? (p : PartialStream) : p.topology?.isSome = p.isComplete := by
  cases p <;> rfl

/-- What the grammar asks for next. -/
def expectation : PartialStream → Expectation
  | .start | .stageStart _ | .labelled _ _ => .moduleName
  | .source _ => .arrow
  | .stage _ _ => .pipeOrEnd
  | .dashes _ _ => .propertyName
  | .key _ _ _ => .equals
  | .equals _ _ _ => .value
  | .arrow _ => .destination
  | .closed _ _ => .endOfInput

/-- The kinds of token that are announced as possible next. -/
def expected : PartialStream → List TokenKind
  | .start | .stageStart _ => [.label, .identifier]
  | .labelled _ _ => [.identifier]
  | .source _ => [.gt]
  | .stage _ _ => [.pipe, .doubleDash, .gt, .eof]
  | .dashes _ _ => [.identifier]
  | .key _ _ _ => [.equals]
  | .equals _ _ _ => [.identifier, .literal]
  | .arrow _ => [.destination]
  | .closed _ _ => [.eof]

end PartialStream

end StreamLang
