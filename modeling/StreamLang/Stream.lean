import StreamLang.OrderedMap

/-!
Stream definitions: a pipeline of stages, which may be fed by a named destination and may feed one.

A `Topology` is what a definition means, and a `Stream` is a topology with the name it is known by
and the text it was read from. Comparing topologies looks at names, labels, destinations and
parameter values, and not at the order in which parameters are given.
-/

namespace StreamLang

/-- One stage of a pipeline: the module that runs there, by name, with a label of its own and the
parameters given to it. -/
structure Stage where
  name : String
  label : Option String
  parameters : OrderedMap String String
  deriving DecidableEq, Repr

namespace Stage

/-- The unlabelled stage without parameters. -/
def named (name : String) : Stage := ⟨name, none, .empty⟩

/-- The stage under a label. -/
def withLabel (s : Stage) (label : String) : Stage := { s with label := some label }

/-- The stage with one more parameter, or with a new value for a parameter it has. -/
def withParameter (s : Stage) (key value : String) : Stage :=
  { s with parameters := s.parameters.insert key value }

/-- What the stage is called in its stream: its label, or else its name. -/
def title (s : Stage) : String := s.label.getD s.name

/-- Whether the stage is given the parameter. -/
def hasParameter (s : Stage) (key : String) : Bool := s.parameters.contains key

/-- Whether two stages run the same module under the same label with the same parameters. -/
def same (s t : Stage) : Bool :=
  s.name == t.name && s.label == t.label && s.parameters.sameEntries t.parameters

end Stage

/-- What a stream definition means. -/
structure Topology where
  /-- The destination that feeds the first stage. -/
  source : Option String
  /-- The stages, in the order data passes through them. -/
  stages : List Stage
  /-- The destination that the last stage feeds. -/
  sink : Option String
  deriving DecidableEq, Repr

namespace Topology

/-- Whether two topologies have the same stages between the same destinations. -/
def same (a b : Topology) : Bool :=
  a.stages.isEqv b.stages Stage.same && a.source == b.source && a.sink == b.sink

/-- The last stage. -/
def last? (t : Topology) : Option Stage := t.stages.getLast?

end Topology

/-- A stream definition: its name, the text it was read from, and what it means. -/
structure Stream extends Topology where
  name : String
  text : String
  deriving DecidableEq, Repr

namespace Stream

/-- Whether two streams have the same topology, whatever their names and texts. -/
def sameTopology (a b : Stream) : Bool := a.toTopology.same b.toTopology

/-- Whether two streams have the same name, the same text and the same topology. -/
def same (a b : Stream) : Bool := a.name == b.name && a.text == b.text && a.sameTopology b

end Stream

end StreamLang
