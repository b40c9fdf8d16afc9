/-!
The roles that modules play in streams, or by themselves as tasks.
-/

namespace StreamLang

/-- What a module does in a stream. -/
inductive ModuleType where
  /-- Produces data. -/
  | source
  /-- Takes data and passes data on. -/
  | processor
  /-- Takes data. -/
  | sink
  /-- Runs by itself. -/
  | task
  deriving DecidableEq, Repr

/-- The error of a text that names no module type. -/
structure UnknownModuleType where
  text : String
  deriving DecidableEq, Repr

/-- What is wrong. -/
def UnknownModuleType.message (e : UnknownModuleType) : String :=
  "unknown module type '" ++ e.text ++ "'"

namespace ModuleType

/-- All module types, in the order in which they are tried by default. -/
def all : List ModuleType := [.source, .processor, .sink, .task]

/-- The name of the type. -/
def name : ModuleType → String
  | .source => "source"
  | .processor => "processor"
  | .sink => "sink"
  | .task => "task"

/-- Whether a module of this type passes data on. -/
def hasOutput : ModuleType → Bool
  | .source | .processor => true
  | .sink | .task => false

/-- The type of this name. -/
def ofName? (text : String) : Option ModuleType :=
  all.find? fun t => t.name == text

/-- The type of this name, or the error that there is none. -/
def parse (text : String) : Except UnknownModuleType ModuleType :=
  match ofName? text with
  | some t => .ok t
  | none => .error ⟨text⟩

/-- A type is found by its name. -/
@[simp] theorem ofName?_name (t : ModuleType) : ofName? t.name = some t := by
  cases t <;> decide

end ModuleType

end StreamLang
