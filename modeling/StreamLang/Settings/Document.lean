import StreamLang.Repository.FileTree
import StreamLang.Settings
import StreamLang.Yaml.Node

/-!
Settings documents.

Every section may be left out, an empty section counts as an empty collection, and fields of other
names are ignored. A known field may stand only once in its section, while of repeated keys among
the registered modules the last counts. Whether the order of types is usable is looked at only when
the document has been read.
-/

namespace StreamLang.Settings

open Yaml (Node)

/-- The entries of a mapping. An empty plain scalar is an empty mapping. -/
def entries? (d : Yaml.Document) (n : Node) : Option (List (Node × Node)) := do
  match ← d.resolve? n with
  | .mapping entries => some entries
  | .scalar _ "" true => some []
  | _ => none

/-- The items of a sequence. An empty plain scalar is an empty sequence. -/
def items? (d : Yaml.Document) (n : Node) : Option (List Node) := do
  match ← d.resolve? n with
  | .sequence items => some items
  | .scalar _ "" true => some []
  | _ => none

/-- The text of a scalar, however it is written. -/
def text? (d : Yaml.Document) (n : Node) : Option String := do
  match ← d.resolve? n with
  | .scalar _ text _ => some text
  | _ => none

/-- The fields of a section, with their names. -/
def section? (d : Yaml.Document) (n : Node) : Option (List (String × Node)) := do
  (← entries? d n).mapM fun (key, value) => do
    let name ← text? d key
    pure (name, value)

/-- The field of this name, which may be missing but not repeated. -/
def field? (name : String) (fields : List (String × Node)) : Option (Option Node) :=
  match fields.filter fun f => f.1 == name with
  | [] => some none
  | [(_, value)] => some (some value)
  | _ => none

/-- Reads a field, or takes the fallback where it is missing. -/
def readField? {α : Type} (name : String) (fields : List (String × Node)) (fallback : α)
    (read : Node → Option α) : Option α := do
  match ← field? name fields with
  | some n => read n
  | none => pure fallback

/-- The texts that stand for no value. -/
def nullTexts : List String := ["", "~", "null", "Null", "NULL"]

/-- The module type that a scalar names: by the name of its tag, which then stands before no value,
or else by its text. -/
def moduleType? (d : Yaml.Document) (n : Node) : Option ModuleType := do
  match ← d.resolve? n with
  | .scalar tag text plain =>
      match tag.bind Yaml.Tag.localName? with
      | some name =>
          if plain && nullTexts.contains text then ModuleType.ofName? name else none
      | none => ModuleType.ofName? text
  | _ => none

/-- The modules to register. -/
def contents? (d : Yaml.Document) (n : Node) : Option (OrderedMap String String) := do
  let pairs ← (← entries? d n).mapM fun (key, value) => do
    let key ← text? d key
    let value ← text? d value
    pure (key, value)
  pure (.ofList pairs)

/-- The settings in a document. -/
def ofDocument? (d : Yaml.Document) : Option Settings := do
  let sections ← section? d d.root
  let contents ← readField? "registry" sections .empty fun n => do
    readField? "contents" (← section? d n) .empty (contents? d)
  let precedence ← readField? "completion" sections ModuleType.all fun n => do
    readField? "type-precedence" (← section? d n) ModuleType.all fun n => do
      (← items? d n).mapM (moduleType? d)
  pure ⟨contents, precedence⟩

/-- The settings in a text. -/
def parse (text : String) : Except SettingsError Settings :=
  match Yaml.document? text with
  | none => .error .malformed
  | some none => .ok .default
  | some (some d) =>
      match ofDocument? d with
      | none => .error .malformed
      | some settings =>
          if ModuleType.isPrecedence settings.precedence then .ok settings
          else .error .invalidTypePrecedence

/-- The settings in a file. -/
def load (tree : FileTree) (path : String) : Except SettingsError Settings :=
  match tree.lookup path with
  | .ok (.file contents) =>
      match String.fromUTF8? contents with
      | some text => parse text
      | none => .error (.io path)
  | _ => .error (.io path)

end StreamLang.Settings
