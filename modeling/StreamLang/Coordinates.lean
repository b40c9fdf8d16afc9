import StreamLang.Text.Blank

/-!
Coordinates of module artifacts: `group:artifact[:extension[:classifier]]:version`.

The written form always carries the extension, and carries the classifier when there is one.
-/

namespace StreamLang

/-- The parts of coordinates that may not be empty. -/
inductive CoordinatesPart where
  | group
  | artifact
  | extension
  | version
  deriving DecidableEq, Repr

/-- The part as messages spell it. -/
def CoordinatesPart.description : CoordinatesPart → String
  | .group => "group id"
  | .artifact => "artifact id"
  | .extension => "extension"
  | .version => "version"

/-- Why a text is no coordinates. -/
inductive CoordinatesError where
  /-- There are fewer than three parts or more than five. -/
  | wrongShape (input : String)
  /-- A part is empty. -/
  | emptyPart (input : String) (part : CoordinatesPart)
  deriving DecidableEq, Repr

/-- What is wrong. -/
def CoordinatesError.message : CoordinatesError → String
  | .wrongShape input =>
      "invalid coordinates '" ++ input ++
        "': expected group:artifact[:extension[:classifier]]:version"
  | .emptyPart input part =>
      "invalid coordinates '" ++ input ++ "': " ++ part.description ++ " must not be empty"

/-- Where an artifact is found among all artifacts. An empty classifier means none. -/
structure Coordinates where
  group : String
  artifact : String
  extension : String
  classifier : String
  version : String
  deriving DecidableEq, Repr

namespace Coordinates

/-- The extension of coordinates that name none. -/
def defaultExtension : String := "jar"

/-- Coordinates with the default extension and without classifier. -/
def plain (group artifact version : String) : Coordinates :=
  ⟨group, artifact, defaultExtension, "", version⟩

/-- The parts of a text between its colons, blanks at its ends apart. -/
def partsOf (input : String) : List String :=
  ((Text.trim input).toList.splitOn ':').map String.ofList

/-- The coordinates that three to five parts stand for, whether or not they are empty. -/
def ofParts? : List String → Option Coordinates
  | [g, a, v] => some (plain g a v)
  | [g, a, e, v] => some ⟨g, a, e, "", v⟩
  | [g, a, e, c, v] => some ⟨g, a, e, c, v⟩
  | _ => none

/-- The first part that is empty although it must not be. -/
def emptyPart? (c : Coordinates) : Option CoordinatesPart :=
  if c.group = "" then some .group
  else if c.artifact = "" then some .artifact
  else if c.extension = "" then some .extension
  else if c.version = "" then some .version
  else none

/-- The coordinates that a text stands for. -/
def parse (input : String) : Except CoordinatesError Coordinates :=
  match ofParts? (partsOf input) with
  | none => .error (.wrongShape input)
  | some c =>
      match c.emptyPart? with
      | some part => .error (.emptyPart input part)
      | none => .ok c

/-- The written form. -/
def render (c : Coordinates) : String :=
  c.group ++ ":" ++ c.artifact ++ ":" ++ c.extension ++
    (if c.classifier = "" then "" else ":" ++ c.classifier) ++ ":" ++ c.version

/-- The name of the artifact's file. -/
def fileName (c : Coordinates) : String :=
  c.artifact ++ "-" ++ c.version ++
    (if c.classifier = "" then "" else "-" ++ c.classifier) ++ "." ++ c.extension

end Coordinates

end StreamLang
