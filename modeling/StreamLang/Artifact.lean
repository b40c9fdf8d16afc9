import StreamLang.Coordinates

/-!
Artifacts of modules, the properties they declare, and what can go wrong on the way to them:
resolving coordinates to an artifact, and listing the properties of an artifact.
-/

namespace StreamLang

/-! ## Artifacts -/

/-- An artifact that has been found, with the path it was found at. -/
structure Artifact where
  coordinates : Coordinates
  location : String
  deriving DecidableEq, Repr

/-- Why coordinates lead to no artifact. -/
inductive ResolutionError where
  /-- There is no file at the path. -/
  | notFound (coordinates : Coordinates) (path : String)
  /-- Looking for the file failed. -/
  | io (coordinates : Coordinates)
  deriving DecidableEq, Repr

/-- What is wrong. -/
def ResolutionError.message : ResolutionError → String
  | .notFound c path => "artifact " ++ c.render ++ " not found at " ++ path
  | .io c => "failed to resolve artifact " ++ c.render

/-! ## Properties -/

/-- A configuration property that a module declares. -/
structure Property where
  id : String
  shortDescription : String
  description : String
  defaultValue : Option String
  /-- Values worth proposing. -/
  valueHints : List String
  deriving DecidableEq, Repr

/-- The property with an id and a short description and nothing else. -/
def Property.brief (id shortDescription : String) : Property :=
  ⟨id, shortDescription, "", none, []⟩

/-- Why the properties of an artifact cannot be listed. -/
inductive MetadataError where
  /-- Reading them failed. -/
  | io (coordinates : Coordinates)
  /-- They are not written as properties are. -/
  | malformed (coordinates : Coordinates) (reason : String)
  deriving DecidableEq, Repr

/-- What is wrong. -/
def MetadataError.message : MetadataError → String
  | .io c => "failed to read configuration metadata of " ++ c.render
  | .malformed c reason => "malformed configuration metadata in " ++ c.render ++ ": " ++ reason

end StreamLang
