import StreamLang.Registry
import StreamLang.Stream

/-!
What completion knows about the modules of a stream: which types a stage can have where it stands,
which registered module it is, and which properties that module declares.
-/

namespace StreamLang

/-! ## Positions -/

/-- Where a stage stands, as far as it bounds the type of its module. -/
inductive Position where
  /-- The first stage, when no destination feeds it. -/
  | first
  /-- A stage that another stage or a destination feeds. -/
  | downstream
  deriving DecidableEq, Repr

namespace Position

/-- The position of the stage with this index. -/
def of (t : Topology) (index : Nat) : Position :=
  if index = 0 ∧ t.source.isNone then .first else .downstream

/-- The types that a module can have at the position. -/
def plausibleTypes : Position → List ModuleType
  | .first => [.source, .task]
  | .downstream => [.processor, .sink]

end Position

/-- The position of the last stage. -/
def Topology.lastPosition (t : Topology) : Position := .of t (t.stages.length - 1)

/-! ## Collaborators -/

/-- Those whom completion asks about modules. -/
structure Collaborators where
  /-- The registered modules. -/
  catalog : Catalog
  /-- The artifact that coordinates lead to. -/
  resolve : Coordinates → Except ResolutionError Artifact
  /-- The properties that an artifact declares. -/
  listProperties : Artifact → Except MetadataError (List Property)

/-- The collaborators of one request, with the order in which types are tried. -/
structure Context where
  collaborators : Collaborators
  precedence : List ModuleType

/-- A stage whose module is registered and declares properties. -/
structure KnownStage where
  stage : Stage
  registration : Registration
  properties : List Property
  deriving DecidableEq, Repr

namespace Context

/-- The types to try at a position, in order of precedence. -/
def candidateTypes (ctx : Context) (position : Position) : List ModuleType :=
  ctx.precedence.filter fun t => position.plausibleTypes.contains t

/-- The module that a name stands for at a position: the first found among the candidate types. -/
def findModule (ctx : Context) (name : String) (position : Position) : Option Registration :=
  (ctx.candidateTypes position).findSome? (ctx.collaborators.catalog.find? name)

/-- The registrations usable at a position: type by type, in order of precedence, and within a type
in the order of the catalog. -/
def registrationsAt (ctx : Context) (position : Position) : List Registration :=
  (ctx.candidateTypes position).flatMap fun t =>
    ctx.collaborators.catalog.all.filter fun r => r.type == t

/-- The properties that a registered module declares. A module whose artifact cannot be resolved or
read is passed over with a warning. -/
def propertiesOf (ctx : Context) (r : Registration) : Logged (Option (List Property)) :=
  match ctx.collaborators.resolve r.coordinates with
  | .error cause => ⟨none, [.unresolved r.name cause]⟩
  | .ok artifact =>
      match ctx.collaborators.listProperties artifact with
      | .error cause => ⟨none, [.unlisted r.name cause]⟩
      | .ok properties => .quiet (some properties)

/-- The last stage of a stream, when its module is found and its properties are known. -/
def lastStage (ctx : Context) (t : Topology) : Logged (Option KnownStage) :=
  match t.last? with
  | none => .quiet none
  | some stage =>
      match ctx.findModule stage.name t.lastPosition with
      | none => .quiet none
      | some registration => do
          let properties ← ctx.propertiesOf registration
          pure (properties.map fun properties => ⟨stage, registration, properties⟩)

end Context

end StreamLang
