import StreamLang.Property
import StreamLang.Repository
import StreamLang.Settings
import StreamLang.Stream.Parse

/-!
Workspaces: a registry, declared properties, files and an engine that are used together and changed
step by step.

A workspace remembers the proposals it gave last, so that one of them can be accepted. A command
that fails changes nothing.
-/

namespace StreamLang

/-! ## Collaborators of a workspace -/

/-- How a workspace resolves coordinates. -/
inductive ResolverMode where
  /-- Every artifact is found, in one directory. -/
  | anywhere
  /-- No artifact is found. -/
  | nowhere
  /-- Looking for artifacts fails. -/
  | broken
  /-- Artifacts are found in a repository among the files of the workspace. -/
  | repository
  deriving DecidableEq, Repr

/-- How a workspace lists the properties of artifacts. -/
inductive MetadataMode where
  /-- Artifacts declare the properties set for them, or none. -/
  | declared
  /-- What artifacts declare is cut short. -/
  | truncated
  /-- Reading what artifacts declare fails. -/
  | broken
  deriving DecidableEq, Repr

/-- Things that are used together. -/
structure Workspace where
  registry : Registry
  properties : OrderedMap Coordinates (List Property)
  files : FileTree
  resolver : ResolverMode
  metadata : MetadataMode
  engine : Engine
  /-- The proposals given last. -/
  proposals : List Proposal

/-- Why a command fails. -/
inductive Fault where
  | moduleType (cause : UnknownModuleType)
  | coordinates (cause : CoordinatesError)
  | resolution (cause : ResolutionError)
  | metadata (cause : MetadataError)
  | settings (cause : SettingsError)
  | parse (cause : ParseFailure)
  /-- A document is no property. -/
  | property

namespace Workspace

/-- The workspace with nothing in it. -/
def empty : Workspace where
  registry := .empty
  properties := .empty
  files := .empty
  resolver := .anywhere
  metadata := .declared
  engine := .standard ModuleType.all
  proposals := []

/-- The directory of the repository. -/
def repositoryRoot : String := "repo"

/-- The artifact that coordinates lead to. -/
def resolve (w : Workspace) (c : Coordinates) : Except ResolutionError Artifact :=
  match w.resolver with
  | .anywhere => .ok ⟨c, "/repo/" ++ c.fileName⟩
  | .nowhere => .error (.notFound c "/nowhere")
  | .broken => .error (.io c)
  | .repository => Repository.resolve w.files repositoryRoot c

/-- The properties that an artifact declares. -/
def listProperties (w : Workspace) (a : Artifact) : Except MetadataError (List Property) :=
  match w.metadata with
  | .declared => .ok ((w.properties.get? a.coordinates).getD [])
  | .truncated => .error (.malformed a.coordinates "truncated")
  | .broken => .error (.io a.coordinates)

/-- The collaborators that the workspace offers. -/
def collaborators (w : Workspace) : Collaborators :=
  ⟨w.registry.catalog, w.resolve, w.listProperties⟩

/-- What completion in the workspace knows. -/
def context (w : Workspace) : Context := ⟨w.collaborators, w.engine.precedence⟩

/-! ## Reading arguments -/

/-- The module type of this name. -/
def readType (text : String) : Except Fault ModuleType :=
  (ModuleType.parse text).mapError .moduleType

/-- The coordinates written in the text. -/
def readCoordinates (text : String) : Except Fault Coordinates :=
  (Coordinates.parse text).mapError .coordinates

/-- The property that a document stands for. -/
def readProperty (d : Document) : Except Fault Property :=
  match Property.ofDocument d with
  | some p => .ok p
  | none => .error .property

/-- The registration of a module. The type is read before the coordinates. -/
def readRegistration (type name coordinates : String) : Except Fault Registration := do
  let type ← readType type
  let coordinates ← readCoordinates coordinates
  pure ⟨type, name, coordinates⟩

/-- The properties declared at coordinates, which are read before them. -/
def readDeclaration (coordinates : String) (properties : List Document) :
    Except Fault (Coordinates × List Property) := do
  let coordinates ← readCoordinates coordinates
  let properties ← properties.mapM readProperty
  pure (coordinates, properties)

/-! ## Setting up -/

/-- What a workspace starts with. What is left out stays as in the empty workspace. -/
structure Setup where
  /-- The modules to register: type, name and coordinates. -/
  modules : List (String × String × String)
  /-- The declared properties, by coordinates. -/
  properties : List (String × List Document)
  /-- The paths of empty files. -/
  files : List String
  /-- The paths of directories. -/
  directories : List String
  resolver : ResolverMode
  metadata : MetadataMode
  precedence : Option (List String)
  recoveries : Option (List Recovery)
  expansions : Option (List Expansion)

/-- Registers modules in order, up to the first that is wrong. -/
def addModules (r : Registry) :
    List (String × String × String) → Logged (Except Fault Registry)
  | [] => pure (.ok r)
  | (type, name, coordinates) :: rest =>
      match readRegistration type name coordinates with
      | .error fault => pure (.error fault)
      | .ok m => do
          let (r, _) ← r.register m
          addModules r rest

/-- The workspace of a setup whose modules are registered. -/
def ofModules (registry : Registry) (setup : Setup) : Except Fault Workspace := do
  let properties ← setup.properties.mapM fun (coordinates, properties) =>
    readDeclaration coordinates properties
  let files := setup.files.foldl (fun tree path => tree.withFile path ByteArray.empty) .empty
  let files := setup.directories.foldl FileTree.withDirectory files
  let precedence ←
    match setup.precedence with
    | some types => types.mapM readType
    | none => pure ModuleType.all
  pure {
    registry
    properties := .ofList properties
    files
    resolver := setup.resolver
    metadata := setup.metadata
    engine := {
      expansions := setup.expansions.getD Expansion.standard
      recoveries := setup.recoveries.getD Recovery.standard
      precedence }
    proposals := [] }

/-- The workspace of a setup. -/
def ofSetup (setup : Setup) : Logged (Except Fault Workspace) := do
  match ← addModules .empty setup.modules with
  | .error fault => pure (.error fault)
  | .ok registry => pure (ofModules registry setup)

/-! ## Commands -/

/-- What can be done in a workspace. -/
inductive Command where
  | register (type name coordinates : String)
  | find (type name : String)
  | all
  | size
  /-- Replaces the registry by that of settings. -/
  | setRegistry (contents : List (String × String))
  | setProperties (coordinates : String) (properties : List Document)
  | listProperties (coordinates : String)
  | resolve (coordinates : String)
  | setResolver (mode : ResolverMode)
  | setMetadata (mode : MetadataMode)
  /-- Creates an empty file. -/
  | touch (path : String)
  | remove (path : String)
  /-- Sets the order of types; checked, by a new engine with the usual strategies. -/
  | setPrecedence (types : List String) (checked : Bool)
  | setRecoveries (recoveries : List Recovery)
  | setExpansions (expansions : List Expansion)
  | complete (text : String) (detail : Nat)
  /-- Takes one of the last proposals, adds to it, and completes the result. -/
  | accept (index : Nat) (continuation : String) (detail : Nat)
  | candidateTypes (position : Position)
  | findModule (name : String) (position : Position)
  | registrationsAt (position : Position)
  | lastStage (text : String)

/-- What a command answers. -/
inductive Reply where
  | done
  | registered (replaced : Option Coordinates) (size : Nat)
  | found (registration : Option Registration)
  | registrations (all : List Registration)
  | registrySize (size : Nat)
  | propertyCount (count : Nat)
  | properties (all : List Property)
  | artifact (found : Artifact)
  | precedence (types : List ModuleType)
  | candidateTypes (types : List ModuleType)
  | strategies (count : Nat)
  | proposals (all : List Proposal)
  /-- The text that was completed, and its proposals. -/
  | accepted (text : String) (all : List Proposal)
  /-- There was no proposal to accept. -/
  | nothingToAccept
  | lastStage (known : Option KnownStage)

/-- A command's outcome: the workspace after it and its answer, or why it fails. -/
abbrev Outcome := Logged (Except Fault (Workspace × Reply))

/-- The outcome of a command that only answers. -/
def answer (w : Workspace) (reply : Reply) : Outcome := pure (.ok (w, reply))

/-- The outcome of a command that gives no warning. -/
def quietly (result : Except Fault (Workspace × Reply)) : Outcome := pure result

/-- Completes a text and remembers the proposals. -/
def completeText (w : Workspace) (text : String) (detail : Nat) :
    Logged (Workspace × List Proposal) := do
  let proposals ← w.engine.complete w.collaborators text detail
  pure ({ w with proposals }, proposals)

/-- The proposal with an index, counted on from the first after the last. -/
def proposalAt? (w : Workspace) (index : Nat) : Option Proposal :=
  w.proposals[index % w.proposals.length]?

/-- Registers a module. -/
def register (w : Workspace) (m : Registration) : Outcome := do
  let (registry, replaced) ← w.registry.register m
  pure (.ok ({ w with registry }, .registered replaced registry.size))

/-- Replaces the registry. -/
def setRegistry (w : Workspace) (contents : List (String × String)) : Outcome := do
  match ← Registry.ofContents (.ofList contents) with
  | .error e => pure (.error (.settings e))
  | .ok registry => pure (.ok ({ w with registry }, .registrations registry.all))

/-- Sets the order in which types are tried. -/
def setPrecedence (w : Workspace) (types : List String) (checked : Bool) :
    Except Fault (Workspace × Reply) := do
  let types ← types.mapM readType
  let engine ←
    if checked then (Engine.ofPrecedence types).mapError .settings
    else pure { w.engine with precedence := types }
  pure ({ w with engine }, .precedence engine.precedence)

/-- Carries out a command. -/
def run (w : Workspace) : Command → Outcome
  | .register type name coordinates =>
      match readRegistration type name coordinates with
      | .error fault => quietly (.error fault)
      | .ok m => w.register m
  | .find type name =>
      quietly do
        let type ← readType type
        pure (w, .found (w.registry.find? name type))
  | .all => w.answer (.registrations w.registry.all)
  | .size => w.answer (.registrySize w.registry.size)
  | .setRegistry contents => w.setRegistry contents
  | .setProperties coordinates properties =>
      quietly do
        let (coordinates, properties) ← readDeclaration coordinates properties
        pure ({ w with properties := w.properties.insert coordinates properties },
          .propertyCount properties.length)
  | .listProperties coordinates =>
      quietly do
        let coordinates ← readCoordinates coordinates
        let artifact ← (w.resolve coordinates).mapError .resolution
        let properties ← (w.listProperties artifact).mapError .metadata
        pure (w, .properties properties)
  | .resolve coordinates =>
      quietly do
        let coordinates ← readCoordinates coordinates
        let artifact ← (w.resolve coordinates).mapError .resolution
        pure (w, .artifact artifact)
  | .setResolver mode => answer { w with resolver := mode } .done
  | .setMetadata mode => answer { w with metadata := mode } .done
  | .touch path => answer { w with files := w.files.withFile path ByteArray.empty } .done
  | .remove path => answer { w with files := w.files.withoutFile path } .done
  | .setPrecedence types checked => quietly (w.setPrecedence types checked)
  | .setRecoveries recoveries =>
      answer { w with engine := { w.engine with recoveries } } (.strategies recoveries.length)
  | .setExpansions expansions =>
      answer { w with engine := { w.engine with expansions } } (.strategies expansions.length)
  | .complete text detail => do
      let (w, proposals) ← w.completeText text detail
      w.answer (.proposals proposals)
  | .accept index continuation detail =>
      match w.proposalAt? index with
      | none => w.answer .nothingToAccept
      | some p => do
          let text := p.text ++ continuation
          let (w, proposals) ← w.completeText text detail
          w.answer (.accepted text proposals)
  | .candidateTypes position => w.answer (.candidateTypes (w.context.candidateTypes position))
  | .findModule name position => w.answer (.found (w.context.findModule name position))
  | .registrationsAt position => w.answer (.registrations (w.context.registrationsAt position))
  | .lastStage text =>
      match Topology.parse text with
      | .error e => quietly (.error (.parse e))
      | .ok t => do
          let known ← w.context.lastStage t
          w.answer (.lastStage known)

/-- Carries out commands one by one. A command that fails leaves the workspace as it is. -/
def runAll (w : Workspace) : List Command → List (Logged (Except Fault Reply))
  | [] => []
  | c :: cs =>
      let outcome := w.run c
      match outcome.value with
      | .ok (w, reply) => ⟨.ok reply, outcome.warnings⟩ :: w.runAll cs
      | .error fault => ⟨.error fault, outcome.warnings⟩ :: w.runAll cs

end Workspace

end StreamLang
