import StreamLang.Completion.Context
import StreamLang.Completion.Proposal
import StreamLang.Stream.Canonical
import StreamLang.Stream.Parse

/-!
Proposals for texts that are no stream yet.

A recovery is chosen by what the grammar asked for and by nothing else. It proposes continuations
only when the text ended too early, and then works on the stream read again up to the checkpoint.
-/

namespace StreamLang

/-- The ways to continue a text that is no stream yet. -/
inductive Recovery where
  /-- The properties of the last module, after dashes. -/
  | propertyNameAfterDashDash
  /-- The properties of the last module that start as typed. -/
  | unfinishedPropertyName
  /-- The values of a property, after its equals sign. -/
  | propertyValue
  /-- The modules that can stand here. -/
  | moduleName
  deriving DecidableEq, Repr

/-- What a strategy is given: whom to ask, the text, and the level of detail of explanations. -/
structure Request where
  context : Context
  text : String
  detail : Nat

namespace Request

/-- The text without the blanks at its end. -/
def base (q : Request) : String := Text.trimEnd q.text

/-- The proposal of a property name, written after `before`. -/
def propertyName (q : Request) (before : String) (kind : ProposalKind) (p : Property) : Proposal :=
  ⟨before ++ p.id ++ "=", kind, p.explanation q.detail⟩

/-- The proposal of a module name, written after `before`. -/
def moduleName (q : Request) (before : String) (kind : ProposalKind) (r : Registration) : Proposal :=
  ⟨before ++ r.name, kind, r.explanation q.detail⟩

end Request

/-- The properties that the stage is not given yet. -/
def KnownStage.unsetProperties (k : KnownStage) : List Property :=
  k.properties.filter fun p => !k.stage.hasParameter p.id

/-- The values worth proposing for a property: its hints, or else its default. -/
def Property.proposedValues (p : Property) : List String :=
  if p.valueHints.isEmpty then p.defaultValue.toList else p.valueHints

/-- The last name among the pending tokens. -/
def ParseFailure.lastName? (e : ParseFailure) : Option Token :=
  e.pending.reverse.find? fun t => t.kind == .identifier

namespace Recovery

/-- The name under which the recovery is known. -/
def name : Recovery → String
  | .propertyNameAfterDashDash => "property-name-after-dash-dash"
  | .unfinishedPropertyName => "unfinished-property-name"
  | .propertyValue => "property-value"
  | .moduleName => "module-name"

/-- The recoveries in their usual order. -/
def standard : List Recovery :=
  [.propertyNameAfterDashDash, .unfinishedPropertyName, .propertyValue, .moduleName]

/-- What the recovery continues. -/
def handles : Recovery → Expectation
  | .propertyNameAfterDashDash => .propertyName
  | .unfinishedPropertyName => .equals
  | .propertyValue => .value
  | .moduleName => .moduleName

/-- The first recovery that handles the failure. -/
def select (recoveries : List Recovery) (e : ParseFailure) : Option Recovery :=
  recoveries.find? fun r => r.handles == e.expectation

/-- The last stage that was typed before the failure, when its properties are known. -/
def typedStage (q : Request) (e : ParseFailure) : Logged (Option KnownStage) :=
  match e.typed? with
  | none => .quiet none
  | some t => q.context.lastStage t

/-- The properties not set yet, after the dashes. -/
def afterDashDash (q : Request) (e : ParseFailure) : Logged (List Proposal) := do
  match ← typedStage q e with
  | none => pure []
  | some known => pure (known.unsetProperties.map (q.propertyName q.base .expanding))

/-- The properties not set yet that start with the name typed. -/
def ofUnfinishedName (q : Request) (e : ParseFailure) : Logged (List Proposal) :=
  match e.lastName? with
  | none => pure []
  | some typed => do
      match ← typedStage q e with
      | none => pure []
      | some known =>
          let matching := known.unsetProperties.filter fun p =>
            typed.text.toList.isPrefixOf p.id.toList
          pure (matching.map (q.propertyName (Text.upTo q.text typed.start) .expanding))

/-- The values of the property whose name was typed. -/
def ofValue (q : Request) (e : ParseFailure) : Logged (List Proposal) :=
  match e.lastName? with
  | none => pure []
  | some key => do
      match ← typedStage q e with
      | none => pure []
      | some known =>
          match known.properties.find? fun p => p.id == key.text with
          | none => pure []
          | some p =>
              pure (p.proposedValues.map fun value =>
                ⟨q.base ++ Value.render value, .expanding, p.explanation q.detail⟩)

/-- Where the module stands whose name is asked for: after a stage or a destination it is fed. -/
def awaitedPosition (text : String) (e : ParseFailure) : Position :=
  if e.typed?.isSome || (tokenize text).head?.any (fun t => t.kind == .destination) then .downstream
  else .first

/-- What separates a text from a name that is added to it. -/
def separator (text : String) : String :=
  if text = "" || Text.endsBlank text then "" else " "

/-- The modules that can stand at the end of the text. -/
def ofModuleName (q : Request) (e : ParseFailure) : List Proposal :=
  (q.context.registrationsAt (awaitedPosition q.text e)).map
    (q.moduleName (q.text ++ separator q.text) .addition)

/-- The proposals for a text with the given failure. -/
def proposals (r : Recovery) (q : Request) (e : ParseFailure) : Logged (List Proposal) :=
  if !e.atEnd then pure []
  else
    match r with
    | .propertyNameAfterDashDash => afterDashDash q e
    | .unfinishedPropertyName => ofUnfinishedName q e
    | .propertyValue => ofValue q e
    | .moduleName => pure (ofModuleName q e)

end Recovery

end StreamLang
