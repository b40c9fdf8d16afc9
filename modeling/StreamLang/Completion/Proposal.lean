import StreamLang.Registry

/-!
Proposals: texts that could replace what has been typed, with explanations.

Among proposals of one text the first is kept (`keepFirst`). The level of detail of a request
changes explanations and nothing else.
-/

namespace StreamLang

/-- How a proposal continues what has been typed. -/
inductive ProposalKind where
  /-- It completes the token being typed. -/
  | expanding
  /-- It adds a token. -/
  | addition
  deriving DecidableEq, Repr

/-- A text that could replace what has been typed. -/
structure Proposal where
  text : String
  kind : ProposalKind
  explanation : String
  deriving DecidableEq, Repr

/-- The proposals whose text neither is among `seen` nor comes earlier in the list. -/
def Proposal.keepFirst (seen : List String) : List Proposal → List Proposal
  | [] => []
  | p :: ps =>
      if p.text ∈ seen then keepFirst seen ps else p :: keepFirst (p.text :: seen) ps

/-! ## Explanations -/

/-- Whether a level of detail asks for long explanations. -/
def isDetailed (detail : Nat) : Bool := 1 < detail

/-- The explanation of a property: its short description, or in detail its description and its
default value. -/
def Property.explanation (p : Property) (detail : Nat) : String :=
  if isDetailed detail && (p.description != "" || p.defaultValue.isSome) then
    (if p.description = "" then p.shortDescription else p.description) ++
      (match p.defaultValue with
        | some value => " (default: " ++ value ++ ")"
        | none => "")
  else p.shortDescription

/-- The explanation of a module: its type, and in detail its coordinates. -/
def Registration.explanation (r : Registration) (detail : Nat) : String :=
  if isDetailed detail then r.type.name ++ " module " ++ r.coordinates.render
  else r.type.name ++ " module"

end StreamLang
