import StreamLang.Completion.Expansion

/-!
Completion: from a text to the texts that could replace it.

A text that is a stream is continued by all expansions in turn; one that is not by the first
recovery that handles its failure, or by none.
-/

namespace StreamLang

/-- How completion proceeds: the strategies, and the order in which module types are tried. -/
structure Engine where
  expansions : List Expansion
  recoveries : List Recovery
  precedence : List ModuleType
  deriving DecidableEq, Repr

namespace Engine

/-- The engine with the usual strategies. -/
def standard (precedence : List ModuleType) : Engine :=
  ⟨Expansion.standard, Recovery.standard, precedence⟩

/-- The proposals of the expansions, one expansion after the other. -/
def expand (q : Request) (t : Topology) : List Expansion → Logged (List Proposal)
  | [] => pure []
  | x :: xs => do
      let own ← x.proposals q t
      let others ← expand q t xs
      pure (own ++ others)

/-- All proposals for a text, those of equal text included. -/
def candidates (engine : Engine) (q : Request) : Logged (List Proposal) :=
  match Topology.parse q.text with
  | .ok t => expand q t engine.expansions
  | .error e =>
      match Recovery.select engine.recoveries e with
      | some r => r.proposals q e
      | none => pure []

/-- The proposals for a text. -/
def complete (engine : Engine) (collaborators : Collaborators) (text : String) (detail : Nat) :
    Logged (List Proposal) := do
  let found ← engine.candidates ⟨⟨collaborators, engine.precedence⟩, text, detail⟩
  pure (Proposal.keepFirst [] found)

end Engine

end StreamLang
