import StreamLang.Proofs.Completion.Strategies

/-!
Levels of detail.

The level of detail goes into explanations and into nothing else: strategies choose modules and
properties before they explain them, and `Proposal.keepFirst` looks at texts. So a view of proposals
that cannot tell the explanations of two levels apart (`Proposal.Blind`) cannot tell the answers
apart either (`Engine.viewed_complete`). One such view leaves the explanations out. For two levels
on the same side of the bound, the proposals as they are is another.
-/

namespace StreamLang

/-! ## Views -/

namespace Proposal

/-- The proposal without its explanation. -/
def unexplained (p : Proposal) : Proposal := { p with explanation := "" }

/-- A view that shows the texts of proposals, and explanations of either level in the same way. -/
structure Blind (view : Proposal → Proposal) (detail detail' : Nat) : Prop where
  text : ∀ p, (view p).text = p.text
  property : ∀ text kind (p : Property),
    view ⟨text, kind, p.explanation detail⟩ = view ⟨text, kind, p.explanation detail'⟩
  module : ∀ text kind (r : Registration),
    view ⟨text, kind, r.explanation detail⟩ = view ⟨text, kind, r.explanation detail'⟩

theorem blind_unexplained (detail detail' : Nat) : Blind unexplained detail detail' where
  text _ := rfl
  property _ _ _ := rfl
  module _ _ _ := rfl

/-- Levels on the same side of the bound give the same explanations. -/
theorem blind_id {detail detail' : Nat} (same : isDetailed detail = isDetailed detail') :
    Blind id detail detail' where
  text _ := rfl
  property _ _ p := by simp only [Property.explanation, same]
  module _ _ r := by simp only [Registration.explanation, same]

end Proposal

open Proposal (Blind)

namespace Logged

variable {α : Type} {view : Proposal → Proposal}

/-- A view of the proposals of an answer, with all of its warnings. -/
def viewed (view : Proposal → Proposal) (x : Logged (List Proposal)) : Logged (List Proposal) :=
  ⟨x.value.map view, x.warnings⟩

theorem viewed_id (x : Logged (List Proposal)) : x.viewed id = x := by
  rw [viewed, List.map_id]

theorem viewed_bind {f g : α → Logged (List Proposal)} (x : Logged α)
    (same : ∀ a, (f a).viewed view = (g a).viewed view) :
    (x >>= f).viewed view = (x >>= g).viewed view := by
  have values := congrArg value (same x.value)
  have warnings := congrArg warnings (same x.value)
  simp only [viewed] at values warnings
  simp only [viewed, value_bind, warnings_bind, values, warnings]

theorem viewed_map {make make' : α → Proposal} (same : ∀ a, view (make a) = view (make' a))
    (xs : List α) :
    viewed view (pure (xs.map make)) = viewed view (pure (xs.map make')) := by
  have made : view ∘ make = view ∘ make' := funext same
  simp only [viewed, value_pure, List.map_map, made, warnings_pure]

end Logged

/-! ## Strategies -/

section Strategies

variable {view : Proposal → Proposal} {q : Request} {detail' : Nat} {t : Topology}
  {e : ParseFailure} (blind : Blind view q.detail detail')
include blind

theorem Expansion.viewed_proposals (x : Expansion) :
    (x.proposals q t).viewed view =
      (x.proposals { q with detail := detail' } t).viewed view := by
  unfold proposals
  split
  · next last _ _ =>
      cases x with
      | unfinishedModuleName =>
          simp only [ofUnfinishedName]
          split
          · rfl
          · split
            · rfl
            · exact Logged.viewed_map (fun r => blind.module _ _ r) _
      | moduleOptions =>
          refine Logged.viewed_bind _ fun known? => ?_
          cases known? with
          | none => rfl
          | some known => exact Logged.viewed_map (fun p => blind.property _ _ p) _
      | pipe =>
          simp only [ofPipe]
          split
          · rfl
          · split
            · exact Logged.viewed_map (fun r => blind.module _ _ r) _
            · rfl
  · rfl

theorem Recovery.viewed_proposals (r : Recovery) :
    (r.proposals q e).viewed view =
      (r.proposals { q with detail := detail' } e).viewed view := by
  unfold proposals
  split
  · rfl
  · cases r with
    | propertyNameAfterDashDash =>
        refine Logged.viewed_bind _ fun known? => ?_
        cases known? with
        | none => rfl
        | some known => exact Logged.viewed_map (fun p => blind.property _ _ p) _
    | unfinishedPropertyName =>
        simp only [ofUnfinishedName]
        split
        · rfl
        · refine Logged.viewed_bind _ fun known? => ?_
          cases known? with
          | none => rfl
          | some known => exact Logged.viewed_map (fun p => blind.property _ _ p) _
    | propertyValue =>
        simp only [ofValue]
        split
        · rfl
        · refine Logged.viewed_bind _ fun known? => ?_
          cases known? with
          | none => rfl
          | some known =>
              dsimp only
              split
              · rfl
              · next p _ => exact Logged.viewed_map (fun _ => blind.property _ _ p) _
    | moduleName => exact Logged.viewed_map (fun r => blind.module _ _ r) _

end Strategies

/-! ## Answers -/

namespace Engine

variable {view : Proposal → Proposal} {q : Request} {detail' : Nat}

theorem viewed_expand (blind : Blind view q.detail detail') (t : Topology)
    (expansions : List Expansion) :
    (expand q t expansions).viewed view =
      (expand { q with detail := detail' } t expansions).viewed view := by
  induction expansions with
  | nil => rfl
  | cons x expansions ih =>
      have own := x.viewed_proposals (t := t) blind
      simp only [Logged.viewed, Logged.mk.injEq] at own ih
      simp only [expand, Logged.viewed, Logged.value_bind, Logged.value_pure, Logged.warnings_bind,
        Logged.warnings_pure, List.map_append, own.1, own.2, ih.1, ih.2]

theorem viewed_candidates (blind : Blind view q.detail detail') (engine : Engine) :
    (engine.candidates q).viewed view =
      (engine.candidates { q with detail := detail' }).viewed view := by
  unfold candidates
  dsimp only
  cases Topology.parse q.text with
  | ok t => exact viewed_expand blind t _
  | error e =>
      dsimp only
      split
      · next r _ => exact r.viewed_proposals blind
      · rfl

/-- What is kept is chosen by texts, which the view shows. -/
theorem viewed_complete {detail : Nat} (blind : Blind view detail detail') (engine : Engine)
    (c : Collaborators) (text : String) :
    (engine.complete c text detail).viewed view = (engine.complete c text detail').viewed view := by
  have found := viewed_candidates
    (q := ⟨⟨c, engine.precedence⟩, text, detail⟩) blind engine
  simp only [Logged.viewed, Logged.mk.injEq] at found
  simp only [complete, Logged.viewed, Logged.value_bind, Logged.value_pure, Logged.warnings_bind,
    Logged.warnings_pure, ← Proposal.keepFirst_map view blind.text, found.1, found.2]

/-- The level of detail changes explanations only. Whatever its strategies, an engine proposes the
same texts in the same kinds and order at all levels, with the same warnings, and the explanations
are the same up to level 1 and again from level 2. -/
theorem complete_detail (engine : Engine) (c : Collaborators) (text : String)
    (detail detail' : Nat) :
    (engine.complete c text detail).value.map (fun p => (p.text, p.kind)) =
        (engine.complete c text detail').value.map (fun p => (p.text, p.kind)) ∧
      (engine.complete c text detail).warnings = (engine.complete c text detail').warnings ∧
      ((detail ≤ 1 ↔ detail' ≤ 1) →
        engine.complete c text detail = engine.complete c text detail') := by
  have unexplained :=
    viewed_complete (Proposal.blind_unexplained detail detail') engine c text
  have warnings := congrArg Logged.warnings unexplained
  refine ⟨?_, warnings, fun side => ?_⟩
  · have shown := congrArg (fun x => x.value.map fun p => (p.text, p.kind)) unexplained
    simpa only [Logged.viewed, List.map_map, Function.comp_def, Proposal.unexplained] using shown
  · have same : isDetailed detail = isDetailed detail' := by
      simp only [isDetailed, decide_eq_decide]
      omega
    have whole := viewed_complete (Proposal.blind_id same) engine c text
    rwa [Logged.viewed_id, Logged.viewed_id] at whole

/-- Explanations of a module at levels 1 and 2, which differ, and at all levels from there. -/
theorem complete_detail_time :
    let c := sampleContext.collaborators
    let engine := standard ModuleType.all
    (engine.complete c "" 1).value = [⟨"time", .addition, "source module"⟩] ∧
      (engine.complete c "" 2).value = [⟨"time", .addition, "source module org:time:jar:1"⟩] ∧
      ((engine.complete c "" 1).value.map fun p => (p.text, p.kind)) =
        (engine.complete c "" 2).value.map (fun p => (p.text, p.kind)) ∧
      engine.complete c "" 2 = engine.complete c "" 7 := by
  intro c engine
  obtain ⟨shown, -, -⟩ := complete_detail engine c "" 1 2
  obtain ⟨-, -, detailed⟩ := complete_detail engine c "" 2 7
  exact ⟨by decide, by decide, shown, detailed (by decide)⟩

end Engine

end StreamLang
