import StreamLang.Proofs.Completion.Strategies

/-!
Requests that differ in how modules are listed.

Among proposals of one text the first is kept, so lists of proposals have to be compared by what is
kept of them after any texts (`Proposal.KeptAlike`). For a relation that goes along with joining
lists, it is enough to compare the proposals that name modules: requests that find the same modules
and list them in a related way are answered in a related way
(`Engine.keptAlike_candidates_of_corresponds`).
-/

namespace StreamLang

/-! ## What is kept of two lists -/

namespace Proposal

/-- A relation between lists of proposals that goes along with joining lists. It relates only lists
with the same texts. -/
structure Congruence (R : List Proposal → List Proposal → Prop) : Prop where
  refl : ∀ ps, R ps ps
  append : ∀ {ps qs ps' qs'}, R ps qs → R ps' qs' → R (ps ++ ps') (qs ++ qs')
  texts : ∀ {ps qs}, R ps qs → ∀ s, s ∈ ps.map Proposal.text ↔ s ∈ qs.map Proposal.text

theorem congruence_eq : Congruence Eq where
  refl _ := rfl
  append same same' := by rw [same, same']
  texts same _ := by rw [same]

theorem congruence_perm : Congruence List.Perm where
  refl := List.Perm.refl
  append := List.Perm.append
  texts perm _ := (perm.map Proposal.text).mem_iff

/-- A congruence may ask for equality of the proposals that are chosen in some way. -/
theorem Congruence.filter {R : List Proposal → List Proposal → Prop} (congruence : Congruence R)
    (choose : Proposal → Bool) :
    Congruence fun ps qs => R ps qs ∧ ps.filter choose = qs.filter choose where
  refl ps := ⟨congruence.refl ps, rfl⟩
  append related related' := ⟨congruence.append related.1 related'.1, by
    rw [List.filter_append, List.filter_append, related.2, related'.2]⟩
  texts related := congruence.texts related.1

/-- Whatever has been seen, what is kept of two lists is related. -/
def KeptAlike (R : List Proposal → List Proposal → Prop) (ps qs : List Proposal) : Prop :=
  ∀ seen, R (keepFirst seen ps) (keepFirst seen qs)

namespace KeptAlike

variable {R : List Proposal → List Proposal → Prop} {ps qs ps' qs' : List Proposal}

theorem refl (congruence : Congruence R) (ps : List Proposal) : KeptAlike R ps ps :=
  fun _ => congruence.refl _

theorem of_eq (congruence : Congruence R) (same : ps = qs) : KeptAlike R ps qs :=
  same ▸ refl congruence ps

theorem mem_texts_iff (congruence : Congruence R) (alike : KeptAlike R ps qs) (s : String) :
    s ∈ ps.map Proposal.text ↔ s ∈ qs.map Proposal.text := by
  have kept := congruence.texts (alike []) s
  rwa [texts_keepFirst_nil, texts_keepFirst_nil, List.mem_eraseDups, List.mem_eraseDups] at kept

theorem append (congruence : Congruence R) (alike : KeptAlike R ps qs)
    (alike' : KeptAlike R ps' qs') : KeptAlike R (ps ++ ps') (qs ++ qs') := by
  intro seen
  rw [keepFirst_append, keepFirst_append]
  refine congruence.append (alike seen) ?_
  -- The first parts have the same texts, so the same has been seen before the second ones.
  have seenAlike : keepFirst (qs.map Proposal.text ++ seen) qs' =
      keepFirst (ps.map Proposal.text ++ seen) qs' := by
    apply keepFirst_congr
    intro p _
    rw [List.mem_append, List.mem_append, alike.mem_texts_iff congruence]
  rw [seenAlike]
  exact alike' _

theorem flatMap {α : Type} (congruence : Congruence R) {f g : α → List Proposal} {xs : List α}
    (alike : ∀ x ∈ xs, KeptAlike R (f x) (g x)) : KeptAlike R (xs.flatMap f) (xs.flatMap g) := by
  induction xs with
  | nil => exact refl congruence []
  | cons x xs ih =>
      rw [List.flatMap_cons, List.flatMap_cons]
      exact append congruence (alike x List.mem_cons_self)
        (ih fun y later => alike y (List.mem_cons_of_mem x later))

end KeptAlike

end Proposal

open Proposal (Congruence KeptAlike)

/-! ## Requests -/

/-- Two requests that find the same modules with the same properties. They may list the modules
differently, as far as the proposals that name them are related. -/
structure Request.Corresponds (R : List Proposal → List Proposal → Prop) (q q' : Request) :
    Prop where
  text : q'.text = q.text
  detail : q'.detail = q.detail
  resolve : q'.context.collaborators.resolve = q.context.collaborators.resolve
  listProperties : q'.context.collaborators.listProperties =
    q.context.collaborators.listProperties
  found : q'.context.findModule = q.context.findModule
  modules : ∀ position (wanted : Registration → Bool) before kind,
    KeptAlike R
      (((q.context.registrationsAt position).filter wanted).map (q.moduleName before kind))
      (((q'.context.registrationsAt position).filter wanted).map (q.moduleName before kind))

namespace Request.Corresponds

variable {R : List Proposal → List Proposal → Prop} {q q' : Request} {t : Topology}
  {e : ParseFailure}

section Same

variable (corresponds : q.Corresponds R q')
include corresponds

theorem base : q'.base = q.base := base_congr corresponds.text

theorem propertyName : q'.propertyName = q.propertyName := propertyName_congr corresponds.detail

theorem moduleName : q'.moduleName = q.moduleName := moduleName_congr corresponds.detail

theorem lastStage : q'.context.lastStage = q.context.lastStage := by
  funext t
  simp only [Context.lastStage, Context.propertiesOf, corresponds.found, corresponds.resolve,
    corresponds.listProperties]

/-- The options of the last stage are the same. -/
theorem ofOptions : Expansion.ofOptions q' t = Expansion.ofOptions q t := by
  simp only [Expansion.ofOptions, corresponds.lastStage, corresponds.propertyName,
    corresponds.base]

/-- A recovery proposes the same, unless it names modules. -/
theorem recovery_of_ne {r : Recovery} (isOther : r ≠ .moduleName) :
    r.proposals q' e = r.proposals q e := by
  unfold Recovery.proposals
  split
  · rfl
  · cases r with
    | propertyNameAfterDashDash =>
        simp only [Recovery.afterDashDash, Recovery.typedStage, corresponds.lastStage,
          corresponds.propertyName, corresponds.base]
    | unfinishedPropertyName =>
        simp only [Recovery.ofUnfinishedName, Recovery.typedStage, corresponds.lastStage,
          corresponds.propertyName, corresponds.text]
    | propertyValue =>
        simp only [Recovery.ofValue, Recovery.typedStage, corresponds.lastStage,
          corresponds.detail, corresponds.base]
    | moduleName => exact absurd rfl isOther

theorem registrations (position : Position) (before : String) (kind : ProposalKind) :
    KeptAlike R ((q.context.registrationsAt position).map (q.moduleName before kind))
      ((q'.context.registrationsAt position).map (q.moduleName before kind)) := by
  simpa using corresponds.modules position (fun _ => true) before kind

end Same

variable (congruence : Congruence R) (corresponds : q.Corresponds R q')
include congruence corresponds

theorem ofUnfinishedName (last : Stage) :
    KeptAlike R (Expansion.ofUnfinishedName q t last) (Expansion.ofUnfinishedName q' t last) := by
  simp only [Expansion.ofUnfinishedName, corresponds.text, corresponds.moduleName]
  split
  · exact .refl congruence []
  · split
    · exact .refl congruence []
    · exact corresponds.modules _ _ _ _

theorem ofPipe (last : Stage) :
    KeptAlike R (Expansion.ofPipe q t last) (Expansion.ofPipe q' t last) := by
  simp only [Expansion.ofPipe, corresponds.found, corresponds.moduleName, corresponds.base]
  split
  · exact .refl congruence []
  · split
    · exact corresponds.registrations _ _ _
    · exact .refl congruence []

theorem expansion (x : Expansion) :
    KeptAlike R (x.proposals q t).value (x.proposals q' t).value := by
  unfold Expansion.proposals
  split
  · next last _ _ =>
    cases x with
    | unfinishedModuleName => exact corresponds.ofUnfinishedName congruence last
    | moduleOptions =>
        simp only [corresponds.ofOptions]
        exact .refl congruence _
    | pipe => exact corresponds.ofPipe congruence last
  · exact .refl congruence []

theorem recovery (r : Recovery) :
    KeptAlike R (r.proposals q e).value (r.proposals q' e).value := by
  by_cases isName : r = .moduleName
  · subst isName
    unfold Recovery.proposals
    split
    · exact .refl congruence []
    · simp only [Logged.value_pure, Recovery.ofModuleName, corresponds.text,
        corresponds.moduleName]
      exact corresponds.registrations _ _ _
  · rw [corresponds.recovery_of_ne isName]
    exact .refl congruence _

end Request.Corresponds

/-! ## Engines -/

namespace Engine

variable {R : List Proposal → List Proposal → Prop} {engine : Engine} {q q' : Request}

/-- What is kept of the candidates is related when the strategies propose what is kept alike. -/
theorem keptAlike_candidates (congruence : Congruence R) (text : q'.text = q.text)
    (expansions : ∀ t, Topology.parse q.text = .ok t → ∀ x : Expansion,
      KeptAlike R (x.proposals q t).value (x.proposals q' t).value)
    (recoveries : ∀ e, Topology.parse q.text = .error e → ∀ r : Recovery,
      r.handles = e.expectation → KeptAlike R (r.proposals q e).value (r.proposals q' e).value) :
    KeptAlike R (engine.candidates q).value (engine.candidates q').value := by
  unfold candidates
  rw [text]
  cases parsed : Topology.parse q.text with
  | ok t =>
      simp only [value_expand]
      exact .flatMap congruence fun x _ => expansions t parsed x
  | error e =>
      cases selected : Recovery.select engine.recoveries e with
      | none =>
          simp only [selected]
          exact .refl congruence []
      | some r =>
          simp only [selected]
          exact recoveries e parsed r (Recovery.handles_of_select selected)

/-- Requests that correspond have candidates of which what is kept is related. -/
theorem keptAlike_candidates_of_corresponds (congruence : Congruence R)
    (corresponds : q.Corresponds R q') :
    KeptAlike R (engine.candidates q).value (engine.candidates q').value :=
  keptAlike_candidates congruence corresponds.text
    (fun _ _ x => corresponds.expansion congruence x)
    fun _ _ r _ => corresponds.recovery congruence r

end Engine

end StreamLang
