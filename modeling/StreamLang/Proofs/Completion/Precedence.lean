import StreamLang.Proofs.Completion.Correspondence
import StreamLang.Proofs.Completion.Emission

/-!
The order in which module types are tried.

Sources and tasks compete for the first place of a stream, and processors and sinks for the others.
At each place the types are tried in the order in which they are first listed, and a type that is
listed again finds nothing new (`findSome?_eraseDups`) and adds no proposal
(`Context.keptAlike_registrationsAt`). So lists that rank the types of each group alike are answered
alike.
-/

namespace StreamLang

/-! ## Ranks -/

namespace ModuleType

/-- The types of a group that are listed, in the order in which they are listed first. -/
def ranked (group types : List ModuleType) : List ModuleType :=
  (types.filter group.contains).eraseDups

/-- Whether two lists rank the types that compete for a place alike, and leave out the same ones. -/
structure RanksAlike (types types' : List ModuleType) : Prop where
  first : ranked [.source, .task] types = ranked [.source, .task] types'
  downstream : ranked [.processor, .sink] types = ranked [.processor, .sink] types'

end ModuleType

section FirstResult

variable {α β : Type} [DecidableEq α] {f : α → Option β} {a : α}

/-- An element without a result can be left out. -/
theorem findSome?_filter_ne (nothing : f a = none) (xs : List α) :
    (xs.filter fun b => !b == a).findSome? f = xs.findSome? f := by
  induction xs with
  | nil => rfl
  | cons b xs ih =>
      by_cases same : b = a
      · rw [List.filter_cons_of_neg (by simp [same]), List.findSome?_cons, same, nothing]
        exact ih
      · rw [List.filter_cons_of_pos (by simp [same]), List.findSome?_cons, List.findSome?_cons, ih]

/-- The first result for a list is the one for its elements listed once. -/
theorem findSome?_eraseDups (f : α → Option β) (xs : List α) :
    xs.eraseDups.findSome? f = xs.findSome? f := by
  induction xs using eraseDupsInduction with
  | nil => rfl
  | cons a xs ih =>
      rw [List.eraseDups_cons, List.findSome?_cons, List.findSome?_cons, ih]
      cases result : f a with
      | some b => rfl
      | none => exact findSome?_filter_ne result xs

end FirstResult

/-! ## Modules -/

namespace Context

open Proposal (KeptAlike)

variable {c : Collaborators} {types types' : List ModuleType}

theorem eraseDups_candidateTypes (alike : ModuleType.RanksAlike types types')
    (position : Position) :
    (candidateTypes ⟨c, types⟩ position).eraseDups =
      (candidateTypes ⟨c, types'⟩ position).eraseDups := by
  cases position with
  | first => exact alike.first
  | downstream => exact alike.downstream

theorem findModule_eq (alike : ModuleType.RanksAlike types types') :
    findModule ⟨c, types'⟩ = findModule ⟨c, types⟩ := by
  funext name position
  calc findModule ⟨c, types'⟩ name position
      = (candidateTypes ⟨c, types'⟩ position).eraseDups.findSome? (c.catalog.find? name) :=
        (findSome?_eraseDups _ _).symm
    _ = (candidateTypes ⟨c, types⟩ position).eraseDups.findSome? (c.catalog.find? name) := by
        rw [eraseDups_candidateTypes alike]
    _ = findModule ⟨c, types⟩ name position := findSome?_eraseDups _ _

/-- Of the modules that are listed again nothing is kept. -/
theorem keptAlike_registrationsAt (alike : ModuleType.RanksAlike types types')
    (position : Position) (wanted : Registration → Bool) (make : Registration → Proposal) :
    KeptAlike Eq (((registrationsAt ⟨c, types⟩ position).filter wanted).map make)
      (((registrationsAt ⟨c, types'⟩ position).filter wanted).map make) := by
  intro seen
  simp only [registrationsAt, List.filter_flatMap, List.map_flatMap]
  rw [← Proposal.keepFirst_flatMap_eraseDups, eraseDups_candidateTypes alike,
    Proposal.keepFirst_flatMap_eraseDups]

end Context

/-! ## Engines -/

namespace Engine

variable {engine : Engine} {c : Collaborators} {text : String} {detail : Nat}

/-- Where no type is tried nothing is found. -/
theorem value_complete_of_precedence_nil (unranked : engine.precedence = []) :
    (engine.complete c text detail).value = [] := by
  have unknown : ∀ {t known}, (Context.lastStage ⟨c, []⟩ t).value ≠ some known := by
    intro t known found
    obtain ⟨-, found, -⟩ := Context.value_lastStage_eq_some_iff.mp found
    cases found
  have untyped : ∀ {e known},
      (Recovery.typedStage ⟨⟨c, []⟩, text, detail⟩ e).value ≠ some known := by
    intro e known found
    obtain ⟨t, -, found⟩ := Recovery.value_typedStage_eq_some_iff.mp found
    exact unknown found
  rw [List.eq_nil_iff_forall_not_mem]
  intro p member
  obtain ⟨subject, emitted⟩ := exists_emitted_of_mem_complete member
  rw [unranked] at emitted
  cases emitted with
  | afterDashDash _ _ _ found => exact untyped found
  | unfinishedPropertyName _ _ _ _ found => exact untyped found
  | value _ _ _ _ found => exact untyped found
  | moduleOptions _ _ found => exact unknown found
  | moduleName _ _ _ usable => cases usable
  | unfinishedModuleName _ _ _ _ _ usable => cases usable
  | pipe _ _ _ found => cases found

/-- What the order of types decides. Whatever strategies an engine has, it proposes the same when
its types are listed in another way that ranks sources and tasks alike, and processors and sinks.
How the two groups are mixed does not matter, and neither do repeats. Without any types it proposes
nothing. -/
theorem complete_precedence (engine : Engine) (c : Collaborators) (text : String) (detail : Nat) :
    (∀ precedence, ModuleType.RanksAlike engine.precedence precedence →
      (({ engine with precedence } : Engine).complete c text detail).value =
        (engine.complete c text detail).value) ∧
    (({ engine with precedence := [] } : Engine).complete c text detail).value = [] := by
  refine ⟨fun precedence alike => ?_, value_complete_of_precedence_nil rfl⟩
  have corresponds : Request.Corresponds Eq ⟨⟨c, engine.precedence⟩, text, detail⟩
      ⟨⟨c, precedence⟩, text, detail⟩ :=
    ⟨rfl, rfl, rfl, rfl, Context.findModule_eq alike, fun position wanted before kind =>
      Context.keptAlike_registrationsAt alike position wanted _⟩
  exact (keptAlike_candidates_of_corresponds Proposal.congruence_eq corresponds []).symm

/-- Types that are repeated and mixed. -/
theorem complete_precedence_mixed :
    let c := sampleContext.collaborators
    let types : List ModuleType := [.processor, .source, .processor, .sink, .source, .task]
    ((standard types).complete c "time" 1).value =
        ((standard ModuleType.all).complete c "time" 1).value ∧
      ⟨"time | log", .addition, "sink module"⟩ ∈ ((standard types).complete c "time" 1).value := by
  intro c types
  have alike : ModuleType.RanksAlike ModuleType.all types := ⟨by decide, by decide⟩
  have same := (complete_precedence (standard ModuleType.all) c "time" 1).1 types alike
  exact ⟨same, same ▸ (by decide)⟩

end Engine

end StreamLang
