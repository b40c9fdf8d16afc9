import Mathlib.Data.List.Nodup
import StreamLang.Proofs.Completion.Correspondence
import StreamLang.Proofs.Completion.Locality

/-!
The order of registrations.

Registries that find the same modules list the same ones, in the orders of their histories
(`Registry.perm_all`). Within a type no name is listed twice, so that the order there decides about
no proposal (`Proposal.KeptAlike.of_perm`), and the types are tried in an order of their own. So
such registries lead to the same proposals. Properties and values do not come from the catalog, and
their proposals keep their order (`Engine.keptAlike_candidates_of_perm`).
-/

namespace StreamLang

/-! ## Registries -/

namespace Registry

variable {r r' : Registry}

/-- Registries that find the same modules list the same ones. -/
theorem perm_all (same : ∀ name type, r.find? name type = r'.find? name type) :
    r.all.Perm r'.all := by
  have nodup : ∀ r : Registry, r.all.Nodup := fun r => (nodup_keys_all r).of_map _
  rw [List.perm_ext_iff_of_nodup (nodup r) (nodup r')]
  intro m
  rw [mem_all_iff, mem_all_iff, same]

/-- No name is listed twice with one type. -/
theorem nodup_names (r : Registry) (type : ModuleType) :
    ((r.all.filter fun m => m.type == type).map Registration.name).Nodup := by
  have keys : ((r.all.filter fun m => m.type == type).map Registration.key).Nodup :=
    (nodup_keys_all r).sublist (List.filter_sublist.map _)
  have split : (r.all.filter fun m => m.type == type).map Registration.key =
      (r.all.filter fun m => m.type == type).map (Prod.mk type ∘ Registration.name) := by
    refine List.map_congr_left fun m member => ?_
    have isType : m.type = type := by simpa using (List.mem_filter.mp member).2
    rw [Registration.key, isType]
    rfl
  rw [split, ← List.map_map] at keys
  exact keys.of_map _

end Registry

/-! ## Proposals of different texts -/

namespace Proposal

variable {seen : List String} {ps qs : List Proposal}

/-- Of proposals of different texts those are kept whose texts have not been seen. -/
theorem keepFirst_of_nodup (nodup : (ps.map Proposal.text).Nodup) :
    keepFirst seen ps = ps.filter fun p => decide (p.text ∉ seen) := by
  induction ps generalizing seen with
  | nil => rfl
  | cons a ps ih =>
      rw [List.map_cons, List.nodup_cons] at nodup
      rw [keepFirst]
      by_cases known : a.text ∈ seen
      · rw [if_pos known, List.filter_cons_of_neg (by simp [known]), ih nodup.2]
      · rw [if_neg known, List.filter_cons_of_pos (by simp [known]), ih nodup.2]
        congr 1
        refine List.filter_congr fun p member => ?_
        have apart : p.text ≠ a.text := fun same => nodup.1 (same ▸ List.mem_map_of_mem member)
        simp [apart]

theorem KeptAlike.of_perm (perm : ps.Perm qs) (nodup : (ps.map Proposal.text).Nodup) :
    KeptAlike List.Perm ps qs := by
  intro seen
  have nodup' : (qs.map Proposal.text).Nodup := (perm.map _).nodup_iff.mp nodup
  rw [keepFirst_of_nodup nodup, keepFirst_of_nodup nodup']
  exact perm.filter _

end Proposal

open Proposal (KeptAlike congruence_perm)

/-! ## Requests -/

section Requests

variable {r r' : Registry} (same : ∀ name type, r.find? name type = r'.find? name type)
  (resolve : Coordinates → Except ResolutionError Artifact)
  (listProperties : Artifact → Except MetadataError (List Property))
  (precedence : List ModuleType) (text : String) (detail : Nat)
include same

/-- Requests to registries that find the same modules correspond, up to the order of the
proposals. -/
theorem corresponds_of_find? :
    Request.Corresponds List.Perm
      ⟨⟨⟨r.catalog, resolve, listProperties⟩, precedence⟩, text, detail⟩
      ⟨⟨⟨r'.catalog, resolve, listProperties⟩, precedence⟩, text, detail⟩ := by
  refine ⟨rfl, rfl, rfl, rfl, ?_, fun position wanted before kind => ?_⟩
  · have find : r'.find? = r.find? := funext₂ fun name type => (same name type).symm
    funext name position
    simp only [Context.findModule, Registry.catalog, find]
    rfl
  · simp only [Context.registrationsAt, List.filter_flatMap, List.map_flatMap]
    refine KeptAlike.flatMap congruence_perm fun type _ => .of_perm ?_ ?_
    · exact (((Registry.perm_all same).filter _).filter _).map _
    · have names := (r.nodup_names type).sublist
        ((List.filter_sublist (p := wanted)).map Registration.name)
      have injective : Function.Injective fun name => before ++ name := by
        intro name name' equal
        simpa using equal
      have made := names.map injective
      rw [List.map_map] at made ⊢
      exact made

end Requests

/-! ## What is filled in -/

/-- Whether a proposal for a text fills in a property or a value, and no module. -/
def Proposal.fillsIn (text : String) (p : Proposal) : Bool :=
  match Topology.parse text with
  | .ok _ => !p.namesModule (Text.trimEnd text)
  | .error e => e.expectation != .moduleName

section FillsIn

variable {q q' : Request} {t : Topology} {e : ParseFailure} {p : Proposal}

theorem Proposal.fillsIn_of_parse (parsed : Topology.parse q.text = .ok t) :
    p.fillsIn q.text = !p.namesModule q.base := by
  rw [fillsIn, parsed]
  rfl

theorem Proposal.fillsIn_of_error (fails : Topology.parse q.text = .error e) :
    p.fillsIn q.text = (e.expectation != .moduleName) := by
  rw [fillsIn, fails]

/-- What is emitted fills something in unless it is emitted for a module. -/
theorem Emitted.fillsIn_iff {subject : Subject} (emitted : Emitted q subject p) :
    p.fillsIn q.text = true ↔ ∀ m, subject ≠ .module m := by
  cases subject with
  | module r =>
      have modules : p.fillsIn q.text = false := by
        cases parsed : Topology.parse q.text with
        | ok t => rw [Proposal.fillsIn_of_parse parsed, emitted.namesModule parsed, Bool.not_true]
        | error e =>
            rw [Proposal.fillsIn_of_error parsed, emitted.expectation_of_error parsed,
              bne_self_eq_false]
      simp [modules]
  | property property =>
      have fills : p.fillsIn q.text = true := by
        cases emitted with
        | afterDashDash fails _ expects | unfinishedPropertyName fails _ expects =>
            rw [Proposal.fillsIn_of_error fails, expects]
            rfl
        | @moduleOptions t _ _ parsed _ found unset =>
            have member : q.propertyName (q.base ++ " --") .addition property ∈
                (Expansion.ofOptions q t).value := by
              simp only [Expansion.ofOptions, Logged.value_bind, found, Logged.value_pure]
              exact List.mem_map_of_mem unset
            rw [Proposal.fillsIn_of_parse parsed, Proposal.namesModule,
              Expansion.not_isPipe_of_mem_ofOptions member]
            rfl
      simp [fills]
  | value value =>
      have fills : p.fillsIn q.text = true := by
        cases emitted with
        | value fails _ expects =>
            rw [Proposal.fillsIn_of_error fails, expects]
            rfl
      simp [fills]

theorem Expansion.namesModule_of_mem {x : Expansion} (isOther : x ≠ .moduleOptions)
    (member : p ∈ (x.proposals q t).value) : p.namesModule q.base = true := by
  have all := filter_namesModule q t x
  rw [if_neg isOther, List.filter_eq_self] at all
  exact all p member

end FillsIn

/-! ## Engines -/

namespace Engine

variable {q q' : Request}

/-- The candidates for requests that correspond are the same up to their order, and those that fill
something in have the same order. -/
theorem keptAlike_candidates_of_perm (engine : Engine)
    (corresponds : q.Corresponds List.Perm q') :
    KeptAlike (fun ps qs => ps.Perm qs ∧
        ps.filter (Proposal.fillsIn q.text) = qs.filter (Proposal.fillsIn q.text))
      (engine.candidates q).value (engine.candidates q').value := by
  have congruence := congruence_perm.filter (Proposal.fillsIn q.text)
  refine keptAlike_candidates congruence corresponds.text (fun t parsed x => ?_)
    fun e fails r handles => ?_
  · by_cases isOptions : x = .moduleOptions
    · subst isOptions
      refine .of_eq congruence ?_
      simp only [Expansion.proposals, corresponds.ofOptions]
    · intro seen
      refine ⟨corresponds.expansion congruence_perm x seen, ?_⟩
      -- Neither list has anything that fills in, since all of it names modules.
      have empty : ∀ {q' : Request}, q'.text = q.text →
          (Proposal.keepFirst seen (x.proposals q' t).value).filter
            (Proposal.fillsIn q.text) = [] := by
        intro q' text
        rw [List.filter_eq_nil_iff]
        intro p member
        rw [← text] at parsed ⊢
        rw [Proposal.fillsIn_of_parse parsed, Expansion.namesModule_of_mem isOptions
          (Proposal.mem_of_mem_keepFirst member)]
        exact Bool.false_ne_true
      rw [empty rfl, empty corresponds.text]
  · by_cases isName : r = .moduleName
    · subst isName
      intro seen
      refine ⟨corresponds.recovery congruence_perm _ seen, ?_⟩
      have nothing : Proposal.fillsIn q.text = fun _ => false := by
        funext p
        rw [Proposal.fillsIn_of_error fails, ← handles]
        rfl
      rw [nothing, List.filter_false, List.filter_false]
    · rw [corresponds.recovery_of_ne isName]
      exact .refl congruence _

/-- Registering in another order only reorders. Whatever strategies an engine has, registries that
find the same modules under every name and type lead to the same proposals, with the same kinds and
explanations. Those that fill in a property or a value stand in the same order. -/
theorem complete_reordered (engine : Engine) {r r' : Registry}
    (same : ∀ name type, r.find? name type = r'.find? name type)
    (resolve : Coordinates → Except ResolutionError Artifact)
    (listProperties : Artifact → Except MetadataError (List Property)) (text : String)
    (detail : Nat) :
    let c : Collaborators := ⟨r.catalog, resolve, listProperties⟩
    let c' : Collaborators := ⟨r'.catalog, resolve, listProperties⟩
    (engine.complete c text detail).value.Perm (engine.complete c' text detail).value ∧
      (engine.complete c text detail).value.filter (Proposal.fillsIn text) =
        (engine.complete c' text detail).value.filter (Proposal.fillsIn text) ∧
      ∀ p ∈ (engine.complete c text detail).value, p.fillsIn text = true ↔
        ∃ subject, Emitted ⟨⟨c, engine.precedence⟩, text, detail⟩ subject p ∧
          ∀ m, subject ≠ .module m := by
  intro c c'
  have corresponds :=
    corresponds_of_find? same resolve listProperties engine.precedence text detail
  obtain ⟨perm, order⟩ := keptAlike_candidates_of_perm engine corresponds []
  refine ⟨perm, order, fun p member => ?_⟩
  obtain ⟨subject, emitted⟩ := exists_emitted_of_mem_complete member
  constructor
  · intro fills
    exact ⟨subject, emitted, emitted.fillsIn_iff.mp fills⟩
  · rintro ⟨subject', emitted', isOther⟩
    exact emitted'.fillsIn_iff.mpr isOther

/-- Two histories of one registry, of which one replaces a module on the way. -/
theorem complete_reordered_replaced :
    let time : Registration := ⟨.source, "time", .plain "org" "time" "2"⟩
    let log : Registration := ⟨.sink, "log", .plain "org" "log" "1"⟩
    let file : Registration := ⟨.sink, "file", .plain "org" "file" "1"⟩
    let old : Registration := ⟨.source, "time", .plain "org" "time" "1"⟩
    let r := (Registry.empty.registerAll [time, log, file]).value
    let r' := (Registry.empty.registerAll [file, old, log, time]).value
    let resolve := sampleContext.collaborators.resolve
    let listProperties := sampleContext.collaborators.listProperties
    let proposals := fun r : Registry =>
      ((standard ModuleType.all).complete ⟨r.catalog, resolve, listProperties⟩ "time" 1).value
    proposals r ≠ proposals r' ∧ (proposals r).Perm (proposals r') ∧
      (proposals r').filter (Proposal.fillsIn "time") = [⟨"time --format=", .addition, ""⟩] := by
  intro time log file old r r' resolve listProperties proposals
  have same : ∀ name type, r.find? name type = r'.find? name type := by
    have all : r.all = [time, log, file] := by decide
    have all' : r'.all = [file, time, log] := by decide
    have rotated : [time, log, file].Perm [file, time, log] := by decide
    intro name type
    apply Option.ext
    intro m
    rw [Registry.find?_eq_some_iff, Registry.find?_eq_some_iff, all, all', rotated.mem_iff]
  obtain ⟨perm, order, -⟩ :=
    complete_reordered (standard ModuleType.all) same resolve listProperties "time" 1
  exact ⟨by decide, perm, order.symm.trans (by decide)⟩

end Engine

end StreamLang
