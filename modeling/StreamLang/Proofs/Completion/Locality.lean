import StreamLang.Proofs.Completion.Agreement
import StreamLang.Proofs.Completion.Strategies
import StreamLang.Proofs.Completion.Validity

/-!
What completion asks of its collaborators.

Whatever is proposed depends on the resolver and on the declared properties in one place: in the
properties of the module that is found for the last stage typed. An artifact that cannot be resolved
or read counts as one that declares nothing (`Context.declaredProperties_eq`). So two requests are
answered alike when they are told the same about this one module (`Engine.value_complete_congr`),
and modules are proposed even when nothing can be resolved or read.
-/

namespace StreamLang

/-! ## Declared properties -/

/-- The properties that an artifact declares, as far as they can be found out. -/
def Collaborators.effectiveProperties (c : Collaborators) (coordinates : Coordinates) :
    List Property :=
  match c.resolve coordinates with
  | .error _ => []
  | .ok artifact =>
      match c.listProperties artifact with
      | .error _ => []
      | .ok properties => properties

/-- Whether every artifact fails to be resolved, or every one to be read. -/
def Collaborators.AlwaysFails (c : Collaborators) : Prop :=
  (∀ coordinates, ∃ cause, c.resolve coordinates = .error cause) ∨
    ∀ artifact, ∃ cause, c.listProperties artifact = .error cause

theorem Collaborators.AlwaysFails.effectiveProperties {c : Collaborators} (fails : c.AlwaysFails)
    (coordinates : Coordinates) : c.effectiveProperties coordinates = [] := by
  unfold Collaborators.effectiveProperties
  rcases fails with unresolved | unlisted
  · obtain ⟨cause, error⟩ := unresolved coordinates
    rw [error]
  · cases c.resolve coordinates with
    | error cause => rfl
    | ok artifact =>
        obtain ⟨cause, error⟩ := unlisted artifact
        simp only [error]

theorem Collaborators.AlwaysFails.not_declares {c : Collaborators} (fails : c.AlwaysFails)
    (r : Registration) (properties : List Property) : ¬ c.Declares r properties := by
  rintro ⟨artifact, resolved, listed⟩
  rcases fails with unresolved | unlisted
  · obtain ⟨cause, error⟩ := unresolved r.coordinates
    rw [resolved] at error
    cases error
  · obtain ⟨cause, error⟩ := unlisted artifact
    rw [listed] at error
    cases error

namespace Context

variable {ctx : Context} {t : Topology}

/-- The module that is found for the last stage of a stream. -/
def lastModule? (ctx : Context) (t : Topology) : Option Registration :=
  t.last?.bind fun stage => ctx.findModule stage.name t.lastPosition

/-- The properties that the last stage of a stream is known to have. -/
def declaredProperties (ctx : Context) (t : Topology) : List Property :=
  ((ctx.lastStage t).value.map KnownStage.properties).getD []

theorem getD_value_propertiesOf (r : Registration) :
    (ctx.propertiesOf r).value.getD [] = ctx.collaborators.effectiveProperties r.coordinates := by
  unfold propertiesOf Collaborators.effectiveProperties
  cases ctx.collaborators.resolve r.coordinates with
  | error cause => rfl
  | ok artifact =>
      cases listed : ctx.collaborators.listProperties artifact <;> simp [listed, Logged.quiet]

/-- They are those that the module found for it declares. -/
theorem declaredProperties_eq (ctx : Context) (t : Topology) :
    ctx.declaredProperties t =
      ((ctx.lastModule? t).map fun r =>
        ctx.collaborators.effectiveProperties r.coordinates).getD [] := by
  unfold declaredProperties lastStage lastModule?
  cases t.last? with
  | none => rfl
  | some stage =>
      cases found : ctx.findModule stage.name t.lastPosition with
      | none => simp [found, Logged.quiet]
      | some r =>
          have declared := @getD_value_propertiesOf ctx r
          simp only [found, Option.bind_some, Option.map_some, Option.getD_some, Logged.value_bind,
            Logged.value_pure, ← declared]
          cases (ctx.propertiesOf r).value <;> rfl

/-- The open properties are the declared ones without those that the last stage is given. -/
theorem openProperties_eq {last : Stage} (isLast : t.last? = some last) :
    ctx.openProperties t =
      (ctx.declaredProperties t).filter fun p => !last.hasParameter p.id := by
  unfold openProperties declaredProperties
  cases known : (ctx.lastStage t).value with
  | none => rfl
  | some k =>
      obtain ⟨isLast', -⟩ := value_lastStage_eq_some_iff.mp known
      rw [isLast] at isLast'
      cases isLast'
      rfl

theorem openProperties_of_last?_eq_none (empty : t.last? = none) : ctx.openProperties t = [] := by
  simp [openProperties, lastStage, empty, Logged.quiet]

theorem openProperties_eq_nil (nothing : ctx.declaredProperties t = []) :
    ctx.openProperties t = [] := by
  cases isLast : t.last? with
  | none => exact openProperties_of_last?_eq_none isLast
  | some last => rw [openProperties_eq isLast, nothing, List.filter_nil]

end Context

/-! ## What the strategies ask -/

namespace Recovery

variable {q : Request} {e : ParseFailure} {t : Topology}

theorem value_ofValue_of_typed {key : Token} (lastName : e.lastName? = some key)
    (typed : e.typed? = some t) :
    (ofValue q e).value =
      match (q.context.declaredProperties t).find? (fun p => p.id == key.text) with
      | none => []
      | some p =>
          p.proposedValues.map fun value =>
            ⟨q.base ++ Value.render value, .expanding, p.explanation q.detail⟩ := by
  simp only [ofValue, lastName, Logged.value_bind, Context.declaredProperties, typedStage, typed]
  cases (q.context.lastStage t).value with
  | none => rfl
  | some known =>
      simp only [Option.map_some, Option.getD_some]
      cases known.properties.find? (fun p => p.id == key.text) <;> rfl

/-- Where the last stage typed declares nothing, only modules are proposed. -/
theorem value_proposals_eq_nil {r : Recovery} (isOther : r ≠ .moduleName)
    (nothing : ∀ t, e.typed? = some t → q.context.declaredProperties t = []) :
    (r.proposals q e).value = [] := by
  unfold proposals
  split
  · rfl
  · cases typed : e.typed? with
    | none =>
        have unknown : (typedStage q e).value = none := by
          rw [typedStage, typed]
          rfl
        cases r with
        | propertyNameAfterDashDash =>
            simp only [afterDashDash, Logged.value_bind, unknown, Logged.value_pure]
        | unfinishedPropertyName =>
            cases lastName : e.lastName? <;>
              simp only [ofUnfinishedName, lastName, Logged.value_bind, unknown, Logged.value_pure]
        | propertyValue =>
            cases lastName : e.lastName? <;>
              simp only [ofValue, lastName, Logged.value_bind, unknown, Logged.value_pure]
        | moduleName => exact absurd rfl isOther
    | some t =>
        have undeclared := nothing t typed
        have none := Context.openProperties_eq_nil undeclared
        cases r with
        | propertyNameAfterDashDash =>
            simp only [value_afterDashDash_of_typed typed, none, List.map_nil]
        | unfinishedPropertyName =>
            cases lastName : e.lastName? with
            | none => simp only [ofUnfinishedName, lastName, Logged.value_pure]
            | some name =>
                simp only [value_ofUnfinishedName_of_typed lastName typed, none, List.filter_nil,
                  List.map_nil]
        | propertyValue =>
            cases lastName : e.lastName? with
            | none => simp only [ofValue, lastName, Logged.value_pure]
            | some key =>
                simp only [value_ofValue_of_typed lastName typed, undeclared, List.find?_nil]
        | moduleName => exact absurd rfl isOther

end Recovery

/-- Whether a proposal for a stream names a module: it goes on with the last name, or comes after a
pipe. -/
def Proposal.namesModule (base : String) (p : Proposal) : Bool :=
  p.kind == .expanding || p.isPipe base

/-- All expansions but one name modules. -/
theorem Expansion.filter_namesModule (q : Request) (t : Topology) (x : Expansion) :
    ((x.proposals q t).value).filter (Proposal.namesModule q.base) =
      if x = .moduleOptions then [] else (x.proposals q t).value := by
  unfold proposals
  split
  · cases x with
    | unfinishedModuleName =>
        rw [if_neg (by decide), List.filter_eq_self]
        intro p member
        rw [Proposal.namesModule, kind_of_mem_ofUnfinishedName member]
        rfl
    | moduleOptions =>
        rw [if_pos rfl, List.filter_eq_nil_iff]
        intro p member
        rw [Proposal.namesModule, kind_of_mem_ofOptions member, not_isPipe_of_mem_ofOptions member]
        exact Bool.false_ne_true
    | pipe =>
        rw [if_neg (by decide), List.filter_eq_self]
        intro p member
        rw [Proposal.namesModule, isPipe_of_mem_ofPipe member, Bool.or_true]
  · split <;> rfl

/-- Two requests that differ in nothing but in whom they ask for properties, and are told the same
about the last stage of what has been typed. -/
structure Request.Alike (q q' : Request) (typed? : Option Topology) : Prop where
  text : q'.text = q.text
  detail : q'.detail = q.detail
  usable : q'.context.registrationsAt = q.context.registrationsAt
  found : q'.context.findModule = q.context.findModule
  declared : ∀ t, typed? = some t →
    q'.context.declaredProperties t = q.context.declaredProperties t

namespace Request.Alike

variable {q q' : Request} {t : Topology} {e : ParseFailure}

section Any

variable {typed? : Option Topology} (alike : q.Alike q' typed?)
include alike

theorem base : q'.base = q.base := base_congr alike.text

theorem propertyName : q'.propertyName = q.propertyName := propertyName_congr alike.detail

theorem moduleName : q'.moduleName = q.moduleName := moduleName_congr alike.detail

end Any

theorem openProperties (alike : q.Alike q' (some t)) :
    q'.context.openProperties t = q.context.openProperties t := by
  cases isLast : t.last? with
  | none =>
      rw [Context.openProperties_of_last?_eq_none isLast,
        Context.openProperties_of_last?_eq_none isLast]
  | some last =>
      rw [Context.openProperties_eq isLast, Context.openProperties_eq isLast,
        alike.declared t rfl]

/-- An expansion proposes the same, if it does not ask for properties. -/
theorem expansion_of_ne {typed? : Option Topology} (alike : q.Alike q' typed?) {x : Expansion}
    (isOther : x ≠ .moduleOptions) : (x.proposals q' t).value = (x.proposals q t).value := by
  unfold Expansion.proposals
  split
  · cases x with
    | unfinishedModuleName =>
        simp only [Logged.value_pure, Expansion.ofUnfinishedName, alike.text, alike.usable,
          alike.moduleName]
    | moduleOptions => exact absurd rfl isOther
    | pipe =>
        simp only [Logged.value_pure, Expansion.ofPipe, alike.found, alike.usable,
          alike.moduleName, alike.base]
  · rfl

theorem expansion (alike : q.Alike q' (some t)) (x : Expansion) :
    (x.proposals q' t).value = (x.proposals q t).value := by
  by_cases isOptions : x = .moduleOptions
  · subst isOptions
    unfold Expansion.proposals
    split
    · simp only [Expansion.value_ofOptions, alike.openProperties, alike.propertyName, alike.base]
    · rfl
  · exact alike.expansion_of_ne isOptions

/-- The recovery that names modules proposes the same. -/
theorem moduleRecovery {typed? : Option Topology} (alike : q.Alike q' typed?) :
    (Recovery.moduleName.proposals q' e).value = (Recovery.moduleName.proposals q e).value := by
  simp only [Recovery.proposals, Recovery.ofModuleName, alike.text, alike.usable,
    alike.moduleName]

theorem recovery (alike : q.Alike q' e.typed?) (r : Recovery) :
    (r.proposals q' e).value = (r.proposals q e).value := by
  by_cases isName : r = .moduleName
  · subst isName
    exact alike.moduleRecovery
  · cases typed : e.typed? with
    | none =>
        rw [Recovery.value_proposals_eq_nil isName (by simp [typed]),
          Recovery.value_proposals_eq_nil isName (by simp [typed])]
    | some t =>
        rw [typed] at alike
        unfold Recovery.proposals
        split
        · rfl
        · cases r with
          | propertyNameAfterDashDash =>
              simp only [Recovery.value_afterDashDash_of_typed typed, alike.openProperties,
                alike.propertyName, alike.base]
          | unfinishedPropertyName =>
              cases lastName : e.lastName? with
              | none => simp only [Recovery.ofUnfinishedName, lastName]
              | some name =>
                  simp only [Recovery.value_ofUnfinishedName_of_typed lastName typed,
                    alike.openProperties, alike.propertyName, alike.text]
          | propertyValue =>
              cases lastName : e.lastName? with
              | none => simp only [Recovery.ofValue, lastName]
              | some key =>
                  simp only [Recovery.value_ofValue_of_typed lastName typed,
                    alike.declared t rfl, alike.detail, alike.base]
          | moduleName => exact absurd rfl isName

end Request.Alike

/-! ## What modules are emitted for -/

namespace Emitted

variable {q : Request} {subject : Subject} {p : Proposal} {r : Registration}

/-- For a stream, what is emitted for a module names a module. -/
theorem namesModule {t : Topology} (emitted : Emitted q (.module r) p)
    (parsed : Topology.parse q.text = .ok t) : p.namesModule q.base = true := by
  cases emitted with
  | moduleName fails =>
      rw [parsed] at fails
      cases fails
  | unfinishedModuleName => rfl
  | pipe =>
      rw [Proposal.namesModule, Bool.or_eq_true]
      exact Or.inr (Text.startsWith_append_self _ _)

/-- For other texts a module is emitted only where its name is asked for. -/
theorem expectation_of_error {e : ParseFailure} (emitted : Emitted q (.module r) p)
    (fails : Topology.parse q.text = .error e) : e.expectation = .moduleName := by
  cases emitted with
  | moduleName fails' _ expects =>
      rw [fails] at fails'
      cases fails'
      exact expects
  | unfinishedModuleName parsed =>
      rw [fails] at parsed
      cases parsed
  | pipe parsed =>
      rw [fails] at parsed
      cases parsed

/-- Where all artifacts fail, nothing but modules is emitted. -/
theorem exists_eq_module_of_alwaysFails (emitted : Emitted q subject p)
    (fails : q.context.collaborators.AlwaysFails) : ∃ r, subject = .module r := by
  have undeclared : ∀ {t : Topology} {known : KnownStage},
      (q.context.lastStage t).value ≠ some known := by
    intro t known found
    obtain ⟨-, -, declares⟩ := Context.value_lastStage_eq_some_iff.mp found
    exact fails.not_declares _ _ declares
  cases emitted with
  | afterDashDash _ _ _ found =>
      obtain ⟨t, -, found⟩ := Recovery.value_typedStage_eq_some_iff.mp found
      exact absurd found undeclared
  | unfinishedPropertyName _ _ _ _ found =>
      obtain ⟨t, -, found⟩ := Recovery.value_typedStage_eq_some_iff.mp found
      exact absurd found undeclared
  | value _ _ _ _ found =>
      obtain ⟨t, -, found⟩ := Recovery.value_typedStage_eq_some_iff.mp found
      exact absurd found undeclared
  | moduleName => exact ⟨_, rfl⟩
  | unfinishedModuleName => exact ⟨_, rfl⟩
  | moduleOptions _ _ found => exact absurd found undeclared
  | pipe => exact ⟨_, rfl⟩

end Emitted

/-! ## Engines -/

namespace Engine

variable {engine : Engine} {c c' : Collaborators} {text : String} {detail : Nat}

/-- Two requests for a text are alike when the collaborators list the same modules and effectively
the same properties for the module of the last stage typed. -/
theorem alike_of_effectiveProperties (catalog : c'.catalog = c.catalog)
    (precedence : List ModuleType) {typed? : Option Topology}
    (agree : ∀ t r, typed? = some t → Context.lastModule? ⟨c, precedence⟩ t = some r →
      c'.effectiveProperties r.coordinates = c.effectiveProperties r.coordinates) :
    Request.Alike ⟨⟨c, precedence⟩, text, detail⟩ ⟨⟨c', precedence⟩, text, detail⟩ typed? := by
  obtain ⟨modules, resolve, listProperties⟩ := c
  obtain ⟨modules', resolve', listProperties'⟩ := c'
  cases catalog
  refine ⟨rfl, rfl, rfl, rfl, fun t typed => ?_⟩
  rw [Context.declaredProperties_eq, Context.declaredProperties_eq]
  -- The module that is found depends on the catalog only.
  have same : Context.lastModule? ⟨⟨modules, resolve', listProperties'⟩, precedence⟩ t =
      Context.lastModule? ⟨⟨modules, resolve, listProperties⟩, precedence⟩ t := rfl
  rw [same]
  cases found : Context.lastModule? ⟨⟨modules, resolve, listProperties⟩, precedence⟩ t with
  | none => rfl
  | some r => simp only [Option.map_some, Option.getD_some, agree t r typed found]

/-- Requests that are alike are answered alike. -/
theorem value_complete_congr
    (alike : Request.Alike ⟨⟨c, engine.precedence⟩, text, detail⟩
      ⟨⟨c', engine.precedence⟩, text, detail⟩ (typedIn? text)) :
    (engine.complete c' text detail).value = (engine.complete c text detail).value := by
  cases parsed : Topology.parse text with
  | ok t =>
      rw [typedIn?, parsed] at alike
      rw [value_complete_of_parse parsed, value_complete_of_parse parsed]
      simp only [alike.expansion]
  | error e =>
      rw [typedIn?, parsed] at alike
      rw [value_complete_of_error parsed, value_complete_of_error parsed]
      simp only [alike.recovery]

/-! ### Collaborators that fail -/

section Failing

variable (catalog : c'.catalog = c.catalog) (fails : c'.AlwaysFails)

include fails in
theorem declaredProperties_of_alwaysFails (precedence : List ModuleType) (t : Topology) :
    Context.declaredProperties ⟨c', precedence⟩ t = [] := by
  rw [Context.declaredProperties_eq]
  cases Context.lastModule? ⟨c', precedence⟩ t with
  | none => rfl
  | some r => simp only [Option.map_some, Option.getD_some, fails.effectiveProperties]

include catalog fails in
/-- For a stream the proposals that name modules are all there, in the same order. Others of the
same texts may have hidden more of them. -/
theorem filter_complete_sublist_of_parse {t : Topology} (parsed : Topology.parse text = .ok t) :
    ((engine.complete c text detail).value.filter
        (Proposal.namesModule (Text.trimEnd text))).Sublist
      (engine.complete c' text detail).value := by
  let q : Request := ⟨⟨c, engine.precedence⟩, text, detail⟩
  let q' : Request := ⟨⟨c', engine.precedence⟩, text, detail⟩
  have alike : q.Alike q' none :=
    alike_of_effectiveProperties catalog engine.precedence (by simp)
  have undeclared : q'.context.declaredProperties t = [] :=
    declaredProperties_of_alwaysFails fails engine.precedence t
  -- What the failing collaborators leave of an expansion is what names modules.
  have left : ∀ x : Expansion, (x.proposals q' t).value =
      ((x.proposals q t).value).filter (Proposal.namesModule q.base) := by
    intro x
    rw [Expansion.filter_namesModule]
    split
    · next isOptions =>
      subst isOptions
      unfold Expansion.proposals
      split
      · rw [Expansion.value_ofOptions, Context.openProperties_eq_nil undeclared, List.map_nil]
      · rfl
    · next isOther => exact alike.expansion_of_ne isOther
  rw [value_complete_of_parse parsed, value_complete_of_parse parsed]
  have candidates : (engine.expansions.flatMap fun x => (x.proposals q' t).value) =
      (engine.expansions.flatMap fun x => (x.proposals q t).value).filter
        (Proposal.namesModule q.base) := by
    rw [List.filter_flatMap]
    simp only [left]
  rw [candidates]
  exact Proposal.filter_keepFirst_sublist fun _ none => none

include catalog in
/-- Where the name of a module is asked for, nothing else is proposed. -/
theorem value_complete_of_moduleName {e : ParseFailure} (parsed : Topology.parse text = .error e)
    (expects : e.expectation = .moduleName) :
    (engine.complete c' text detail).value = (engine.complete c text detail).value := by
  have alike : Request.Alike ⟨⟨c, engine.precedence⟩, text, detail⟩
      ⟨⟨c', engine.precedence⟩, text, detail⟩ none :=
    alike_of_effectiveProperties catalog engine.precedence (by simp)
  rw [value_complete_of_error parsed, value_complete_of_error parsed]
  cases selected : Recovery.select engine.recoveries e with
  | none => rfl
  | some r =>
      obtain rfl : r = .moduleName :=
        Recovery.eq_of_handles_eq ((Recovery.handles_of_select selected).trans expects)
      simp only [alike.moduleRecovery]

include catalog fails in
/-- Every module that is named is still named when the collaborators fail, and in the same order. -/
theorem exists_kept_modules :
    ∃ kept : List Proposal, kept.Sublist (engine.complete c text detail).value ∧
      kept.Sublist (engine.complete c' text detail).value ∧
      ∀ p ∈ (engine.complete c text detail).value,
        (∃ r, Emitted ⟨⟨c, engine.precedence⟩, text, detail⟩ (.module r) p) → p ∈ kept := by
  cases parsed : Topology.parse text with
  | ok t =>
      refine ⟨_, List.filter_sublist, filter_complete_sublist_of_parse catalog fails parsed, ?_⟩
      rintro p member ⟨r, emitted⟩
      exact List.mem_filter.mpr ⟨member, emitted.namesModule parsed⟩
  | error e =>
      by_cases expects : e.expectation = .moduleName
      · rw [value_complete_of_moduleName catalog parsed expects]
        exact ⟨_, List.Sublist.refl _, List.Sublist.refl _, fun p member _ => member⟩
      · refine ⟨[], List.nil_sublist _, List.nil_sublist _, ?_⟩
        rintro p - ⟨r, emitted⟩
        exact absurd (emitted.expectation_of_error parsed) expects

end Failing

/-- Completion depends on its collaborators in one place. Whatever strategies an engine has, it
answers alike when the collaborators list the same modules and tell it effectively the same
properties of the module that is found for the last stage typed, and in any case when no module is
found there. An artifact that cannot be resolved or read counts as one without properties. When all
of them fail, modules are proposed and nothing else: every one that would be proposed otherwise, in
the same order. -/
theorem complete_locality (engine : Engine) {c c' : Collaborators}
    (catalog : c'.catalog = c.catalog) (text : String) (detail : Nat) :
    ((∀ t r, typedIn? text = some t → Context.lastModule? ⟨c, engine.precedence⟩ t = some r →
        c'.effectiveProperties r.coordinates = c.effectiveProperties r.coordinates) →
      (engine.complete c' text detail).value = (engine.complete c text detail).value) ∧
    ((∀ t, typedIn? text = some t → Context.lastModule? ⟨c, engine.precedence⟩ t = none) →
      (engine.complete c' text detail).value = (engine.complete c text detail).value) ∧
    (c'.AlwaysFails →
      (∃ kept : List Proposal, kept.Sublist (engine.complete c text detail).value ∧
        kept.Sublist (engine.complete c' text detail).value ∧
        ∀ p ∈ (engine.complete c text detail).value,
          (∃ r, Emitted ⟨⟨c, engine.precedence⟩, text, detail⟩ (.module r) p) → p ∈ kept) ∧
      ∀ p ∈ (engine.complete c' text detail).value,
        ∃ r, Emitted ⟨⟨c', engine.precedence⟩, text, detail⟩ (.module r) p) := by
  refine ⟨fun agree => ?_, fun unknown => ?_, fun fails => ⟨?_, fun p member => ?_⟩⟩
  · exact value_complete_congr (alike_of_effectiveProperties catalog engine.precedence agree)
  · refine value_complete_congr (alike_of_effectiveProperties catalog engine.precedence ?_)
    intro t r typed found
    rw [unknown t typed] at found
    cases found
  · exact exists_kept_modules catalog fails
  · obtain ⟨subject, emitted⟩ := exists_emitted_of_mem_complete member
    obtain ⟨r, rfl⟩ := emitted.exists_eq_module_of_alwaysFails fails
    exact ⟨r, emitted⟩

/-- What cannot be resolved but the artifact of the last module changes nothing, and a sink is
proposed even when nothing can be resolved. -/
theorem complete_locality_unresolved :
    let c := sampleContext.collaborators
    let time : Coordinates := .plain "org" "time" "1"
    let partly : Collaborators := { c with
      resolve := fun at_ => if at_ = time then c.resolve at_ else .error (.io at_) }
    let failing : Collaborators := { c with resolve := fun at_ => .error (.io at_) }
    ((standard ModuleType.all).complete partly "time" 1).value =
        ((standard ModuleType.all).complete c "time" 1).value ∧
      ⟨"time | log", .addition, "sink module"⟩ ∈
        ((standard ModuleType.all).complete failing "time" 1).value := by
  intro c time partly failing
  constructor
  · have catalog : partly.catalog = c.catalog := rfl
    refine (complete_locality (standard ModuleType.all) catalog "time" 1).1 ?_
    intro t r typed found
    cases typed
    have isTime : r.coordinates = time := by
      cases found
      rfl
    simp only [Collaborators.effectiveProperties, partly, isTime, if_true]
  · have catalog : failing.catalog = c.catalog := rfl
    have always : failing.AlwaysFails := Or.inl fun at_ => ⟨_, rfl⟩
    obtain ⟨⟨kept, -, still, modules⟩, -⟩ :=
      (complete_locality (standard ModuleType.all) catalog "time" 1).2.2 always
    obtain ⟨t, last, parsed, unbound, isLast, found⟩ : ∃ t last, Topology.parse "time" = .ok t ∧
        t.sink = none ∧ t.last? = some last ∧
        Context.findModule ⟨c, ModuleType.all⟩ last.name t.lastPosition =
          some ⟨.source, "time", time⟩ := ⟨_, _, rfl, rfl, rfl, rfl⟩
    have usable : ⟨.sink, "log", .plain "org" "log" "1"⟩ ∈
        Context.registrationsAt ⟨c, ModuleType.all⟩ .downstream := by decide
    let q : Request := ⟨⟨c, ModuleType.all⟩, "time", 1⟩
    have emitted : Emitted q (.module _) _ := .pipe parsed unbound isLast found rfl usable
    have shown : q.moduleName (q.base ++ " | ") .addition ⟨.sink, "log", .plain "org" "log" "1"⟩ =
        ⟨"time | log", .addition, "sink module"⟩ := by decide
    rw [shown] at emitted
    exact still.subset (modules _ (by decide) ⟨_, emitted⟩)

end Engine

end StreamLang
