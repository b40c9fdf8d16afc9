import StreamLang.Completion.Engine
import StreamLang.Proofs.Completion.KeepFirst
import StreamLang.Proofs.Registry.History

/-!
What completion proposes.

There is one statement for each strategy: where its proposals come from and which texts they have.
`Engine.exists_expansion_of_mem_complete` and `Engine.exists_recovery_of_mem_complete` lead from a
proposal to the strategy that made it.
-/

namespace StreamLang

/-! ## Texts -/

/-- What stands before a suffix, with the suffix, is the text. -/
theorem Text.eq_append_of_beforeSuffix? {text ending before : String}
    (found : beforeSuffix? text ending = some before) : text = before ++ ending := by
  obtain ⟨suffix, same⟩ := Option.ite_none_right_eq_some.mp found
  obtain ⟨pre, split⟩ := List.isSuffixOf_iff_suffix.mp suffix
  cases same
  rw [← String.toList_inj, String.toList_append, String.toList_ofList, ← split]
  simp

theorem Text.beforeSuffix?_append (before ending : String) :
    beforeSuffix? (before ++ ending) ending = some before := by
  simp [beforeSuffix?]

/-! ## Requests -/

namespace Request

variable {q q' : Request}

theorem base_congr (text : q'.text = q.text) : q'.base = q.base := by
  rw [base, base, text]

/-- What a property is proposed with depends on the level of detail only. -/
theorem propertyName_congr (detail : q'.detail = q.detail) :
    q'.propertyName = q.propertyName := by
  funext before kind p
  simp only [propertyName, detail]

theorem moduleName_congr (detail : q'.detail = q.detail) : q'.moduleName = q.moduleName := by
  funext before kind r
  simp only [moduleName, detail]

end Request

/-! ## Catalogs -/

/-- Whether every module that a catalog lists is found in it by its name and type. -/
def Catalog.Consistent (c : Catalog) : Prop :=
  ∀ r ∈ c.all, (c.find? r.name r.type).isSome = true

/-- Registries find every module that they list. -/
theorem Registry.consistent_catalog (r : Registry) : r.catalog.Consistent := by
  intro m member
  exact Option.isSome_of_eq_some (mem_all_iff.mp member)

/-- Whether the modules that a catalog lists have the names that a stream can hold. -/
def Catalog.Named (c : Catalog) : Prop :=
  ∀ r ∈ c.all, isName r.name.toList = true

instance (c : Catalog) : Decidable c.Named :=
  inferInstanceAs (Decidable (∀ r ∈ c.all, isName r.name.toList = true))

/-! ## Modules and their properties -/

theorem lastPosition_concat (source : Option String) (front : List Stage) (s : Stage)
    (sink : Option String) :
    (Topology.mk source (front ++ [s]) sink).lastPosition =
      if front = [] ∧ source = none then .first else .downstream := by
  simp [Topology.lastPosition, Position.of]

/-- The properties that the artifact of a registered module declares. -/
def Collaborators.Declares (c : Collaborators) (r : Registration) (properties : List Property) :
    Prop :=
  ∃ artifact, c.resolve r.coordinates = .ok artifact ∧
    c.listProperties artifact = .ok properties

namespace Context

variable {ctx : Context} {position : Position} {r : Registration}

theorem mem_registrationsAt :
    r ∈ ctx.registrationsAt position ↔
      r.type ∈ ctx.candidateTypes position ∧ r ∈ ctx.collaborators.catalog.all := by
  simp only [registrationsAt, List.mem_flatMap, List.mem_filter, beq_iff_eq]
  constructor
  · rintro ⟨t, candidate, listed, rfl⟩
    exact ⟨candidate, listed⟩
  · rintro ⟨candidate, listed⟩
    exact ⟨r.type, candidate, listed, rfl⟩

theorem isName_of_mem_registrationsAt (named : ctx.collaborators.catalog.Named)
    (member : r ∈ ctx.registrationsAt position) : isName r.name.toList = true :=
  named r (mem_registrationsAt.mp member).2

/-- A name that is usable at a position is found there. -/
theorem exists_findModule_of_mem_registrationsAt
    (consistent : ctx.collaborators.catalog.Consistent)
    (member : r ∈ ctx.registrationsAt position) :
    ∃ found, ctx.findModule r.name position = some found := by
  obtain ⟨candidate, listed⟩ := mem_registrationsAt.mp member
  rw [← Option.isSome_iff_exists, findModule, List.findSome?_isSome_iff]
  exact ⟨r.type, candidate, consistent r listed⟩

theorem value_propertiesOf_eq_some_iff {properties : List Property} :
    (ctx.propertiesOf r).value = some properties ↔ ctx.collaborators.Declares r properties := by
  simp only [propertiesOf, Collaborators.Declares]
  cases ctx.collaborators.resolve r.coordinates with
  | error cause => simp
  | ok artifact =>
      cases listed : ctx.collaborators.listProperties artifact <;> simp [Logged.quiet, listed]

/-- The last stage is known when its module is found where it stands and declares properties. -/
theorem value_lastStage_eq_some_iff {t : Topology} {known : KnownStage} :
    (ctx.lastStage t).value = some known ↔
      t.last? = some known.stage ∧
        ctx.findModule known.stage.name t.lastPosition = some known.registration ∧
        ctx.collaborators.Declares known.registration known.properties := by
  obtain ⟨stage, registration, properties⟩ := known
  rw [← value_propertiesOf_eq_some_iff]
  cases last : t.last? with
  | none => simp [lastStage, last, Logged.quiet]
  | some s =>
      cases found : ctx.findModule s.name t.lastPosition with
      | none =>
          simp only [lastStage, last, found, Logged.quiet, reduceCtorEq, Option.some.injEq,
            false_iff, not_and]
          rintro rfl found'
          rw [found] at found'
          cases found'
      | some r =>
          simp only [lastStage, last, found, Logged.value_bind, Logged.value_pure,
            Option.map_eq_some_iff, KnownStage.mk.injEq, Option.some.injEq]
          constructor
          · rintro ⟨ps, declared, rfl, rfl, rfl⟩
            exact ⟨rfl, found, declared⟩
          · rintro ⟨rfl, found', declared⟩
            rw [found] at found'
            cases found'
            exact ⟨properties, declared, rfl, rfl, rfl⟩

end Context

/-- The values of a property are its hints, or its default when it has no hints. -/
theorem Property.mem_proposedValues {p : Property} {value : String} :
    value ∈ p.proposedValues ↔
      value ∈ p.valueHints ∨ p.valueHints = [] ∧ p.defaultValue = some value := by
  simp only [proposedValues]
  cases hints : p.valueHints <;> simp

theorem KnownStage.mem_unsetProperties {known : KnownStage} {p : Property} :
    p ∈ known.unsetProperties ↔
      p ∈ known.properties ∧ known.stage.hasParameter p.id = false := by
  simp [unsetProperties]

/-! ## Expansions -/

namespace Expansion

variable {q : Request} {t : Topology} {last : Stage} {p : Proposal}

/-- A longer name replaces the last name of a text that ends in it. -/
theorem mem_ofUnfinishedName (member : p ∈ ofUnfinishedName q t last) :
    last.parameters.isEmpty = true ∧ ∃ before, q.text = before ++ last.name ∧
      ∃ r ∈ q.context.registrationsAt t.lastPosition,
        last.name.toList.isPrefixOf r.name.toList = true ∧ p.text = before ++ r.name := by
  simp only [ofUnfinishedName] at member
  split at member
  · cases member
  · next empty =>
      refine ⟨by simpa using empty, ?_⟩
      split at member
      · cases member
      · next before found =>
          obtain ⟨r, longer, rfl⟩ := List.mem_map.mp member
          obtain ⟨usable, extends_⟩ := List.mem_filter.mp longer
          exact ⟨before, Text.eq_append_of_beforeSuffix? found, r, usable,
            (Bool.and_eq_true_iff.mp extends_).1, rfl⟩

/-- An option is a declared property that the last stage is not given. -/
theorem mem_ofOptions (member : p ∈ (ofOptions q t).value) :
    ∃ known, (q.context.lastStage t).value = some known ∧
      ∃ property ∈ known.properties, known.stage.hasParameter property.id = false ∧
        p.text = q.base ++ " --" ++ property.id ++ "=" := by
  simp only [ofOptions, Logged.value_bind] at member
  split at member
  · cases member
  · next known found =>
      obtain ⟨property, unset, rfl⟩ := List.mem_map.mp member
      obtain ⟨declared, absent⟩ := KnownStage.mem_unsetProperties.mp unset
      exact ⟨known, found, property, declared, absent, rfl⟩

/-- A module is proposed after a pipe when the last one is found and has output. -/
theorem mem_ofPipe (member : p ∈ ofPipe q t last) :
    ∃ r, q.context.findModule last.name t.lastPosition = some r ∧ r.type.hasOutput = true ∧
      ∃ next ∈ q.context.registrationsAt .downstream, p.text = q.base ++ " | " ++ next.name := by
  simp only [ofPipe] at member
  split at member
  · cases member
  · next r found =>
      split at member
      · next output =>
          obtain ⟨next, usable, rfl⟩ := List.mem_map.mp member
          exact ⟨r, found, output, next, usable, rfl⟩
      · cases member

/-- Expansions propose something only where a stage can still be added to. -/
theorem exists_last_of_mem_proposals {x : Expansion} (member : p ∈ (x.proposals q t).value) :
    ∃ last, t.last? = some last ∧ t.sink = none := by
  simp only [proposals] at member
  split at member
  · next sink last => exact ⟨_, last, sink⟩
  · cases member

/-- What the expansions propose for a stream, by the strategy that proposes it. -/
inductive Origin (q : Request) (t : Topology) (last : Stage) (p : Proposal) : Prop
  | unfinishedModuleName : p ∈ ofUnfinishedName q t last → Origin q t last p
  | moduleOptions : p ∈ (ofOptions q t).value → Origin q t last p
  | pipe : p ∈ ofPipe q t last → Origin q t last p

theorem origin_of_mem_proposals {x : Expansion} (member : p ∈ (x.proposals q t).value) :
    ∃ last, t.last? = some last ∧ Origin q t last p := by
  obtain ⟨last, isLast, sink⟩ := exists_last_of_mem_proposals member
  simp only [proposals, sink, isLast] at member
  refine ⟨last, isLast, ?_⟩
  cases x with
  | unfinishedModuleName => exact .unfinishedModuleName member
  | moduleOptions => exact .moduleOptions member
  | pipe => exact .pipe member

end Expansion

/-! ## Recoveries -/

namespace Recovery

variable {q : Request} {e : ParseFailure} {p : Proposal}

/-- A value of the first declared property of the name typed is written after the equals sign. -/
theorem mem_ofValue (member : p ∈ (ofValue q e).value) :
    ∃ key t known, e.lastName? = some key ∧ e.typed? = some t ∧
      (q.context.lastStage t).value = some known ∧
      ∃ property, known.properties.find? (fun p => p.id == key.text) = some property ∧
        ∃ value ∈ property.proposedValues, p.text = q.base ++ Value.render value := by
  simp only [ofValue] at member
  split at member
  · cases member
  · next key lastName =>
      simp only [Logged.value_bind, typedStage] at member
      split at member
      · cases member
      · next known found =>
          split at found
          · cases found
          · next t typed =>
              split at member
              · cases member
              · next property declared =>
                  obtain ⟨value, proposed, rfl⟩ := List.mem_map.mp member
                  exact ⟨key, t, known, lastName, typed, found, property, declared, value,
                    proposed, rfl⟩

/-- The recovery that is chosen handles what the grammar asked for. -/
theorem handles_of_select {recoveries : List Recovery} {r : Recovery}
    (selected : select recoveries e = some r) : r.handles = e.expectation := by
  simpa using List.find?_some selected

/-- No two recoveries handle the same failures. -/
theorem eq_of_handles_eq {r r' : Recovery} (same : r.handles = r'.handles) : r = r' := by
  cases r <;> cases r' <;> first | rfl | cases same

/-- At the end of a text every recovery makes its proposals. -/
theorem proposals_of_atEnd (atEnd : e.atEnd = true) (r : Recovery) :
    r.proposals q e =
      match r with
      | .propertyNameAfterDashDash => afterDashDash q e
      | .unfinishedPropertyName => ofUnfinishedName q e
      | .propertyValue => ofValue q e
      | .moduleName => pure (ofModuleName q e) := by
  unfold proposals
  rw [atEnd]
  rfl

theorem mem_ofModuleName (member : p ∈ ofModuleName q e) :
    ∃ r ∈ q.context.registrationsAt (awaitedPosition q.text e),
      p.text = q.text ++ separator q.text ++ r.name := by
  obtain ⟨r, usable, rfl⟩ := List.mem_map.mp member
  exact ⟨r, usable, rfl⟩

end Recovery

/-! ## The engine -/

namespace Engine

variable {engine : Engine} {c : Collaborators} {text : String} {detail : Nat} {p : Proposal}

theorem exists_expansion_of_mem_expand {q : Request} {t : Topology} {xs : List Expansion}
    (member : p ∈ (expand q t xs).value) : ∃ x ∈ xs, p ∈ (x.proposals q t).value := by
  induction xs with
  | nil => cases member
  | cons x xs ih =>
      simp only [expand, Logged.value_bind, Logged.value_pure, List.mem_append] at member
      rcases member with own | others
      · exact ⟨x, List.mem_cons_self, own⟩
      · obtain ⟨y, later, proposed⟩ := ih others
        exact ⟨y, List.mem_cons_of_mem _ later, proposed⟩

/-- A proposal for a stream is made by an expansion. -/
theorem exists_expansion_of_mem_complete {t : Topology} (parsed : Topology.parse text = .ok t)
    (member : p ∈ (engine.complete c text detail).value) :
    ∃ x ∈ engine.expansions,
      p ∈ (x.proposals ⟨⟨c, engine.precedence⟩, text, detail⟩ t).value := by
  have found := Proposal.mem_of_mem_keepFirst member
  simp only [candidates, parsed] at found
  exact exists_expansion_of_mem_expand found

/-- A proposal for a text that is no stream is made by the recovery that handles the failure. -/
theorem exists_recovery_of_mem_complete {e : ParseFailure}
    (fails : Topology.parse text = .error e)
    (member : p ∈ (engine.complete c text detail).value) :
    ∃ r, Recovery.select engine.recoveries e = some r ∧
      p ∈ (r.proposals ⟨⟨c, engine.precedence⟩, text, detail⟩ e).value := by
  have found := Proposal.mem_of_mem_keepFirst member
  simp only [candidates, fails] at found
  split at found
  · next r selected => exact ⟨r, selected, found⟩
  · cases found

end Engine

end StreamLang
