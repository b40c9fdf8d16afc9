import StreamLang.Proofs.Completion.Acceptance

/-!
For what each proposal is made.

`Emitted` lists the seven ways in which a proposal comes about, with the property, the value or the
module that it is made for. The proposals for a text are exactly the texts that are emitted
(`exists_emitted_of_mem_proposalsFor` and `Emitted.exists_mem_proposalsFor`).
-/

namespace StreamLang

/-- What a proposal is made for: a property that it names, a value that it gives, or a module. -/
inductive Subject where
  | property (p : Property)
  | value (value : String)
  | module (r : Registration)

/-- The proposals of the usual strategies for a request, each with what it is made for. -/
inductive Emitted (q : Request) : Subject → Proposal → Prop
  | afterDashDash {e : ParseFailure} {known : KnownStage} {p : Property} :
    Topology.parse q.text = .error e → e.atEnd = true → e.expectation = .propertyName →
    (Recovery.typedStage q e).value = some known → p ∈ known.unsetProperties →
    Emitted q (.property p) (q.propertyName q.base .expanding p)
  | unfinishedPropertyName {e : ParseFailure} {typed : Token} {known : KnownStage} {p : Property} :
    Topology.parse q.text = .error e → e.atEnd = true → e.expectation = .equals →
    e.lastName? = some typed → (Recovery.typedStage q e).value = some known →
    p ∈ known.unsetProperties → typed.text.toList.isPrefixOf p.id.toList = true →
    Emitted q (.property p) (q.propertyName (Text.upTo q.text typed.start) .expanding p)
  | value {e : ParseFailure} {key : Token} {known : KnownStage} {p : Property} {value : String} :
    Topology.parse q.text = .error e → e.atEnd = true → e.expectation = .value →
    e.lastName? = some key → (Recovery.typedStage q e).value = some known →
    known.properties.find? (fun p => p.id == key.text) = some p → value ∈ p.proposedValues →
    Emitted q (.value value) ⟨q.base ++ Value.render value, .expanding, p.explanation q.detail⟩
  | moduleName {e : ParseFailure} {r : Registration} :
    Topology.parse q.text = .error e → e.atEnd = true → e.expectation = .moduleName →
    r ∈ q.context.registrationsAt (Recovery.awaitedPosition q.text e) →
    Emitted q (.module r) (q.moduleName (q.text ++ Recovery.separator q.text) .addition r)
  | unfinishedModuleName {t : Topology} {last : Stage} {before : String} {r : Registration} :
    Topology.parse q.text = .ok t → t.sink = none → t.last? = some last →
    last.parameters.isEmpty = true → Text.beforeSuffix? q.text last.name = some before →
    r ∈ q.context.registrationsAt t.lastPosition →
    last.name.toList.isPrefixOf r.name.toList = true → r.name ≠ last.name →
    Emitted q (.module r) (q.moduleName before .expanding r)
  | moduleOptions {t : Topology} {known : KnownStage} {p : Property} :
    Topology.parse q.text = .ok t → t.sink = none → (q.context.lastStage t).value = some known →
    p ∈ known.unsetProperties →
    Emitted q (.property p) (q.propertyName (q.base ++ " --") .addition p)
  | pipe {t : Topology} {last : Stage} {r next : Registration} :
    Topology.parse q.text = .ok t → t.sink = none → t.last? = some last →
    q.context.findModule last.name t.lastPosition = some r → r.type.hasOutput = true →
    next ∈ q.context.registrationsAt .downstream →
    Emitted q (.module next) (q.moduleName (q.base ++ " | ") .addition next)

variable {q : Request} {e : ParseFailure} {t : Topology} {p : Proposal}

/-! ## The name typed last -/

/-- Where an equals sign is asked for, the name typed last is the key of a parameter, and the last
token of the text. -/
theorem exists_within_of_lastName {text : String} {typed : Token}
    (fails : Topology.parse text = .error e) (atEnd : e.atEnd = true)
    (expects : e.expectation = .equals) (lastName : e.lastName? = some typed) :
    ∃ c done current dashes, Cursor.start.readAll (tokensOf text) = .ok c ∧
      e = .ofHalt text ⟨c, endOf text⟩ ∧
      Cursor.Within (tokensOf text) done current dashes [typed] c ∧ typed.kind = .identifier ∧
      dashes.stop = typed.start := by
  obtain ⟨c, all, rfl⟩ := exists_cursor_of_atEnd fails atEnd
  obtain ⟨done, current, key, state⟩ := PartialStream.eq_key_of_expectation expects
  obtain ⟨dashes, typed', within_, isTyped, -, touch⟩ := Cursor.within_of_key all state
  have same : typed' = typed := by
    simpa [ParseFailure.lastName?, ParseFailure.ofHalt, within_.pending, isTyped] using lastName
  subst same
  exact ⟨c, done, current, dashes, all, rfl, within_, isTyped, touch⟩

/-! ## Recoveries -/

namespace Recovery

theorem value_typedStage_eq_some_iff {known : KnownStage} :
    (typedStage q e).value = some known ↔
      ∃ t, e.typed? = some t ∧ (q.context.lastStage t).value = some known := by
  unfold typedStage
  cases e.typed? <;> simp [Logged.quiet]

variable {r : Recovery} {known : KnownStage}

theorem value_afterDashDash (found : (typedStage q e).value = some known) :
    (afterDashDash q e).value =
      known.unsetProperties.map (q.propertyName q.base .expanding) := by
  simp [afterDashDash, found]

theorem value_ofUnfinishedName {typed : Token} (lastName : e.lastName? = some typed)
    (found : (typedStage q e).value = some known) :
    (ofUnfinishedName q e).value =
      (known.unsetProperties.filter fun p => typed.text.toList.isPrefixOf p.id.toList).map
        (q.propertyName (Text.upTo q.text typed.start) .expanding) := by
  simp [ofUnfinishedName, lastName, found]

theorem value_ofValue {key : Token} {property : Property} (lastName : e.lastName? = some key)
    (found : (typedStage q e).value = some known)
    (declared : known.properties.find? (fun p => p.id == key.text) = some property) :
    (ofValue q e).value = property.proposedValues.map fun value =>
      ⟨q.base ++ Value.render value, .expanding, property.explanation q.detail⟩ := by
  simp [ofValue, lastName, found, declared]

/-- A failure at the end of a text is continued by the recovery for what the grammar asked for. -/
theorem exists_emitted_of_mem_proposals (fails : Topology.parse q.text = .error e)
    (handles : r.handles = e.expectation) (member : p ∈ (r.proposals q e).value) :
    ∃ subject, Emitted q subject p := by
  unfold proposals at member
  split at member
  · cases member
  · next atEnd =>
    have atEnd : e.atEnd = true := by simpa using atEnd
    cases r with
    | propertyNameAfterDashDash =>
        cases found : (typedStage q e).value with
        | none => simp [afterDashDash, found] at member
        | some known =>
            simp only [value_afterDashDash found] at member
            obtain ⟨property, unset, rfl⟩ := List.mem_map.mp member
            exact ⟨_, .afterDashDash fails atEnd handles.symm found unset⟩
    | unfinishedPropertyName =>
        cases lastName : e.lastName? with
        | none => simp [ofUnfinishedName, lastName] at member
        | some typed =>
            cases found : (typedStage q e).value with
            | none => simp [ofUnfinishedName, lastName, found] at member
            | some known =>
                simp only [value_ofUnfinishedName lastName found] at member
                obtain ⟨property, matching, rfl⟩ := List.mem_map.mp member
                obtain ⟨unset, begun⟩ := List.mem_filter.mp matching
                exact ⟨_, .unfinishedPropertyName fails atEnd handles.symm lastName found unset
                  begun⟩
    | propertyValue =>
        obtain ⟨key, t, known, lastName, typed, isKnown, property, declared, value, offered, -⟩ :=
          mem_ofValue member
        have found := value_typedStage_eq_some_iff.mpr ⟨t, typed, isKnown⟩
        simp only [value_ofValue lastName found declared] at member
        obtain ⟨value, offered, rfl⟩ := List.mem_map.mp member
        exact ⟨_, .value fails atEnd handles.symm lastName found declared offered⟩
    | moduleName =>
        obtain ⟨module, usable, rfl⟩ := List.mem_map.mp member
        exact ⟨_, .moduleName fails atEnd handles.symm usable⟩

theorem select_standard (handles : r.handles = e.expectation) : select standard e = some r := by
  unfold select standard
  rw [← handles]
  cases r <;> rfl

end Recovery

/-! ## Expansions -/

namespace Expansion

variable {x : Expansion} {last : Stage}

theorem exists_emitted_of_mem_proposals (parsed : Topology.parse q.text = .ok t)
    (member : p ∈ (x.proposals q t).value) : ∃ subject, Emitted q subject p := by
  obtain ⟨last, isLast, unbound⟩ := exists_last_of_mem_proposals member
  simp only [proposals, unbound, isLast] at member
  cases x with
  | unfinishedModuleName =>
      have empty := (mem_ofUnfinishedName member).1
      cases found : Text.beforeSuffix? q.text last.name with
      | none => simp [ofUnfinishedName, found] at member
      | some before =>
          simp only [ofUnfinishedName, empty, found, Logged.value_pure] at member
          obtain ⟨r, longer, rfl⟩ := List.mem_map.mp member
          obtain ⟨usable, extends_⟩ := List.mem_filter.mp longer
          simp only [Bool.and_eq_true, bne_iff_ne] at extends_
          exact ⟨_, .unfinishedModuleName parsed unbound isLast empty found usable extends_.1
            extends_.2⟩
  | moduleOptions =>
      cases found : (q.context.lastStage t).value with
      | none => simp [ofOptions, found] at member
      | some known =>
          simp only [ofOptions, Logged.value_bind, found, Logged.value_pure] at member
          obtain ⟨property, unset, rfl⟩ := List.mem_map.mp member
          exact ⟨_, .moduleOptions parsed unbound found unset⟩
  | pipe =>
      obtain ⟨r, found, output, -⟩ := mem_ofPipe member
      simp only [ofPipe, found, output, if_true, Logged.value_pure] at member
      obtain ⟨next, usable, rfl⟩ := List.mem_map.mp member
      exact ⟨_, .pipe parsed unbound isLast found output usable⟩

end Expansion

/-! ## The engine -/

namespace Engine

theorem mem_expand {x : Expansion} {xs : List Expansion} (listed : x ∈ xs)
    (member : p ∈ (x.proposals q t).value) : p ∈ (expand q t xs).value := by
  induction xs with
  | nil => cases listed
  | cons y xs ih =>
      simp only [expand, Logged.value_bind, Logged.value_pure, List.mem_append]
      rcases List.mem_cons.mp listed with rfl | later
      · exact Or.inl member
      · exact Or.inr (ih later)

end Engine

variable {subject : Subject}

/-- Whatever is emitted is among the candidates of the engine. -/
theorem Emitted.mem_candidates (emitted : Emitted q subject p) (precedence : List ModuleType) :
    p ∈ ((Engine.standard precedence).candidates q).value := by
  have expanded : ∀ {x : Expansion} {t : Topology}, x ∈ Expansion.standard →
      Topology.parse q.text = .ok t → p ∈ (x.proposals q t).value →
      p ∈ ((Engine.standard precedence).candidates q).value := by
    intro x t listed parsed member
    simp only [Engine.candidates, parsed]
    exact Engine.mem_expand listed member
  have recovered : ∀ {r : Recovery} {e : ParseFailure}, r.handles = e.expectation →
      Topology.parse q.text = .error e → p ∈ (r.proposals q e).value →
      p ∈ ((Engine.standard precedence).candidates q).value := by
    intro r e handles fails member
    simp only [Engine.candidates, fails, Engine.standard, Recovery.select_standard handles]
    exact member
  cases emitted with
  | afterDashDash fails atEnd expectation found unset =>
      refine recovered (r := .propertyNameAfterDashDash) expectation.symm fails ?_
      simp only [Recovery.proposals_of_atEnd atEnd, Recovery.value_afterDashDash found]
      exact List.mem_map_of_mem unset
  | unfinishedPropertyName fails atEnd expectation lastName found unset begun =>
      refine recovered (r := .unfinishedPropertyName) expectation.symm fails ?_
      simp only [Recovery.proposals_of_atEnd atEnd,
        Recovery.value_ofUnfinishedName lastName found]
      exact List.mem_map_of_mem (List.mem_filter.mpr ⟨unset, begun⟩)
  | value fails atEnd expectation lastName found declared offered =>
      refine recovered (r := .propertyValue) expectation.symm fails ?_
      simp only [Recovery.proposals_of_atEnd atEnd, Recovery.value_ofValue lastName found declared]
      exact List.mem_map_of_mem offered
  | moduleName fails atEnd expectation usable =>
      refine recovered (r := .moduleName) expectation.symm fails ?_
      simp only [Recovery.proposals_of_atEnd atEnd, Recovery.ofModuleName]
      exact List.mem_map_of_mem usable
  | unfinishedModuleName parsed unbound isLast empty found usable extends_ apart =>
      refine expanded (x := .unfinishedModuleName) (by simp [Expansion.standard]) parsed ?_
      simp only [Expansion.proposals, unbound, isLast, Expansion.ofUnfinishedName, empty, found,
        Logged.value_pure]
      exact List.mem_map_of_mem (List.mem_filter.mpr ⟨usable, by simp [extends_, apart]⟩)
  | moduleOptions parsed unbound found unset =>
      obtain ⟨isLast, -⟩ := Context.value_lastStage_eq_some_iff.mp found
      refine expanded (x := .moduleOptions) (by simp [Expansion.standard]) parsed ?_
      simp only [Expansion.proposals, unbound, isLast, Expansion.ofOptions, Logged.value_bind,
        found, Logged.value_pure]
      exact List.mem_map_of_mem unset
  | pipe parsed unbound isLast found output usable =>
      refine expanded (x := .pipe) (by simp [Expansion.standard]) parsed ?_
      simp only [Expansion.proposals, unbound, isLast, Expansion.ofPipe, found, output, if_true,
        Logged.value_pure]
      exact List.mem_map_of_mem usable

section Proposals

variable {ctx : Context} {text : String} {detail : Nat}

/-- Whatever strategies an engine has, its proposals come about in one of the seven ways. -/
theorem Engine.exists_emitted_of_mem_complete {engine : Engine} {c : Collaborators}
    (member : p ∈ (engine.complete c text detail).value) :
    ∃ subject, Emitted ⟨⟨c, engine.precedence⟩, text, detail⟩ subject p := by
  cases parsed : Topology.parse text with
  | ok t =>
      obtain ⟨x, -, proposed⟩ := exists_expansion_of_mem_complete parsed member
      exact Expansion.exists_emitted_of_mem_proposals parsed proposed
  | error e =>
      obtain ⟨r, selected, proposed⟩ := exists_recovery_of_mem_complete parsed member
      exact Recovery.exists_emitted_of_mem_proposals parsed (Recovery.handles_of_select selected)
        proposed

theorem exists_emitted_of_mem_proposalsFor (member : p ∈ proposalsFor ctx text detail) :
    ∃ subject, Emitted ⟨ctx, text, detail⟩ subject p :=
  Engine.exists_emitted_of_mem_complete member

/-- For everything that is emitted there is a proposal of the same text. -/
theorem Emitted.exists_mem_proposalsFor (emitted : Emitted ⟨ctx, text, detail⟩ subject p) :
    ∃ p' ∈ proposalsFor ctx text detail, p'.text = p.text :=
  Proposal.exists_mem_keepFirst (emitted.mem_candidates ctx.precedence) (by simp)

end Proposals

end StreamLang
