import Mathlib.Algebra.GroupWithZero.Nat
import StreamLang.Proofs.Completion.Emission

/-!
Completion reaches every pipeline.

Accepting a proposal can start a pipeline (`ReachedIn.first`), can give its last stage a parameter in
two steps (`ReachedIn.parameter`), and can add a stage (`ReachedIn.next`). A pipeline is written by
these steps from left to right, and so it is reached in one step for each stage and two for each
parameter (`Pipeline.reachedIn`).
-/

namespace StreamLang

/-! ## Looking modules up -/

/-- Whether a catalog finds only modules that it lists, under their own names and types. -/
def Catalog.Faithful (c : Catalog) : Prop :=
  ∀ name type r, c.find? name type = some r → r ∈ c.all ∧ r.name = name ∧ r.type = type

/-- Registries find only modules that they list. -/
theorem Registry.faithful_catalog (r : Registry) : r.catalog.Faithful :=
  fun _ _ _ found => find?_eq_some_iff.mp found

variable {ctx : Context} {position : Position} {r : Registration} {name key value : String}

/-- What is found at a position is usable there. -/
theorem Context.mem_registrationsAt_of_findModule
    (faithful : ctx.collaborators.catalog.Faithful) (found : ctx.findModule name position = some r) :
    r ∈ ctx.registrationsAt position ∧ r.name = name := by
  obtain ⟨type, candidate, found⟩ := List.exists_of_findSome?_eq_some found
  obtain ⟨listed, isName, isType⟩ := faithful name type r found
  exact ⟨mem_registrationsAt.mpr ⟨isType ▸ candidate, listed⟩, isName⟩

/-! ## Steps -/

/-- The texts within the limit of spans that accepting a number of proposals leads to, starting from
nothing. -/
inductive ReachedIn (ctx : Context) (detail : Nat) : Nat → String → Prop
  | nothing : ReachedIn ctx detail 0 ""
  | accept {n : Nat} {text : String} {p : Proposal} : ReachedIn ctx detail n text →
    p ∈ proposalsFor ctx text detail → p.text.utf8ByteSize ≤ Span.limit →
    ReachedIn ctx detail (n + 1) p.text

namespace ReachedIn

variable {detail n : Nat} {text : String} {front : List Stage} {last : Stage}

/-- What is emitted for a text is reached in one more step. -/
theorem emitted {subject : Subject} {p : Proposal} {text' : String}
    (reached : ReachedIn ctx detail n text) (emitted : Emitted ⟨ctx, text, detail⟩ subject p)
    (same : p.text = text') (small : text'.utf8ByteSize ≤ Span.limit) :
    ReachedIn ctx detail (n + 1) text' := by
  obtain ⟨p', member, same'⟩ := emitted.exists_mem_proposalsFor
  rw [← same, ← same'] at small ⊢
  exact reached.accept member small

variable (faithful : ctx.collaborators.catalog.Faithful)

include faithful in
theorem first (found : ctx.findModule name .first = some r)
    (small : name.utf8ByteSize ≤ Span.limit) : ReachedIn ctx detail 1 name := by
  obtain ⟨usable, rfl⟩ := Context.mem_registrationsAt_of_findModule faithful found
  obtain ⟨e, fails, atEnd, expects, position⟩ : ∃ e, Topology.parse "" = .error e ∧
      e.atEnd = true ∧ e.expectation = .moduleName ∧
      Recovery.awaitedPosition "" e = .first := ⟨_, rfl, rfl, rfl, rfl⟩
  rw [← position] at usable
  have made : Emitted ⟨ctx, "", detail⟩ (.module r) _ := .moduleName fails atEnd expects usable
  refine ReachedIn.nothing.emitted made ?_ small
  simp [Request.moduleName, Recovery.separator]

include faithful in
/-- A stage is written after a pipe. -/
theorem next (reached : ReachedIn ctx detail n (piped front last).render)
    (pipeline : Pipeline ctx front last) (output : last.PassesOn ctx (.unfed front.length))
    (found : ctx.findModule name .downstream = some r)
    (small : (piped (front ++ [last]) (.named name)).render.utf8ByteSize ≤ Span.limit) :
    ReachedIn ctx detail (n + 1) (piped (front ++ [last]) (.named name)).render := by
  obtain ⟨usable, rfl⟩ := Context.mem_registrationsAt_of_findModule faithful found
  obtain ⟨r', found', hasOutput⟩ := output
  rw [show Position.unfed front.length = (piped front last).lastPosition from
    lastPosition_piped.symm] at found'
  have made : Emitted ⟨ctx, (piped front last).render, detail⟩ (.module r) _ :=
    .pipe pipeline.wellFormed.parse_render rfl last?_piped found' hasOutput usable
  have base : Text.trimEnd (piped front last).render = (piped front last).render :=
    Text.trimEnd_of_not_endsBlank pipeline.not_endsBlank_render
  refine reached.emitted made ?_ small
  rw [Request.moduleName, Request.base, base, render_piped, render_piped, feed_concat,
    Stage.render_named]

/-- A parameter is written in two steps: its key, and its value. -/
theorem parameter (reached : ReachedIn ctx detail n (piped front last).render)
    (pipeline : Pipeline ctx front last) (isName : isName key.toList = true)
    (fresh : last.hasParameter key = false)
    (found : ctx.findModule last.name (.unfed front.length) = some r)
    (offers : ctx.collaborators.Offers r key value)
    (small : (piped front (last.withParameter key value)).render.utf8ByteSize ≤ Span.limit) :
    ReachedIn ctx detail (n + 2) (piped front (last.withParameter key value)).render := by
  obtain ⟨properties, declares, property, declared, offered⟩ := offers
  obtain rfl : property.id = key := by simpa using List.find?_some declared
  have isKnown : (ctx.lastStage (piped front last)).value = some ⟨last, r, properties⟩ :=
    Context.value_lastStage_eq_some_iff.mpr
      ⟨last?_piped, lastPosition_piped ▸ found, declares⟩
  have unset : property ∈ (KnownStage.mk last r properties).unsetProperties :=
    KnownStage.mem_unsetProperties.mpr ⟨List.mem_of_find?_eq_some declared, fresh⟩
  have text := @render_piped_withParameter front last property.id value fresh
  have small' : (awaitingValue (piped front last) property.id).utf8ByteSize ≤ Span.limit := by
    rw [text, String.utf8ByteSize_append] at small
    omega
  -- The key.
  have base : Text.trimEnd (piped front last).render = (piped front last).render :=
    Text.trimEnd_of_not_endsBlank pipeline.not_endsBlank_render
  have keyMade : Emitted ⟨ctx, (piped front last).render, detail⟩ (.property property) _ :=
    .moduleOptions pipeline.wellFormed.parse_render rfl isKnown unset
  have keyReached := reached.emitted keyMade
    (by rw [Request.propertyName, Request.base, base, awaitingValue]) small'
  -- The value.
  obtain ⟨e, fails, expects, atEnd, typed, typedName, lastName, named⟩ :=
    exists_failure_of_awaitingValue pipeline.wellFormed rfl isName small'
  have base' : Text.trimEnd (awaitingValue (piped front last) property.id) =
      awaitingValue (piped front last) property.id :=
    Text.trimEnd_of_not_endsBlank (not_endsBlank_awaitingValue _ _)
  have valueMade : Emitted ⟨ctx, awaitingValue (piped front last) property.id, detail⟩
      (.value value) _ :=
    .value fails atEnd expects lastName
      (Recovery.value_typedStage_eq_some_iff.mpr ⟨_, typed, isKnown⟩) (named ▸ declared)
      (Property.mem_proposedValues.mpr offered)
  exact keyReached.emitted valueMade (by rw [Request.base, base', text]) small

end ReachedIn

/-! ## Stages written from left to right -/

theorem Stage.withParameters_concat (s : Stage) (pairs : List (String × String))
    (e : String × String) :
    s.withParameters (pairs ++ [e]) = (s.withParameters pairs).withParameter e.1 e.2 := by
  simp [withParameters]

theorem Stage.parameters_withParameters_named (name : String) (pairs : List (String × String)) :
    ((named name).withParameters pairs).parameters = .ofList pairs := by
  rw [withParameters_eq]
  rfl

/-- A stage without a label is its name with its parameters, one after the other. -/
theorem Stage.eq_withParameters {s : Stage} (unlabelled : s.label = none) :
    s = (named s.name).withParameters s.parameters.entries := by
  obtain ⟨name, label, parameters⟩ := s
  cases unlabelled
  rw [withParameters_eq]
  have same : parameters = .ofList parameters.entries :=
    OrderedMap.collects_iff.mp parameters.collects_entries
  exact congrArg (Stage.mk name none) same

/-- A stage without a label is written as its name and something more. -/
theorem Stage.exists_render_eq {s : Stage} (unlabelled : s.label = none) :
    ∃ more, s.render = s.name ++ more :=
  ⟨String.join (s.parameters.entries.map fun e => renderParameter e.1 e.2), by
    simp [render, unlabelled]⟩

namespace Pipeline

variable {detail n : Nat} {front : List Stage} {last s : Stage}

/-- The stages before the last one are a pipeline, of which the last stage has output. -/
theorem init (pipeline : Pipeline ctx (front ++ [s]) last) :
    Pipeline ctx front s ∧ s.PassesOn ctx (.unfed front.length) := by
  have final := pipeline.feeding front.length s List.getElem?_concat_length
  refine ⟨⟨fun i u at_ => ?_, final.1⟩, final.2⟩
  have inside : i < front.length := (List.getElem?_eq_some_iff.mp at_).1
  exact pipeline.feeding i u (by rw [List.getElem?_append_left inside, at_])

/-- The parameters of the last stage are written one after the other. -/
theorem reachedIn_parameters {pairs : List (String × String)}
    (reached : ReachedIn ctx detail n (piped front (.named name)).render)
    (pipeline : Pipeline ctx front (.named name))
    (found : ctx.findModule name (.unfed front.length) = some r)
    (nodup : (pairs.map Prod.fst).Nodup) (keys : ∀ e ∈ pairs, isName e.1.toList = true)
    (offers : ∀ e ∈ pairs, ctx.collaborators.Offers r e.1 e.2)
    (small : (piped front ((Stage.named name).withParameters pairs)).render.utf8ByteSize ≤
      Span.limit) :
    Pipeline ctx front ((Stage.named name).withParameters pairs) ∧
      ReachedIn ctx detail (n + 2 * pairs.length)
        (piped front ((Stage.named name).withParameters pairs)).render := by
  induction pairs using List.reverseRecOn with
  | nil => exact ⟨pipeline, reached⟩
  | append_singleton pairs e ih =>
      rw [List.map_append, List.nodup_append] at nodup
      have fresh : ((Stage.named name).withParameters pairs).hasParameter e.1 = false := by
        rw [Stage.hasParameter, Stage.parameters_withParameters_named, Bool.eq_false_iff, ne_eq,
          OrderedMap.contains_iff_mem_keys, OrderedMap.keys, OrderedMap.entries_ofList nodup.1]
        exact fun known => nodup.2.2 e.1 known e.1 (by simp) rfl
      have found' : ctx.findModule ((Stage.named name).withParameters pairs).name
          (.unfed front.length) = some r := by
        rw [Stage.withParameters_eq]
        exact found
      rw [Stage.withParameters_concat] at small ⊢
      have shorter : (piped front ((Stage.named name).withParameters pairs)).render.utf8ByteSize ≤
          Span.limit := by
        rw [render_piped_withParameter e.2 fresh, awaitingValue] at small
        simp only [String.utf8ByteSize_append] at small
        omega
      obtain ⟨written, reached'⟩ := ih nodup.1 (fun e' member => keys e' (by simp [member]))
        (fun e' member => offers e' (by simp [member])) shorter
      have isName := keys e (by simp)
      have offered := offers e (by simp)
      refine ⟨written.replace (written.ending.withParameter isName fresh found' offered), ?_⟩
      have count : n + 2 * (pairs ++ [e]).length = n + 2 * pairs.length + 2 := by
        simp only [List.length_append, List.length_singleton]
        omega
      rw [count]
      exact reached'.parameter written isName fresh found' offered small

/-- The last stage is written when its name is. -/
theorem reachedIn_last (pipeline : Pipeline ctx front last)
    (small : (piped front last).render.utf8ByteSize ≤ Span.limit)
    (reached : (piped front (.named last.name)).render.utf8ByteSize ≤ Span.limit →
      ReachedIn ctx detail n (piped front (.named last.name)).render) :
    ReachedIn ctx detail (n + 2 * last.parameters.size) (piped front last).render := by
  obtain ⟨r, found, offers⟩ := pipeline.ending.found
  have bare : Pipeline ctx front (.named last.name) :=
    pipeline.replace ⟨rfl, pipeline.ending.name, by simp [Stage.named, OrderedMap.keys, OrderedMap.empty],
      r, found, by simp [Stage.named, OrderedMap.empty]⟩
  have shorter : (piped front (.named last.name)).render.utf8ByteSize ≤ Span.limit := by
    obtain ⟨more, text⟩ := Stage.exists_render_eq pipeline.ending.label
    rw [render_piped, text, ← String.append_assoc] at small
    rw [render_piped, Stage.render_named]
    rw [String.utf8ByteSize_append] at small
    omega
  have keys : ∀ e ∈ last.parameters.entries, isName e.1.toList = true := fun e member =>
    pipeline.ending.keys e.1 (List.mem_map_of_mem member)
  have whole := Stage.eq_withParameters pipeline.ending.label
  have written := (reachedIn_parameters (reached shorter) bare found last.parameters.nodup_keys
    keys offers (whole ▸ small)).2
  rwa [← whole] at written

/-- Every pipeline is reached, in one step for each stage and two for each parameter. -/
theorem reachedIn (faithful : ctx.collaborators.catalog.Faithful) (detail : Nat)
    (pipeline : Pipeline ctx front last)
    (small : (piped front last).render.utf8ByteSize ≤ Span.limit) :
    ReachedIn ctx detail ((piped front last).stages.length +
      2 * ((piped front last).stages.map fun s => s.parameters.size).sum)
      (piped front last).render := by
  induction front using List.reverseRecOn generalizing last with
  | nil =>
      obtain ⟨r, found, -⟩ := pipeline.ending.found
      have text : (piped [] (.named last.name)).render = last.name := by
        rw [render_piped, Stage.render_named]
        simp [feed]
      have first : (piped [] (.named last.name)).render.utf8ByteSize ≤ Span.limit →
          ReachedIn ctx detail 1 (piped [] (.named last.name)).render := by
        rw [text]
        exact ReachedIn.first faithful found
      simpa [piped] using pipeline.reachedIn_last small first
  | append_singleton front s ih =>
      obtain ⟨before, output⟩ := pipeline.init
      obtain ⟨r, found, -⟩ := pipeline.ending.found
      have downstream : Position.unfed (front ++ [s]).length = .downstream := by
        simp [Position.unfed]
      rw [downstream] at found
      have shorter : (piped front s).render.utf8ByteSize ≤ Span.limit := by
        rw [render_piped, feed_concat] at small
        rw [render_piped]
        simp only [String.utf8ByteSize_append] at small ⊢
        omega
      have written := pipeline.reachedIn_last small fun small' =>
        (ih before shorter).next faithful before output found small'
      have count : (piped front s).stages.length +
            2 * ((piped front s).stages.map fun s => s.parameters.size).sum + 1 +
            2 * last.parameters.size =
          (piped (front ++ [s]) last).stages.length +
            2 * ((piped (front ++ [s]) last).stages.map fun s => s.parameters.size).sum := by
        simp [piped]
        omega
      rwa [count] at written

end Pipeline

/-- Stages that are found where they stand, with the names that completion deals with, are a
pipeline. -/
theorem Pipeline.of_stages (named : ctx.collaborators.Named)
    (faithful : ctx.collaborators.catalog.Faithful) {front : List Stage} {last : Stage}
    (stages : ∀ (i : Nat) (s : Stage), (front ++ [last])[i]? = some s →
      s.label = none ∧ ∃ r, ctx.findModule s.name (.unfed i) = some r ∧
        (i + 1 < (front ++ [last]).length → r.type.hasOutput = true) ∧
        ∀ e ∈ s.parameters.entries, ctx.collaborators.Offers r e.1 e.2) :
    Pipeline ctx front last := by
  have offered : ∀ (i : Nat) (s : Stage), (front ++ [last])[i]? = some s →
      s.Offered ctx (.unfed i) := by
    intro i s at_
    obtain ⟨unlabelled, r, found, -, offers⟩ := stages i s at_
    obtain ⟨usable, isName⟩ := Context.mem_registrationsAt_of_findModule faithful found
    refine ⟨unlabelled, ?_, ?_, r, found, offers⟩
    · rw [← isName]
      exact named.modules r (Context.mem_registrationsAt.mp usable).2
    · intro k member
      obtain ⟨e, entry, rfl⟩ := List.mem_map.mp member
      obtain ⟨properties, ⟨artifact, -, listed⟩, property, declared, -⟩ := offers e entry
      have same : property.id = e.1 := by simpa using List.find?_some declared
      rw [← same]
      exact named.properties artifact properties listed property
        (List.mem_of_find?_eq_some declared)
  refine ⟨fun i s at_ => ?_, offered front.length last List.getElem?_concat_length⟩
  have inside : i < front.length := (List.getElem?_eq_some_iff.mp at_).1
  have at' : (front ++ [last])[i]? = some s := by rw [List.getElem?_append_left inside, at_]
  obtain ⟨-, r, found, output, -⟩ := stages i s at'
  exact ⟨offered i s at', r, found, output (by simpa using inside)⟩

/-- Completion is complete. A stream without labels and destinations, whose stages are found where
they stand, all but the last with output, and whose parameters have values that the properties of
their modules offer, is reached from nothing: its canonical text takes one accepted proposal for
each stage and two for each parameter. -/
theorem render_reachedIn (named : ctx.collaborators.Named)
    (faithful : ctx.collaborators.catalog.Faithful) (detail : Nat) {t : Topology}
    (unfed : t.source = none) (unbound : t.sink = none) (nonempty : t.stages ≠ [])
    (stages : ∀ (i : Nat) (stage : Stage), t.stages[i]? = some stage →
      stage.label = none ∧ ∃ r, ctx.findModule stage.name (.of t i) = some r ∧
        (i + 1 < t.stages.length → r.type.hasOutput = true) ∧
        ∀ e ∈ stage.parameters.entries, ctx.collaborators.Offers r e.1 e.2)
    (small : t.render.utf8ByteSize ≤ Span.limit) :
    ReachedIn ctx detail
      (t.stages.length + 2 * (t.stages.map fun s => s.parameters.size).sum) t.render := by
  obtain ⟨source, all, sink⟩ := t
  cases unfed
  cases unbound
  rcases List.eq_nil_or_concat all with none | ⟨front, last, rfl⟩
  · exact absurd none nonempty
  · rw [List.concat_eq_append] at stages small ⊢
    simp only [Position.of_eq_unfed] at stages
    exact (Pipeline.of_stages named faithful stages).reachedIn faithful detail small

/-- A source with a quoted value feeds a sink, in four steps. -/
theorem render_reachedIn_time :
    ReachedIn sampleContext 2 4 "time --format='it''s' | log" := by
  let t : Topology :=
    ⟨none, [(Stage.named "time").withParameter "format" "it's", .named "log"], none⟩
  have stages : ∀ (i : Nat) (stage : Stage), t.stages[i]? = some stage →
      stage.label = none ∧ ∃ r, sampleContext.findModule stage.name (.of t i) = some r ∧
        (i + 1 < t.stages.length → r.type.hasOutput = true) ∧
        ∀ e ∈ stage.parameters.entries, sampleContext.collaborators.Offers r e.1 e.2 := by
    intro i stage at_
    rcases i with _ | _ | i
    · cases at_
      refine ⟨rfl, ⟨.source, "time", .plain "org" "time" "1"⟩, by decide, fun _ => rfl, ?_⟩
      intro e member
      cases List.mem_singleton.mp member
      exact ⟨_, ⟨_, rfl, rfl⟩, _, rfl, Or.inl (by decide)⟩
    · cases at_
      exact ⟨rfl, ⟨.sink, "log", .plain "org" "log" "1"⟩, by decide, by decide, nofun⟩
    · cases at_
  have text : t.render = "time --format='it''s' | log" := by decide
  have reached := render_reachedIn named_sampleContext (Registry.faithful_catalog _) 2 (t := t) rfl
    rfl (List.cons_ne_nil _ _) stages (by rw [text]; decide)
  rw [text] at reached
  exact reached

end StreamLang
