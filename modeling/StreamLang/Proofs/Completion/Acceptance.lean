import StreamLang.Proofs.Completion.Proposals
import StreamLang.Proofs.Stream.Continuation

/-!
Accepting proposals, starting from nothing.

Every text that is reached is empty, the canonical text of a `Pipeline`, or such a text with an
option that waits for its value (`Typed`). Accepting any proposal for one of these texts leads to
another (`Typed.accept`), and so any number of them does (`Accepted.typed`).
-/

namespace StreamLang

/-! ## Options that wait for a value -/

/-- The text of a topology with an option that waits for its value. -/
def awaitingValue (t : Topology) (key : String) : String :=
  t.render ++ " --" ++ key ++ "="

/-- Such a text fails at its end, where the grammar asks for a value. The failure keeps the topology
and the name of the option. -/
theorem exists_failure_of_awaitingValue {t : Topology} (good : t.WellFormed)
    (unbound : t.sink = none) {key : String} (isName : isName key.toList = true)
    (small : (awaitingValue t key).utf8ByteSize ≤ Span.limit) :
    ∃ e, Topology.parse (awaitingValue t key) = .error e ∧ e.expectation = .value ∧
      e.atEnd = true ∧ e.typed? = some t ∧ ∃ name, e.lastName? = some name ∧ name.text = key := by
  obtain ⟨e, fails, expects, atEnd, ⟨dashes, name, equals, pending, isDashes, isKey, text, isEquals⟩,
    typed⟩ := awaitsValue_append_option good.parse_render unbound isName small
  refine ⟨e, fails, expects, atEnd, typed, name, ?_, text⟩
  simp [ParseFailure.lastName?, pending, isKey, isEquals]

/-! ## Pipelines -/

/-- Whether a value is one of those that the first declared property of the key offers. -/
def Collaborators.Offers (c : Collaborators) (r : Registration) (key value : String) : Prop :=
  ∃ properties, c.Declares r properties ∧
    ∃ property, properties.find? (fun p => p.id == key) = some property ∧
      (value ∈ property.valueHints ∨
        property.valueHints = [] ∧ property.defaultValue = some value)

/-- The position of a stage in a stream that no destination feeds. -/
def Position.unfed (index : Nat) : Position :=
  if index = 0 then .first else .downstream

theorem Position.of_eq_unfed {t : Topology} (unfed : t.source = none) (index : Nat) :
    Position.of t index = .unfed index := by
  simp [Position.of, Position.unfed, unfed]

/-- A stage without a label whose module is found at its position, and whose parameters are offered
there. -/
structure Stage.Offered (ctx : Context) (position : Position) (s : Stage) : Prop where
  label : s.label = none
  name : isName s.name.toList = true
  keys : ∀ k ∈ s.parameters.keys, isName k.toList = true
  found : ∃ r, ctx.findModule s.name position = some r ∧
    ∀ e ∈ s.parameters.entries, ctx.collaborators.Offers r e.1 e.2

/-- Whether the module found for a stage has output. -/
def Stage.PassesOn (ctx : Context) (position : Position) (s : Stage) : Prop :=
  ∃ r, ctx.findModule s.name position = some r ∧ r.type.hasOutput = true

/-- Stages that are offered where they stand, all but the last of them with output. -/
structure Pipeline (ctx : Context) (front : List Stage) (last : Stage) : Prop where
  feeding : ∀ (i : Nat) (s : Stage), front[i]? = some s →
    s.Offered ctx (.unfed i) ∧ s.PassesOn ctx (.unfed i)
  ending : last.Offered ctx (.unfed front.length)

/-- The topology of stages between no destinations. -/
def piped (front : List Stage) (last : Stage) : Topology :=
  ⟨none, front ++ [last], none⟩

variable {ctx : Context} {front : List Stage} {last : Stage}

theorem last?_piped : (piped front last).last? = some last := by
  simp [piped, Topology.last?]

theorem lastPosition_piped : (piped front last).lastPosition = .unfed front.length := by
  rw [Topology.lastPosition, Position.of_eq_unfed rfl]
  simp [piped]

namespace Pipeline

/-- Any stage offered at the last position may take the place of the last stage. -/
theorem replace (pipeline : Pipeline ctx front last) {s : Stage}
    (offered : s.Offered ctx (.unfed front.length)) : Pipeline ctx front s :=
  ⟨pipeline.feeding, offered⟩

/-- A stage with output may be followed by a stage that is offered after it. -/
theorem concat (pipeline : Pipeline ctx front last)
    (output : last.PassesOn ctx (.unfed front.length)) {s : Stage}
    (offered : s.Offered ctx .downstream) : Pipeline ctx (front ++ [last]) s := by
  constructor
  · intro i u at_
    rcases Nat.lt_trichotomy i front.length with inside | rfl | outside
    · rw [List.getElem?_append_left inside] at at_
      exact pipeline.feeding i u at_
    · rw [List.getElem?_concat_length] at at_
      cases at_
      exact ⟨pipeline.ending, output⟩
    · rw [List.getElem?_eq_none (by simp; omega)] at at_
      cases at_
  · have position : Position.unfed (front ++ [last]).length = .downstream := by
      simp [Position.unfed]
    rw [position]
    exact offered

theorem wellFormed (pipeline : Pipeline ctx front last) : (piped front last).WellFormed := by
  refine ⟨by simp [piped], fun s member => ?_, by simp [piped], by simp [piped]⟩
  have offered : ∃ position, s.Offered ctx position := by
    rcases List.mem_append.mp member with inside | final
    · obtain ⟨i, at_⟩ := List.mem_iff_getElem?.mp inside
      exact ⟨_, (pipeline.feeding i s at_).1⟩
    · cases List.mem_singleton.mp final
      exact ⟨_, pipeline.ending⟩
  obtain ⟨position, offered⟩ := offered
  exact ⟨offered.name, by simp [offered.label], offered.keys⟩

end Pipeline

/-! ## Texts of pipelines -/

/-- The canonical text before the last stage. -/
def feed (front : List Stage) : String :=
  String.join (front.map fun s => s.render ++ " | ")

theorem render_piped (front : List Stage) (last : Stage) :
    (piped front last).render = feed front ++ last.render := by
  have stages : " | ".intercalate ((front ++ [last]).map Stage.render) =
      feed front ++ last.render := by
    induction front with
    | nil => simp [feed]
    | cons s front ih =>
        have more : (front ++ [last]).map Stage.render ≠ [] := by simp
        rw [List.cons_append, List.map_cons, String.intercalate_cons_of_ne_nil more, ih]
        simp [feed, String.append_assoc]
  rw [Topology.render, piped, stages]
  simp

theorem feed_concat (front : List Stage) (s : Stage) :
    feed (front ++ [s]) = feed front ++ s.render ++ " | " := by
  simp [feed, String.append_assoc]

theorem Stage.render_named (name : String) : (Stage.named name).render = name := by
  simp [render, named, OrderedMap.empty]

/-- A stage without label and parameters is written as its name. -/
theorem Stage.render_of_isEmpty {s : Stage} (label : s.label = none)
    (empty : s.parameters.isEmpty = true) : s.render = s.name := by
  have none : s.parameters.entries = [] := by
    simpa [OrderedMap.isEmpty] using empty
  simp [render, label, none]

/-- A new parameter is written after the others. -/
theorem Stage.render_withParameter {s : Stage} {key : String} (value : String)
    (fresh : s.hasParameter key = false) :
    (s.withParameter key value).render = s.render ++ renderParameter key value := by
  have entries : (s.withParameter key value).parameters.entries =
      s.parameters.entries ++ [(key, value)] :=
    OrderedMap.entries_insert_of_not_contains fresh
  simp only [render, entries, List.map_append, String.join_append]
  simp [withParameter, String.append_assoc]

theorem render_piped_withParameter {key : String} (value : String)
    (fresh : last.hasParameter key = false) :
    (piped front (last.withParameter key value)).render =
      awaitingValue (piped front last) key ++ Value.render value := by
  rw [render_piped, Stage.render_withParameter value fresh, awaitingValue, render_piped]
  simp [Stage.renderParameter, String.append_assoc]

/-! ## Ends of texts -/

theorem Text.endsBlank_append {text ending : String} (some : ending ≠ "") :
    endsBlank (text ++ ending) = endsBlank ending := by
  have chars : ending.toList ≠ [] := by simpa using some
  rw [endsBlank, endsBlank, String.toList_append, List.getLast?_append_of_ne_nil _ chars]

theorem Text.not_endsBlank_of_bare {text : String} (bare : ∀ c ∈ text.toList, isBare c = true) :
    endsBlank text = false := by
  rw [endsBlank, Option.any_eq_false]
  intro c last
  have visible := bare c (List.mem_of_getLast? last)
  simp only [isBare, Bool.not_eq_true', Bool.or_eq_false_iff] at visible
  simp [visible.1]

theorem Text.not_endsBlank_of_isName {name : String} (isName : isName name.toList = true) :
    endsBlank name = false :=
  not_endsBlank_of_bare fun c member => isBare_of_isNameChar (isNameChar_of_isName isName c member)

theorem Text.ne_empty_of_isName {name : String} (isName : isName name.toList = true) :
    name ≠ "" := by
  simpa using ne_nil_of_isName isName

/-- A value is written as at least one character, of which the last is no blank. -/
theorem Value.not_endsBlank_render (value : String) :
    render value ≠ "" ∧ Text.endsBlank (render value) = false := by
  rw [render]
  split
  · next bare =>
      cases chars : value.toList with
      | nil =>
          rw [chars] at bare
          cases bare
      | cons c cs =>
          simp only [chars, isBareText, isBareStart, Bool.and_eq_true, List.all_eq_true] at bare
          refine ⟨?_, Text.not_endsBlank_of_bare fun d member => ?_⟩
          · rintro rfl
            cases chars
          · rw [chars] at member
            rcases List.mem_cons.mp member with rfl | later
            · exact bare.1.1.1.1
            · exact bare.1.2 d later
  · constructor
    · rw [← String.ofList_nil, ne_eq, String.ofList_inj]
      exact List.cons_ne_nil _ _
    · rw [Text.endsBlank, String.toList_ofList, List.getLast?_concat]
      rfl

/-- The canonical text of an offered stage ends in no blank. -/
theorem Stage.Offered.not_endsBlank_render {position : Position} {s : Stage}
    (offered : s.Offered ctx position) : s.render ≠ "" ∧ Text.endsBlank s.render = false := by
  have name : s.name ≠ "" := Text.ne_empty_of_isName offered.name
  have text : s.render =
      s.name ++ String.join (s.parameters.entries.map fun e => renderParameter e.1 e.2) := by
    simp [render, offered.label]
  rcases List.eq_nil_or_concat s.parameters.entries with none | ⟨entries, e, some⟩
  · rw [text, none]
    simp only [List.map_nil, String.join_nil, String.append_empty]
    exact ⟨name, Text.not_endsBlank_of_isName offered.name⟩
  · obtain ⟨shown, visible⟩ := Value.not_endsBlank_render e.2
    have split : s.render = s.name ++
        String.join (entries.map fun e => renderParameter e.1 e.2) ++ (" --" ++ e.1 ++ "=") ++
          Value.render e.2 := by
      rw [text, some]
      simp [renderParameter, String.append_assoc]
    rw [split, Text.endsBlank_append shown]
    exact ⟨by simp [name], visible⟩

theorem Pipeline.not_endsBlank_render (pipeline : Pipeline ctx front last) :
    Text.endsBlank (piped front last).render = false := by
  obtain ⟨shown, visible⟩ := pipeline.ending.not_endsBlank_render
  rw [render_piped, Text.endsBlank_append shown, visible]

theorem not_endsBlank_awaitingValue (t : Topology) (key : String) :
    Text.endsBlank (awaitingValue t key) = false := by
  rw [awaitingValue, Text.endsBlank_append (by decide)]
  rfl

/-! ## One accepted proposal -/

/-- A text that accepting proposals leads to: nothing, a pipeline, or a pipeline with an option that
is not given yet and waits for its value. -/
inductive Typed (ctx : Context) : String → Prop
  | nothing : Typed ctx ""
  | stream {front : List Stage} {last : Stage} : Pipeline ctx front last →
    Typed ctx (piped front last).render
  | option {front : List Stage} {last : Stage} {key : String} : Pipeline ctx front last →
    isName key.toList = true → last.hasParameter key = false →
    Typed ctx (awaitingValue (piped front last) key)

/-- The names that completion deals with: those of modules, and those of their properties. -/
structure Collaborators.Named (c : Collaborators) : Prop where
  modules : ∀ r ∈ c.catalog.all, isName r.name.toList = true
  properties : ∀ artifact properties, c.listProperties artifact = .ok properties →
    ∀ p ∈ properties, isName p.id.toList = true

variable (named : ctx.collaborators.Named) (consistent : ctx.collaborators.catalog.Consistent)

include named consistent in
/-- A module that is usable at a position makes a stage that is offered there. -/
theorem Stage.offered_named {position : Position} {r : Registration}
    (usable : r ∈ ctx.registrationsAt position) : (Stage.named r.name).Offered ctx position := by
  obtain ⟨found, isFound⟩ := Context.exists_findModule_of_mem_registrationsAt consistent usable
  exact ⟨rfl, Context.isName_of_mem_registrationsAt named.modules usable, by
    simp [Stage.named, OrderedMap.keys, OrderedMap.empty], found, isFound, by
    simp [Stage.named, OrderedMap.empty]⟩

/-- A stage may be given a value that the property of its module offers. -/
theorem Stage.Offered.withParameter {position : Position} {s : Stage} {r : Registration}
    {key value : String} (offered : s.Offered ctx position) (isName : isName key.toList = true)
    (fresh : s.hasParameter key = false) (found : ctx.findModule s.name position = some r)
    (offers : ctx.collaborators.Offers r key value) :
    (s.withParameter key value).Offered ctx position := by
  have entries : (s.withParameter key value).parameters.entries =
      s.parameters.entries ++ [(key, value)] :=
    OrderedMap.entries_insert_of_not_contains fresh
  refine ⟨offered.label, offered.name, ?_, ?_⟩
  · intro k member
    rw [OrderedMap.keys, entries, List.map_append] at member
    rcases List.mem_append.mp member with given | new
    · exact offered.keys k given
    · cases List.mem_singleton.mp new
      exact isName
  · obtain ⟨r', found', values⟩ := offered.found
    rw [found] at found'
    cases found'
    refine ⟨r, found, fun e member => ?_⟩
    rw [entries] at member
    rcases List.mem_append.mp member with given | new
    · exact values e given
    · cases List.mem_singleton.mp new
      exact offers

section Accepting

variable {detail : Nat} {p : Proposal}

/-- The proposals for a text with the usual strategies. -/
def proposalsFor (ctx : Context) (text : String) (detail : Nat) : List Proposal :=
  ((Engine.standard ctx.precedence).complete ctx.collaborators text detail).value

include named consistent in
/-- From nothing a proposal leads to one stage. -/
theorem Typed.accept_nothing (member : p ∈ proposalsFor ctx "" detail) : Typed ctx p.text := by
  obtain ⟨e, fails, expectation, position⟩ : ∃ e, Topology.parse "" = .error e ∧
      e.expectation = .moduleName ∧ Recovery.awaitedPosition "" e = .first := ⟨_, rfl, rfl, rfl⟩
  obtain ⟨r, selected, proposed⟩ := Engine.exists_recovery_of_mem_complete fails member
  have recovery : r = .moduleName :=
    Recovery.eq_of_handles_eq ((Recovery.handles_of_select selected).trans expectation)
  subst recovery
  simp only [Recovery.proposals] at proposed
  split at proposed
  · cases proposed
  · obtain ⟨m, usable, shown⟩ := Recovery.mem_ofModuleName proposed
    rw [position] at usable
    have pipeline : Pipeline ctx [] (Stage.named m.name) :=
      ⟨by simp, Stage.offered_named named consistent usable⟩
    have text : p.text = (piped [] (Stage.named m.name)).render := by
      rw [shown, render_piped, Stage.render_named]
      simp [Recovery.separator, feed]
    rw [text]
    exact .stream pipeline

include named consistent in
/-- From a pipeline a proposal leads to another name for its last stage, to an option of that stage,
or to one more stage. -/
theorem Typed.accept_stream (pipeline : Pipeline ctx front last)
    (member : p ∈ proposalsFor ctx (piped front last).render detail) : Typed ctx p.text := by
  obtain ⟨x, -, proposed⟩ :=
    Engine.exists_expansion_of_mem_complete pipeline.wellFormed.parse_render member
  obtain ⟨s, isLast, origin⟩ := Expansion.origin_of_mem_proposals proposed
  rw [last?_piped] at isLast
  cases isLast
  have base : Text.trimEnd (piped front last).render = (piped front last).render :=
    Text.trimEnd_of_not_endsBlank pipeline.not_endsBlank_render
  cases origin with
  | unfinishedModuleName proposed =>
      obtain ⟨empty, before, text, r, usable, -, shown⟩ := Expansion.mem_ofUnfinishedName proposed
      rw [lastPosition_piped] at usable
      have next := pipeline.replace (Stage.offered_named named consistent usable)
      have same : before = feed front := by
        simp only [render_piped, Stage.render_of_isEmpty pipeline.ending.label empty] at text
        simpa using text.symm
      have text' : p.text = (piped front (Stage.named r.name)).render := by
        rw [shown, render_piped, Stage.render_named, same]
      rw [text']
      exact .stream next
  | moduleOptions proposed =>
      obtain ⟨known, isKnown, property, declared, fresh, shown⟩ := Expansion.mem_ofOptions proposed
      obtain ⟨isLast, -, artifact, -, listed⟩ := Context.value_lastStage_eq_some_iff.mp isKnown
      rw [last?_piped] at isLast
      cases isLast
      have text : p.text = awaitingValue (piped front known.stage) property.id := by
        rw [shown, Request.base, base, awaitingValue]
      rw [text]
      exact .option pipeline (named.properties artifact _ listed property declared) fresh
  | pipe proposed =>
      obtain ⟨r, found, output, next, usable, shown⟩ := Expansion.mem_ofPipe proposed
      rw [lastPosition_piped] at found
      have longer := pipeline.concat ⟨r, found, output⟩
        (Stage.offered_named named consistent usable)
      have text : p.text = (piped (front ++ [last]) (Stage.named next.name)).render := by
        rw [shown, Request.base, base, render_piped, render_piped, feed_concat, Stage.render_named]
      rw [text]
      exact .stream longer

/-- From an option that waits for its value a proposal leads to the stage with the value. -/
theorem Typed.accept_option {key : String} (pipeline : Pipeline ctx front last)
    (isName : isName key.toList = true) (fresh : last.hasParameter key = false)
    (small : (awaitingValue (piped front last) key).utf8ByteSize ≤ Span.limit)
    (member : p ∈ proposalsFor ctx (awaitingValue (piped front last) key) detail) :
    Typed ctx p.text := by
  obtain ⟨e, fails, expectation, atEnd, typed, name, lastName, rfl⟩ :=
    exists_failure_of_awaitingValue pipeline.wellFormed rfl isName small
  obtain ⟨r, selected, proposed⟩ := Engine.exists_recovery_of_mem_complete fails member
  have recovery : r = .propertyValue :=
    Recovery.eq_of_handles_eq ((Recovery.handles_of_select selected).trans expectation)
  subst recovery
  rw [Recovery.proposals_of_atEnd atEnd] at proposed
  obtain ⟨name', t, known, lastName', typed', isKnown, property, declared, value, offered, shown⟩ :=
    Recovery.mem_ofValue proposed
  rw [lastName] at lastName'
  cases lastName'
  rw [typed] at typed'
  cases typed'
  obtain ⟨isLast, found, declares⟩ := Context.value_lastStage_eq_some_iff.mp isKnown
  rw [last?_piped] at isLast
  cases isLast
  rw [lastPosition_piped] at found
  have offers : ctx.collaborators.Offers known.registration name.text value :=
    ⟨known.properties, declares, property, declared, Property.mem_proposedValues.mp offered⟩
  have next := pipeline.replace (pipeline.ending.withParameter isName fresh found offers)
  have base := Text.trimEnd_of_not_endsBlank
    (not_endsBlank_awaitingValue (piped front known.stage) name.text)
  have text : p.text = (piped front (known.stage.withParameter name.text value)).render := by
    rw [shown, Request.base, base, render_piped_withParameter value fresh]
  rw [text]
  exact .stream next

include named consistent in
/-- Accepting a proposal for a typed text leads to a typed text. -/
theorem Typed.accept {text : String} (typed : Typed ctx text)
    (small : text.utf8ByteSize ≤ Span.limit) (member : p ∈ proposalsFor ctx text detail) :
    Typed ctx p.text := by
  cases typed with
  | nothing => exact Typed.accept_nothing named consistent member
  | stream pipeline => exact Typed.accept_stream named consistent pipeline member
  | option pipeline isName fresh => exact Typed.accept_option pipeline isName fresh small member

end Accepting

/-! ## Any number of accepted proposals -/

/-- The texts within the limit of spans that accepting proposals leads to, starting from nothing. -/
inductive Accepted (ctx : Context) : String → Prop
  | nothing : Accepted ctx ""
  | accept {text : String} {detail : Nat} {p : Proposal} : Accepted ctx text →
    p ∈ proposalsFor ctx text detail → p.text.utf8ByteSize ≤ Span.limit → Accepted ctx p.text

variable {text : String}

theorem Accepted.small (accepted : Accepted ctx text) : text.utf8ByteSize ≤ Span.limit := by
  cases accepted with
  | nothing => exact Nat.zero_le _
  | accept _ _ small => exact small

include named consistent in
theorem Accepted.typed (accepted : Accepted ctx text) : Typed ctx text := by
  induction accepted with
  | nothing => exact .nothing
  | accept before member _ ih => exact ih.accept named consistent before.small member

/-- Every stage of a pipeline is found where it stands, with output when another follows, and its
parameters are offered there. -/
theorem Pipeline.stage (pipeline : Pipeline ctx front last) {i : Nat} {s : Stage}
    (at_ : (piped front last).stages[i]? = some s) :
    s.label = none ∧ ∃ r, ctx.findModule s.name (.of (piped front last) i) = some r ∧
      (i + 1 < (piped front last).stages.length → r.type.hasOutput = true) ∧
      ∀ e ∈ s.parameters.entries, ctx.collaborators.Offers r e.1 e.2 := by
  rw [Position.of_eq_unfed rfl]
  simp only [piped] at at_ ⊢
  rcases Nat.lt_or_ge i front.length with inside | outside
  · rw [List.getElem?_append_left inside] at at_
    obtain ⟨offered, r, found, output⟩ := pipeline.feeding i s at_
    obtain ⟨r', found', values⟩ := offered.found
    rw [found] at found'
    cases found'
    exact ⟨offered.label, r, found, fun _ => output, values⟩
  · have final : i = front.length := by
      have bound := (List.getElem?_eq_some_iff.mp at_).1
      simp only [List.length_append, List.length_singleton] at bound
      omega
    subst final
    rw [List.getElem?_concat_length] at at_
    cases at_
    obtain ⟨r, found, values⟩ := pipeline.ending.found
    refine ⟨pipeline.ending.label, r, found, fun more => ?_, values⟩
    simp at more

/-- Accepting proposals, starting from nothing, leads to nothing, to a stream, or to a text that
ends where the grammar asks for a value. A stream that is reached is in canonical form and has
neither labels nor destinations. Its stages are found where they stand, all but the last with
output, and their parameters have values that the properties of their modules offer. -/
theorem accepted_proposals (named : ctx.collaborators.Named)
    (consistent : ctx.collaborators.catalog.Consistent) (accepted : Accepted ctx text)
    (name : String) :
    (text = "" ∨ (∃ s, Stream.parse name text = .ok s) ∨
      ∃ e, Stream.parse name text = .error e ∧ e.expectation = .value ∧ e.atEnd = true) ∧
    ∀ s, Stream.parse name text = .ok s →
      text = s.render ∧ s.source = none ∧ s.sink = none ∧
      ∀ (i : Nat) (stage : Stage), s.stages[i]? = some stage →
        stage.label = none ∧ ∃ r, ctx.findModule stage.name (.of s.toTopology i) = some r ∧
          (i + 1 < s.stages.length → r.type.hasOutput = true) ∧
          ∀ e ∈ stage.parameters.entries, ctx.collaborators.Offers r e.1 e.2 := by
  have small := accepted.small
  cases accepted.typed named consistent with
  | nothing =>
      refine ⟨Or.inl rfl, fun s parsed => ?_⟩
      cases (streamParse_eq_ok_iff.mp parsed).1
  | @stream front last pipeline =>
      have parses := pipeline.wellFormed.parse_render
      refine ⟨Or.inr (Or.inl (exists_streamParse_iff.mpr ⟨_, parses⟩)), ?_⟩
      rintro ⟨t, _, _⟩ parsed
      have same := (streamParse_eq_ok_iff.mp parsed).1
      rw [parses] at same
      cases same
      exact ⟨rfl, rfl, rfl, fun i stage at_ => pipeline.stage at_⟩
  | @option front last key pipeline isName fresh =>
      obtain ⟨e, fails, expectation, atEnd, -⟩ :=
        exists_failure_of_awaitingValue pipeline.wellFormed rfl isName small
      refine ⟨Or.inr (Or.inr ⟨e, streamParse_eq_error_iff.mpr fails, expectation, atEnd⟩),
        fun s parsed => ?_⟩
      rw [streamParse_eq_ok_iff, fails] at parsed
      cases parsed.1

/-- A source and a sink, which declare one property with one hint. -/
def sampleContext : Context where
  collaborators := {
    catalog := Registry.catalog ⟨.ofList [((.source, "time"), .plain "org" "time" "1"),
      ((.sink, "log"), .plain "org" "log" "1")]⟩
    resolve := fun coordinates => .ok ⟨coordinates, coordinates.fileName⟩
    listProperties := fun _ => .ok [⟨"format", "", "", none, ["it's"]⟩] }
  precedence := ModuleType.all

theorem named_sampleContext : sampleContext.collaborators.Named := by
  constructor
  · decide
  · intro artifact properties listed p member
    cases listed
    cases List.mem_singleton.mp member
    decide

/-- A module, an option, its value and another module, accepted one after the other. -/
theorem accepted_proposals_time :
    Accepted sampleContext "time --format='it''s' | log" ∧
      ∃ s, Stream.parse "" "time --format='it''s' | log" = .ok s ∧
        s.render = "time --format='it''s' | log" := by
  have first : ⟨"time", .addition, "source module"⟩ ∈ proposalsFor sampleContext "" 1 := by decide
  have option : ⟨"time --format=", .addition, ""⟩ ∈ proposalsFor sampleContext "time" 1 := by
    decide
  have value : ⟨"time --format='it''s'", .expanding, ""⟩ ∈
      proposalsFor sampleContext "time --format=" 1 := by decide
  have pipe : ⟨"time --format='it''s' | log", .addition, "sink module"⟩ ∈
      proposalsFor sampleContext "time --format='it''s'" 1 := by decide
  have accepted : Accepted sampleContext "time --format='it''s' | log" :=
    (((Accepted.nothing.accept first (by decide)).accept option (by decide)).accept value
      (by decide)).accept pipe (by decide)
  obtain ⟨s, parsed⟩ : ∃ s, Stream.parse "" "time --format='it''s' | log" = .ok s := ⟨_, rfl⟩
  obtain ⟨-, reached⟩ :=
    accepted_proposals named_sampleContext (Registry.consistent_catalog _) accepted ""
  exact ⟨accepted, s, parsed, (reached s parsed).1.symm⟩

end StreamLang
