import StreamLang.Proofs.Completion.Locality

/-!
Filling in properties.

A stream, or a stream with dashes after it, takes an option (`TakesOption`). The keys that are
proposed there are those of the properties that the last stage is not given yet
(`TakesOption.proposesKeys`). After a key its values are proposed (`proposalsFor_awaitsValue`), and
with any value the text is a stream again, for which the other keys are proposed
(`TakesOption.fill`). So what is left after some rounds is what was proposed at first without what
has been taken (`FilledIn.left`), and that ends.
-/

namespace StreamLang

/-! ## Parameters -/

theorem Stage.hasParameter_withParameter (s : Stage) (key value id : String) :
    (s.withParameter key value).hasParameter id = (id == key || s.hasParameter id) := by
  simp only [hasParameter, withParameter, OrderedMap.contains, OrderedMap.get?_insert]
  by_cases same : id = key
  · simp [same]
  · simp [same]

/-- Different values are written differently. -/
theorem Value.render_injective {v w : String} (same : render v = render w) : v = w := by
  obtain ⟨kind, -, tokens⟩ := tokensFrom_value v 0
  obtain ⟨kind', -, tokens'⟩ := tokensFrom_value w 0
  rw [same, tokens'] at tokens
  have one := List.cons.inj tokens |>.1
  exact congrArg Token.text one.symm

/-! ## Options among proposals -/

namespace Emitted

variable {q : Request} {p : Proposal}

/-- What is emitted for a property is an option. -/
theorem isOption {property : Property} (emitted : Emitted q (.property property) p) :
    p.isOption = true := by
  cases emitted with
  | afterDashDash => exact Text.endsInEquals_append_equals _
  | unfinishedPropertyName => exact Text.endsInEquals_append_equals _
  | moduleOptions => exact Text.endsInEquals_append_equals _

theorem not_isOption {r : Registration} (named : q.context.collaborators.catalog.Named)
    (emitted : Emitted q (.module r) p) : p.isOption = false := by
  cases emitted with
  | moduleName _ _ _ usable =>
      exact Text.not_endsInEquals_append_name (Context.isName_of_mem_registrationsAt named usable) _
  | unfinishedModuleName _ _ _ _ _ usable =>
      exact Text.not_endsInEquals_append_name (Context.isName_of_mem_registrationsAt named usable) _
  | pipe _ _ _ _ _ usable =>
      exact Text.not_endsInEquals_append_name (Context.isName_of_mem_registrationsAt named usable) _

end Emitted

/-! ## Keys that are proposed -/

/-- Whatever dashes a text ends in, a stream is typed before them. -/
theorem exists_typed_of_propertyName {text : String} {e : ParseFailure}
    (small : text.utf8ByteSize ≤ Span.limit) (fails : Topology.parse text = .error e)
    (atEnd : e.atEnd = true) (expects : e.expectation = .propertyName) :
    ∃ t, e.typed? = some t := by
  obtain ⟨c, all, rfl⟩ := exists_cursor_of_atEnd fails atEnd
  obtain ⟨done, current, state⟩ := PartialStream.eq_dashes_of_expectation expects
  obtain ⟨dashes, within_⟩ := Cursor.within_of_dashes all state
  exact ⟨_, typed?_of_within small all fails within_⟩

/-- A text that an option may be added to: a stream, or a stream and dashes. -/
inductive TakesOption (text : String) (t : Topology) : Prop
  | stream : Topology.parse text = .ok t → t.sink = none → TakesOption text t
  | dashes {e : ParseFailure} : Topology.parse text = .error e → e.atEnd = true →
    e.expectation = .propertyName → e.typed? = some t → TakesOption text t

/-- The text with a key, which is written after dashes of its own when the text is a stream, and
else after those that the text ends in. -/
def Text.withKey (text key : String) : String :=
  (match Topology.parse text with
    | .ok _ => Text.trimEnd text ++ " --"
    | .error _ => Text.trimEnd text) ++ key ++ "="

theorem Text.withKey_injective {text key key' : String}
    (same : withKey text key = withKey text key') : key = key' :=
  (String.append_right_inj _).mp ((String.append_left_inj "=").mp same)

theorem Text.endsInEquals_withKey (text key : String) : endsInEquals (withKey text key) = true :=
  endsInEquals_append_equals _

theorem Text.trimEnd_withKey (text key : String) :
    trimEnd (withKey text key) = withKey text key := by
  apply trimEnd_of_not_endsBlank
  rw [withKey, endsBlank_append (by decide)]
  rfl

/-- The keys for which options are among the proposals for a text, in order. -/
def ProposesKeys (ctx : Context) (text : String) (detail : Nat) (keys : List String) : Prop :=
  ((proposalsFor ctx text detail).filter Proposal.isOption).map Proposal.text =
    keys.map (Text.withKey text)

/-- A key is proposed when its option is. -/
theorem ProposesKeys.mem_iff {ctx : Context} {text : String} {detail : Nat} {keys : List String}
    (proposes : ProposesKeys ctx text detail keys) (key : String) :
    key ∈ keys ↔ ∃ p ∈ proposalsFor ctx text detail, p.text = Text.withKey text key := by
  constructor
  · intro member
    have shown : Text.withKey text key ∈ keys.map (Text.withKey text) := List.mem_map_of_mem member
    rw [← proposes] at shown
    obtain ⟨p, option, text⟩ := List.mem_map.mp shown
    exact ⟨p, (List.mem_filter.mp option).1, text⟩
  · rintro ⟨p, member, shown⟩
    have isOption : p.isOption = true := by
      rw [Proposal.isOption, shown, Text.endsInEquals_withKey]
    have listed := List.mem_map_of_mem (f := Proposal.text)
      (List.mem_filter.mpr ⟨member, isOption⟩)
    rw [proposes, shown] at listed
    obtain ⟨key', member', same⟩ := List.mem_map.mp listed
    exact Text.withKey_injective same ▸ member'

/-- The keys of the properties that the last stage of a stream is not given yet, each once. -/
def Context.openKeys (ctx : Context) (t : Topology) : List String :=
  ((ctx.openProperties t).map Property.id).eraseDups

namespace TakesOption

variable {ctx : Context} {text key : String} {t : Topology} {detail : Nat}

theorem typedIn?_eq (takes : TakesOption text t) : typedIn? text = some t := by
  cases takes with
  | stream parsed => rw [typedIn?, parsed]
  | dashes fails _ _ typed =>
      rw [typedIn?, fails]
      exact typed

theorem exists_last (takes : TakesOption text t) : ∃ last, t.last? = some last := by
  obtain ⟨text', parsed⟩ : ∃ text', Topology.parse text' = .ok t := by
    cases takes with
    | stream parsed => exact ⟨text, parsed⟩
    | @dashes e fails _ _ typed =>
        rw [ParseFailure.typed?] at typed
        split at typed
        · cases typed
        · cases parsed : Topology.parse e.partialText with
          | ok t' =>
              rw [parsed] at typed
              cases typed
              exact ⟨_, parsed⟩
          | error _ =>
              rw [parsed] at typed
              cases typed
  exact ⟨_, List.getLast?_eq_some_getLast (Topology.wellFormed_of_parse parsed).nonempty⟩

/-- Among the proposals made for the open properties one is kept for each key. -/
theorem texts_keepFirst_openProperties {before : String} {kind : ProposalKind}
    (shown : ∀ key, Text.withKey text key = before ++ key ++ "=") :
    (Proposal.keepFirst [] ((ctx.openProperties t).map
      (Request.propertyName ⟨ctx, text, detail⟩ before kind))).map Proposal.text =
        (ctx.openKeys t).map (Text.withKey text) := by
  have texts : ((ctx.openProperties t).map
      (Request.propertyName ⟨ctx, text, detail⟩ before kind)).map Proposal.text =
        ((ctx.openProperties t).map Property.id).map (Text.withKey text) := by
    rw [List.map_map, List.map_map]
    exact List.map_congr_left fun p _ => (shown p.id).symm
  rw [Proposal.texts_keepFirst_nil, texts, eraseDups_map fun _ _ => Text.withKey_injective,
    Context.openKeys]

/-- The keys of the open properties are proposed. -/
theorem proposesKeys (takes : TakesOption text t)
    (named : ctx.collaborators.catalog.Named) (detail : Nat) :
    ProposesKeys ctx text detail (ctx.openKeys t) := by
  let q : Request := ⟨ctx, text, detail⟩
  unfold ProposesKeys
  cases takes with
  | stream parsed unbound =>
      have shown : ∀ key, Text.withKey text key = q.base ++ " --" ++ key ++ "=" := fun key => by
        rw [Text.withKey, parsed]
        rfl
      have options := filter_isOption_proposalsFor (q := q) parsed unbound named
      rw [options, texts_keepFirst_openProperties shown]
  | dashes fails atEnd expects typed =>
      have shown : ∀ key, Text.withKey text key = q.base ++ key ++ "=" := fun key => by
        rw [Text.withKey, fails]
        rfl
      have proposed : proposalsFor ctx text detail = Proposal.keepFirst []
          ((ctx.openProperties t).map (q.propertyName q.base .expanding)) :=
        proposalsFor_of_propertyName (q := q) fails atEnd expects typed
      have options : (proposalsFor ctx text detail).filter Proposal.isOption =
          proposalsFor ctx text detail := by
        rw [List.filter_eq_self, proposed]
        intro p member
        obtain ⟨property, -, rfl⟩ := List.mem_map.mp (Proposal.mem_of_mem_keepFirst member)
        exact Text.endsInEquals_append_equals _
      rw [options, proposed, texts_keepFirst_openProperties shown]

/-- Where an option is taken no value is asked for. -/
theorem not_emitted_value (takes : TakesOption text t) (value : String) {p : Proposal} :
    ¬ Emitted ⟨ctx, text, detail⟩ (.value value) p := by
  rintro (_ | _ | ⟨fails, -, expects⟩)
  cases takes with
  | stream parsed =>
      rw [parsed] at fails
      cases fails
  | dashes fails' _ expects' =>
      rw [fails'] at fails
      cases fails
      rw [expects'] at expects
      cases expects

/-- Where an option is taken, the text with a key waits for its value. -/
theorem awaitsValue (takes : TakesOption text t) (small : text.utf8ByteSize ≤ Span.limit)
    (isName : isName key.toList = true)
    (small' : (Text.withKey text key).utf8ByteSize ≤ Span.limit) :
    AwaitsValue (Text.withKey text key) t key := by
  cases takes with
  | stream parsed unbound =>
      rw [Text.withKey, parsed] at small' ⊢
      exact awaitsValue_append_option (parse_trimEnd small parsed) unbound isName small'
  | dashes fails atEnd expects typed =>
      rw [Text.withKey, fails] at small' ⊢
      obtain ⟨t', typed', awaits⟩ :=
        awaitsValue_of_propertyName small fails atEnd expects isName small'
      rw [typed] at typed'
      cases typed'
      exact awaits

end TakesOption

/-! ## Values -/

/-- The values of a property, in order: its hints, or its default, if any, when it has no hints. -/
inductive Property.HasValues (p : Property) : List String → Prop
  | hints : p.valueHints ≠ [] → HasValues p p.valueHints
  | default {value : String} : p.valueHints = [] → p.defaultValue = some value →
    HasValues p [value]
  | nothing : p.valueHints = [] → p.defaultValue = none → HasValues p []

theorem Property.hasValues_proposedValues (p : Property) : p.HasValues p.proposedValues := by
  by_cases noHints : p.valueHints = []
  · rw [proposedValues, noHints]
    cases isDefault : p.defaultValue with
    | none => exact .nothing noHints isDefault
    | some value => exact .default noHints isDefault
  · rw [proposedValues, if_neg (by simpa using noHints)]
    exact .hints noHints

section Values

variable {ctx : Context} {text key : String} {t : Topology} {detail : Nat}
variable (awaits : AwaitsValue text t key) (visible : Text.trimEnd text = text)
include awaits visible

/-- Where a value is asked for, the values of the first declared property of the key are proposed,
each once. -/
theorem proposalsFor_awaitsValue {property : Property}
    (declared : (ctx.declaredProperties t).find? (fun p => p.id == key) = some property) :
    proposalsFor ctx text detail = property.proposedValues.eraseDups.map fun value =>
      ⟨text ++ Value.render value, .expanding, property.explanation detail⟩ := by
  obtain ⟨e, fails, expects, atEnd, ⟨dashes, name, equals, pending, isDashes, isKey, shown,
    isEquals⟩, typed⟩ := awaits
  let q : Request := ⟨ctx, text, detail⟩
  have lastName : e.lastName? = some name := by
    simp [ParseFailure.lastName?, pending, isKey, isEquals]
  have injective : ∀ v w : String, text ++ Value.render v = text ++ Value.render w → v = w :=
    fun v w same => Value.render_injective ((String.append_right_inj text).mp same)
  rw [proposalsFor_of_error (q := q) (r := .propertyValue) fails expects.symm]
  simp only [Recovery.proposals_of_atEnd atEnd, Recovery.value_ofValue_of_typed lastName typed,
    shown, declared, Request.base, visible, q]
  exact Proposal.keepFirst_map_of_injective injective _

/-- With any value the text is the stream in which the last stage has it. -/
theorem parse_of_awaitsValue (small : text.utf8ByteSize ≤ Span.limit) (value : String)
    (small' : (text ++ Value.render value).utf8ByteSize ≤ Span.limit) :
    ∃ source front last, t = ⟨source, front ++ [last], none⟩ ∧
      Topology.parse (text ++ Value.render value) =
        .ok ⟨source, front ++ [last.withParameter key value], none⟩ := by
  obtain ⟨e, fails, expects, atEnd, ⟨dashes, name, equals, pending, -, -, shown, -⟩, typed⟩ :=
    awaits
  rw [← visible] at small'
  obtain ⟨dashes', name', equals', source, front, last, pending', -, typed', parsed⟩ :=
    parse_of_value small fails atEnd expects value small'
  rw [pending] at pending'
  cases pending'
  rw [typed] at typed'
  cases typed'
  rw [visible, shown] at parsed
  exact ⟨source, front, last, rfl, parsed⟩

end Values

/-- A value for a property closes it, and no other. -/
theorem Context.openKeys_withParameter (ctx : Context) (source : Option String)
    (front : List Stage) (last : Stage) (key value : String) :
    ctx.openKeys ⟨source, front ++ [last.withParameter key value], none⟩ =
      (ctx.openKeys ⟨source, front ++ [last], none⟩).filter fun id => id != key := by
  have last? : ∀ s : Stage, (Topology.mk source (front ++ [s]) none).last? = some s := fun s =>
    List.getLast?_concat
  -- The module is the same, since neither its name nor its position changes.
  have same : ctx.declaredProperties ⟨source, front ++ [last.withParameter key value], none⟩ =
      ctx.declaredProperties ⟨source, front ++ [last], none⟩ := by
    simp only [declaredProperties_eq, lastModule?, last?, lastPosition_concat, Option.bind_some]
    rfl
  rw [openKeys, openKeys, openProperties_eq (last? _), openProperties_eq (last? _), same,
    filter_eraseDups, List.filter_map, List.filter_filter]
  congr 2
  apply List.filter_congr
  intro p _
  rw [Stage.hasParameter_withParameter, Function.comp_apply, Bool.not_or]
  rfl

/-! ## Declared keys -/

namespace Context

variable {ctx : Context} {t : Topology} {key : String}

theorem nodup_openKeys : (ctx.openKeys t).Nodup :=
  nodup_eraseDups _

/-- The open keys are the declared ones without those that the last stage is given. -/
theorem openKeys_eq {last : Stage} (isLast : t.last? = some last) :
    ctx.openKeys t = ((ctx.declaredProperties t).map Property.id).eraseDups.filter fun id =>
      !last.hasParameter id := by
  rw [openKeys, openProperties_eq isLast, filter_eraseDups, List.filter_map]
  rfl

theorem exists_declared_of_mem_openKeys (isOpen : key ∈ ctx.openKeys t) :
    ∃ p, (ctx.declaredProperties t).find? (fun p => p.id == key) = some p := by
  rw [← Option.isSome_iff_exists, List.find?_isSome]
  obtain ⟨p, unset, rfl⟩ := List.mem_map.mp (List.mem_eraseDups.mp isOpen)
  cases isLast : t.last? with
  | none =>
      rw [openProperties_of_last?_eq_none isLast] at unset
      cases unset
  | some last =>
      rw [openProperties_eq isLast] at unset
      exact ⟨p, (List.mem_filter.mp unset).1, beq_self_eq_true _⟩

theorem isName_of_mem_openKeys (named : ctx.collaborators.Named) (isOpen : key ∈ ctx.openKeys t) :
    isName key.toList = true := by
  obtain ⟨p, unset, rfl⟩ := List.mem_map.mp (List.mem_eraseDups.mp isOpen)
  rw [openProperties] at unset
  cases found : (ctx.lastStage t).value with
  | none =>
      rw [found] at unset
      cases unset
  | some known =>
      rw [found] at unset
      obtain ⟨-, -, artifact, -, listed⟩ := value_lastStage_eq_some_iff.mp found
      exact named.properties artifact _ listed p (KnownStage.mem_unsetProperties.mp unset).1

end Context

/-! ## One round -/

/-- The text with an option and its value. -/
def Text.withParameter (text key value : String) : String :=
  Text.withKey text key ++ Value.render value

namespace TakesOption

variable {ctx : Context} {text key : String} {t : Topology} {detail : Nat}

theorem exists_of_parse_or_dashes (small : text.utf8ByteSize ≤ Span.limit)
    (unfinished : (∃ t, Topology.parse text = .ok t ∧ t.sink = none) ∨
      ∃ e, Topology.parse text = .error e ∧ e.atEnd = true ∧ e.expectation = .propertyName) :
    ∃ t, TakesOption text t := by
  rcases unfinished with ⟨t, parsed, unbound⟩ | ⟨e, fails, atEnd, expects⟩
  · exact ⟨t, .stream parsed unbound⟩
  · obtain ⟨t, typed⟩ := exists_typed_of_propertyName small fails atEnd expects
    exact ⟨t, .dashes fails atEnd expects typed⟩

/-- The text with an option that is proposed and any value is a stream, and takes the other
options. -/
theorem fill (takes : TakesOption text t) (small : text.utf8ByteSize ≤ Span.limit)
    (named : ctx.collaborators.Named) (isOpen : key ∈ ctx.openKeys t) (value : String)
    (small' : (Text.withParameter text key value).utf8ByteSize ≤ Span.limit) :
    ∃ t', Topology.parse (Text.withParameter text key value) = .ok t' ∧ t'.sink = none ∧
      ctx.openKeys t' = (ctx.openKeys t).filter fun id => id != key := by
  have smallKey : (Text.withKey text key).utf8ByteSize ≤ Span.limit := by
    rw [Text.withParameter, String.utf8ByteSize_append] at small'
    omega
  have awaits := takes.awaitsValue small (Context.isName_of_mem_openKeys named isOpen) smallKey
  obtain ⟨source, front, last, rfl, parsed⟩ :=
    parse_of_awaitsValue awaits (Text.trimEnd_withKey text key) smallKey value small'
  exact ⟨_, parsed, rfl, ctx.openKeys_withParameter source front last key value⟩

/-- What is emitted for a property is the text with its key. -/
theorem text_eq (takes : TakesOption text t) {property : Property} {p : Proposal}
    (emitted : Emitted ⟨ctx, text, detail⟩ (.property property) p) :
    p.text = Text.withKey text property.id := by
  cases takes with
  | stream parsed =>
      rw [Text.withKey, parsed]
      cases emitted with
      | afterDashDash fails =>
          rw [parsed] at fails
          cases fails
      | unfinishedPropertyName fails =>
          rw [parsed] at fails
          cases fails
      | moduleOptions => rfl
  | dashes fails _ expects =>
      rw [Text.withKey, fails]
      cases emitted with
      | afterDashDash => rfl
      | unfinishedPropertyName fails' _ expects' =>
          rw [fails] at fails'
          cases fails'
          rw [expects] at expects'
          cases expects'
      | moduleOptions parsed =>
          rw [fails] at parsed
          cases parsed

/-- What is proposed with an equals sign at its end is proposed for a property. -/
theorem isOption_iff (takes : TakesOption text t) (named : ctx.collaborators.catalog.Named)
    {p : Proposal} (member : p ∈ proposalsFor ctx text detail) :
    p.isOption = true ↔ ∃ property, Emitted ⟨ctx, text, detail⟩ (.property property) p ∧
      p.text = Text.withKey text property.id := by
  constructor
  · intro isOption
    obtain ⟨subject, emitted⟩ := exists_emitted_of_mem_proposalsFor member
    cases subject with
    | property property => exact ⟨property, emitted, takes.text_eq emitted⟩
    | value value => exact absurd emitted (takes.not_emitted_value value)
    | module r =>
        rw [emitted.not_isOption named] at isOption
        cases isOption
  · rintro ⟨property, emitted, -⟩
    exact emitted.isOption

end TakesOption

/-! ## Any number of rounds -/

/-- The texts that come about from a text by taking an option that is proposed and giving it a
value, again and again. The keys that are taken are listed in order. -/
inductive FilledIn (ctx : Context) (text : String) : List String → String → Prop
  | nothing : FilledIn ctx text [] text
  | option {taken : List String} {s key value : String} {detail : Nat} {p : Proposal} :
    FilledIn ctx text taken s → p ∈ proposalsFor ctx s detail → p.text = Text.withKey s key →
    (Text.withParameter s key value).utf8ByteSize ≤ Span.limit →
    FilledIn ctx text (taken ++ [key]) (Text.withParameter s key value)

/-- Distinct members of a list without repeats and the others are as many as the list. -/
theorem length_add_length_filter_not_mem {keys taken : List String} (nodup : keys.Nodup)
    (distinct : taken.Nodup) (among : ∀ key ∈ taken, key ∈ keys) :
    taken.length + (keys.filter fun key => decide (key ∉ taken)).length = keys.length := by
  have same : taken.Perm (keys.filter fun key => decide (key ∈ taken)) := by
    rw [List.perm_ext_iff_of_nodup distinct (nodup.sublist List.filter_sublist)]
    intro key
    rw [List.mem_filter, decide_eq_true_iff]
    exact ⟨fun member => ⟨among key member, member⟩, And.right⟩
  rw [same.length_eq,
    List.length_eq_length_filter_add (l := keys) fun key => decide (key ∈ taken)]
  simp only [decide_not]

section Rounds

variable {ctx : Context} {text : String} {t : Topology}

/-- What is left after some rounds is what was proposed at first without what has been taken. -/
theorem FilledIn.left (takes : TakesOption text t) (small : text.utf8ByteSize ≤ Span.limit)
    (named : ctx.collaborators.Named) {taken : List String} {s : String}
    (filled : FilledIn ctx text taken s) :
    s.utf8ByteSize ≤ Span.limit ∧ taken.Nodup ∧ (∀ key ∈ taken, key ∈ ctx.openKeys t) ∧
      ∃ t', TakesOption s t' ∧
        ctx.openKeys t' = (ctx.openKeys t).filter fun key => decide (key ∉ taken) := by
  induction filled with
  | nothing => exact ⟨small, List.nodup_nil, by simp, t, takes, by simp⟩
  | @option taken s key value detail p filled proposed shown small' ih =>
      obtain ⟨smallS, distinct, among, t', takes', open_⟩ := ih
      -- The key is proposed, and so it is one of those that are left.
      have isOpen : key ∈ ctx.openKeys t' :=
        ((takes'.proposesKeys named.modules detail).mem_iff key).mpr ⟨p, proposed, shown⟩
      have isLeft := isOpen
      rw [open_, List.mem_filter, decide_eq_true_iff] at isLeft
      obtain ⟨t'', parsed, unbound, fewer⟩ := takes'.fill smallS named isOpen value small'
      refine ⟨small', ?_, ?_, t'', .stream parsed unbound, ?_⟩
      · rw [List.nodup_append]
        refine ⟨distinct, by simp, fun a member b last same => isLeft.2 ?_⟩
        cases List.mem_singleton.mp last
        exact same ▸ member
      · intro key' member
        rcases List.mem_append.mp member with before | last
        · exact among key' before
        · cases List.mem_singleton.mp last
          exact isLeft.1
      · rw [fewer, open_, List.filter_filter]
        apply List.filter_congr
        intro key' _
        rw [Bool.eq_iff_iff]
        simp [and_comm]

end Rounds

/-- Filling in a property closes it. Where an option can be taken, the options that are proposed are
those of the properties that the module of the last stage declares and the stage is not given, one
for each key. After a key the values of the first property of the key are proposed, its hints or
else its default, each once and in order. With any value, proposed or not, the text is a stream, for
which the options of the other keys are proposed, in the same order. So however options are taken
and given values, what is left is what has not been taken, and nothing is left after as many rounds
as there were keys. -/
theorem filling_closes (ctx : Context) (text : String) (detail : Nat)
    (named : ctx.collaborators.Named) (small : text.utf8ByteSize ≤ Span.limit)
    (unfinished : (∃ t, Topology.parse text = .ok t ∧ t.sink = none) ∨
      ∃ e, Topology.parse text = .error e ∧ e.atEnd = true ∧ e.expectation = .propertyName) :
    ∃ (t : Topology) (last : Stage) (properties : List Property) (keys : List String),
      typedIn? text = some t ∧ t.last? = some last ∧
      properties = ((ctx.findModule last.name t.lastPosition).map fun r =>
        ctx.collaborators.effectiveProperties r.coordinates).getD [] ∧
      keys = ((properties.map Property.id).eraseDups.filter fun id => !last.hasParameter id) ∧
      keys.Nodup ∧ ProposesKeys ctx text detail keys ∧
      (∀ p ∈ proposalsFor ctx text detail, p.isOption = true ↔
        ∃ property, Emitted ⟨ctx, text, detail⟩ (.property property) p ∧
          p.text = Text.withKey text property.id) ∧
      (∀ key ∈ keys, (Text.withKey text key).utf8ByteSize ≤ Span.limit →
        (∃ property values, properties.find? (fun p => p.id == key) = some property ∧
          property.HasValues values ∧
          proposalsFor ctx (Text.withKey text key) detail = values.eraseDups.map fun value =>
            ⟨Text.withKey text key ++ Value.render value, .expanding,
              property.explanation detail⟩) ∧
        ∀ value, (Text.withParameter text key value).utf8ByteSize ≤ Span.limit →
          (∃ t', Topology.parse (Text.withParameter text key value) = .ok t') ∧
          ProposesKeys ctx (Text.withParameter text key value) detail
            (keys.filter fun id => id != key)) ∧
      ∀ taken s, FilledIn ctx text taken s →
        taken.Nodup ∧ (∀ key ∈ taken, key ∈ keys) ∧
        (∀ detail, ProposesKeys ctx s detail (keys.filter fun key => decide (key ∉ taken))) ∧
        taken.length + (keys.filter fun key => decide (key ∉ taken)).length = keys.length := by
  obtain ⟨t, takes⟩ := TakesOption.exists_of_parse_or_dashes small unfinished
  obtain ⟨last, isLast⟩ := takes.exists_last
  have declares : ctx.declaredProperties t = ((ctx.findModule last.name t.lastPosition).map fun r =>
      ctx.collaborators.effectiveProperties r.coordinates).getD [] := by
    rw [Context.declaredProperties_eq, Context.lastModule?, isLast, Option.bind_some]
  refine ⟨t, last, ctx.declaredProperties t, ctx.openKeys t, takes.typedIn?_eq, isLast, declares,
    Context.openKeys_eq isLast, Context.nodup_openKeys, takes.proposesKeys named.modules detail,
    fun p member => takes.isOption_iff named.modules member,
    fun key isOpen small' => ⟨?_, fun value small'' => ?_⟩, fun taken s filled => ?_⟩
  · obtain ⟨property, declared⟩ := Context.exists_declared_of_mem_openKeys isOpen
    have awaits := takes.awaitsValue small (Context.isName_of_mem_openKeys named isOpen) small'
    exact ⟨property, _, declared, property.hasValues_proposedValues,
      proposalsFor_awaitsValue awaits (Text.trimEnd_withKey text key) declared⟩
  · obtain ⟨t', parsed, unbound, fewer⟩ := takes.fill small named isOpen value small''
    have proposes := (TakesOption.stream parsed unbound).proposesKeys named.modules detail
    rw [fewer] at proposes
    exact ⟨⟨t', parsed⟩, proposes⟩
  · obtain ⟨-, distinct, among, t', takes', left⟩ := filled.left takes small named
    refine ⟨distinct, among, fun detail => ?_,
      length_add_length_filter_not_mem Context.nodup_openKeys distinct among⟩
    rw [← left]
    exact takes'.proposesKeys named.modules detail

/-- A source that declares one key twice, with hints that repeat, and another with a default. -/
def repeatingContext : Context where
  collaborators := {
    catalog := Registry.catalog ⟨.ofList [((.source, "file"), .plain "org" "file" "1")]⟩
    resolve := fun coordinates => .ok ⟨coordinates, coordinates.fileName⟩
    listProperties := fun _ => .ok [⟨"mode", "", "", none, ["ref", "lines", "ref"]⟩,
      ⟨"path", "", "", some "a b", []⟩, ⟨"mode", "", "", none, ["other"]⟩] }
  precedence := ModuleType.all

/-- The hints of the one key and the default of the other are proposed, and after two rounds nothing
is left. -/
theorem filling_closes_file :
    proposalsFor repeatingContext "file --mode=" 1 =
        [⟨"file --mode=ref", .expanding, ""⟩, ⟨"file --mode=lines", .expanding, ""⟩] ∧
      proposalsFor repeatingContext "file --path=" 1 =
        [⟨"file --path='a b'", .expanding, ""⟩] ∧
      ProposesKeys repeatingContext "file --mode=''" 1 ["path"] ∧
      FilledIn repeatingContext "file --" ["mode", "path"] "file --mode='' --path='a b'" ∧
      ProposesKeys repeatingContext "file --mode='' --path='a b'" 1 [] := by
  have named : repeatingContext.collaborators.Named := by
    constructor
    · decide
    · intro artifact properties listed
      cases listed
      decide
  obtain ⟨t, last, properties, keys, typed, isLast, isDeclared, keys_eq, -, -, -, one, rounds⟩ :=
    filling_closes repeatingContext "file --" 1 named (by decide) (Or.inr ⟨_, rfl, rfl, rfl⟩)
  cases typed
  cases isLast
  cases isDeclared
  have two : keys = ["mode", "path"] := by
    rw [keys_eq]
    decide
  subst two
  -- The values of the first property of each key.
  have withMode : Text.withKey "file --" "mode" = "file --mode=" := by decide
  have withPath : Text.withKey "file --" "path" = "file --path=" := by decide
  obtain ⟨⟨mode, values, isMode, hasValues, proposed⟩, next⟩ := one "mode" (by simp) (by decide)
  obtain ⟨⟨path, values', isPath, hasValues', proposed'⟩, -⟩ := one "path" (by simp) (by decide)
  cases isMode
  cases isPath
  rw [withMode] at proposed
  rw [withPath] at proposed'
  have hints : values = ["ref", "lines", "ref"] := by
    cases hasValues with
    | hints => rfl
    | default noHints => cases noHints
    | nothing noHints => cases noHints
  have default : values' = ["a b"] := by
    cases hasValues' with
    | hints someHint => exact absurd rfl someHint
    | default _ isDefault => exact congrArg (fun value => [value]) (Option.some.inj isDefault).symm
    | nothing _ noDefault => cases noDefault
  -- The first round.
  have first : Text.withParameter "file --" "mode" "" = "file --mode=''" := by decide
  obtain ⟨-, rest⟩ := next "" (by decide)
  have mode : ⟨"file --mode=", .expanding, ""⟩ ∈ proposalsFor repeatingContext "file --" 1 := by
    decide
  have once : FilledIn repeatingContext "file --" ([] ++ ["mode"])
      (Text.withParameter "file --" "mode" "") :=
    .option .nothing mode withMode.symm (by decide)
  rw [first] at rest once
  -- The second round.
  have second : Text.withParameter "file --mode=''" "path" "a b" =
      "file --mode='' --path='a b'" := by decide
  have path : ⟨"file --mode='' --path=", .addition, ""⟩ ∈
      proposalsFor repeatingContext "file --mode=''" 1 := by decide
  have twice : FilledIn repeatingContext "file --" (["mode"] ++ ["path"])
      (Text.withParameter "file --mode=''" "path" "a b") :=
    .option once path (by decide) (by decide)
  rw [second] at twice
  obtain ⟨-, -, left, -⟩ := rounds _ _ twice
  refine ⟨?_, ?_, rest, twice, left 1⟩
  · rw [proposed, hints]
    decide
  · rw [proposed', default]
    decide

end StreamLang
