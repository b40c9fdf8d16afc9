import StreamLang.Proofs.Completion.Emission

/-!
The ways to one name agree.

The name of a property is proposed after a stream (`filter_isOption_proposalsFor`), after dashes
that follow the stream (`proposalsFor_dashes`), and after the name's first letters
(`proposalsFor_key`). The name of a module is proposed after a stream (`filter_isPipe_proposalsFor`),
after a pipe that follows it (`proposalsFor_pipe`), and after the name's first letters
(`filter_expanding_proposalsFor_name`). Each way reads a text of its own, and all of them ask for the
same things: for the properties that the last stage is not given yet (`Context.openProperties`), or
for the modules that can stand after it. What is kept of the proposals is then the same by
`Proposal.exists_keepFirst_map`.
-/

namespace StreamLang

/-! ## Texts -/

namespace Text

/-- Whether a text has another one at its start. -/
def startsWith (text beginning : String) : Bool :=
  beginning.toList.isPrefixOf text.toList

theorem startsWith_append (before text beginning : String) :
    startsWith (before ++ text) (before ++ beginning) = startsWith text beginning := by
  rw [Bool.eq_iff_iff, startsWith, startsWith, List.isPrefixOf_iff_prefix,
    List.isPrefixOf_iff_prefix, String.toList_append, String.toList_append,
    List.prefix_append_right_inj]

theorem startsWith_append_self (beginning rest : String) :
    startsWith (beginning ++ rest) beginning = true := by
  rw [startsWith, List.isPrefixOf_iff_prefix, String.toList_append]
  exact List.prefix_append _ _

/-- An equals sign after a text does not matter for the names at its start. -/
theorem startsWith_append_equals {text name : String} (isName : isName name.toList = true) :
    startsWith (text ++ "=") name = startsWith text name := by
  have equals : "=".toList = ['='] := rfl
  rw [Bool.eq_iff_iff, startsWith, startsWith, List.isPrefixOf_iff_prefix,
    List.isPrefixOf_iff_prefix, String.toList_append, equals, List.prefix_concat_iff]
  constructor
  · intro starts
    rcases starts with whole | part
    · have inside : '=' ∈ name.toList := by simp [whole]
      cases isNameChar_of_isName isName '=' inside
    · exact part
  · exact Or.inr

/-- Whether a text ends in an equals sign. -/
def endsInEquals (text : String) : Bool :=
  text.toList.getLast? == some '='

theorem endsInEquals_append_equals (text : String) : endsInEquals (text ++ "=") = true := by
  have equals : "=".toList = ['='] := rfl
  rw [endsInEquals, String.toList_append, equals, List.getLast?_concat, beq_self_eq_true]

theorem not_endsInEquals_append_name {name : String} (isName : isName name.toList = true)
    (text : String) : endsInEquals (text ++ name) = false := by
  rw [endsInEquals, String.toList_append,
    List.getLast?_append_of_ne_nil _ (ne_nil_of_isName isName),
    beq_eq_false_iff_ne]
  intro last
  cases isNameChar_of_isName isName '=' (List.mem_of_getLast? last)

/-- A name is not gone on with by something that no name has. -/
theorem not_startsWith_of_isName {text name longer more : String} {c : Char}
    (isName : isName longer.toList = true) (begun : name.toList.isPrefixOf longer.toList = true)
    (break_ : more.toList.head? = some c) (apart : isNameChar c = false) :
    startsWith (text ++ longer) (text ++ name ++ more) = false := by
  rw [String.append_assoc, startsWith_append, startsWith, String.toList_append]
  obtain ⟨rest, whole⟩ := List.isPrefixOf_iff_prefix.mp begun
  rw [← whole, ← Bool.not_eq_true, List.isPrefixOf_iff_prefix, List.prefix_append_right_inj]
  intro follows
  have inside : c ∈ rest := follows.subset (List.mem_of_mem_head? break_)
  have named := isNameChar_of_isName isName c (by simp [← whole, inside])
  rw [apart] at named
  cases named

end Text

/-- Whether a proposal is an option, which ends in an equals sign. -/
def Proposal.isOption (p : Proposal) : Bool :=
  Text.endsInEquals p.text

/-- Whether a proposal goes on from a text with a pipe. -/
def Proposal.isPipe (text : String) (p : Proposal) : Bool :=
  Text.startsWith p.text (text ++ " | ")

/-! ## What the strategies propose -/

/-- The properties that the last stage of a stream is not given yet. None are known of a stage whose
module is not found or cannot be read. -/
def Context.openProperties (ctx : Context) (t : Topology) : List Property :=
  ((ctx.lastStage t).value.map KnownStage.unsetProperties).getD []

namespace Recovery

variable {q : Request} {t : Topology} {e : ParseFailure}

theorem value_afterDashDash_of_typed (typed : e.typed? = some t) :
    (afterDashDash q e).value =
      (q.context.openProperties t).map (q.propertyName q.base .expanding) := by
  rw [afterDashDash, Logged.value_bind, Context.openProperties, typedStage, typed]
  cases (q.context.lastStage t).value <;> rfl

theorem value_ofUnfinishedName_of_typed {name : Token} (lastName : e.lastName? = some name)
    (typed : e.typed? = some t) :
    (ofUnfinishedName q e).value =
      ((q.context.openProperties t).filter fun p => Text.startsWith p.id name.text).map
        (q.propertyName (Text.upTo q.text name.start) .expanding) := by
  simp only [ofUnfinishedName, lastName, Logged.value_bind, Context.openProperties, typedStage,
    typed]
  cases (q.context.lastStage t).value <;> rfl

end Recovery

namespace Expansion

variable {q : Request} {t : Topology} {last : Stage} {p : Proposal}

theorem value_ofOptions :
    (ofOptions q t).value =
      (q.context.openProperties t).map (q.propertyName (q.base ++ " --") .addition) := by
  rw [ofOptions, Logged.value_bind, Context.openProperties]
  cases (q.context.lastStage t).value <;> rfl

theorem ofPipe_of_passesOn (passesOn : last.PassesOn q.context t.lastPosition) :
    ofPipe q t last =
      (q.context.registrationsAt .downstream).map (q.moduleName (q.base ++ " | ") .addition) := by
  obtain ⟨r, found, output⟩ := passesOn
  simp only [ofPipe, found, output, if_true]

theorem passesOn_of_mem_ofPipe (member : p ∈ ofPipe q t last) :
    last.PassesOn q.context t.lastPosition := by
  obtain ⟨r, found, output, -⟩ := mem_ofPipe member
  exact ⟨r, found, output⟩

theorem ofPipe_of_not_passesOn (blocked : ¬ last.PassesOn q.context t.lastPosition) :
    ofPipe q t last = [] :=
  List.eq_nil_iff_forall_not_mem.mpr fun _ member => blocked (passesOn_of_mem_ofPipe member)

/-! ### Telling the expansions apart -/

theorem isOption_of_mem_ofOptions (member : p ∈ (ofOptions q t).value) : p.isOption = true := by
  obtain ⟨-, -, property, -, -, text⟩ := mem_ofOptions member
  rw [Proposal.isOption, text, Text.endsInEquals_append_equals]

theorem isPipe_of_mem_ofPipe (member : p ∈ ofPipe q t last) : p.isPipe q.base = true := by
  obtain ⟨r, -, -, next, -, text⟩ := mem_ofPipe member
  rw [Proposal.isPipe, text, Text.startsWith_append_self]

theorem not_isPipe_of_mem_ofOptions (member : p ∈ (ofOptions q t).value) :
    p.isPipe q.base = false := by
  obtain ⟨-, -, property, -, -, text⟩ := mem_ofOptions member
  rw [Proposal.isPipe, text, String.append_assoc, String.append_assoc, Text.startsWith_append,
    Text.startsWith, String.toList_append]
  rfl

theorem kind_of_mem_ofOptions (member : p ∈ (ofOptions q t).value) : p.kind = .addition := by
  rw [value_ofOptions] at member
  obtain ⟨property, -, rfl⟩ := List.mem_map.mp member
  rfl

theorem kind_of_mem_ofUnfinishedName (member : p ∈ ofUnfinishedName q t last) :
    p.kind = .expanding := by
  simp only [ofUnfinishedName] at member
  split at member
  · cases member
  · split at member
    · cases member
    · obtain ⟨r, -, rfl⟩ := List.mem_map.mp member
      rfl

theorem kind_of_mem_ofPipe (member : p ∈ ofPipe q t last) : p.kind = .addition := by
  rw [ofPipe_of_passesOn (passesOn_of_mem_ofPipe member)] at member
  obtain ⟨r, -, rfl⟩ := List.mem_map.mp member
  rfl

section Named

variable (named : q.context.collaborators.catalog.Named)
include named

theorem not_isOption_of_mem_ofUnfinishedName (member : p ∈ ofUnfinishedName q t last) :
    p.isOption = false := by
  obtain ⟨-, before, -, r, usable, -, text⟩ := mem_ofUnfinishedName member
  have isName := Context.isName_of_mem_registrationsAt named usable
  rw [Proposal.isOption, text, Text.not_endsInEquals_append_name isName]

theorem not_isOption_of_mem_ofPipe (member : p ∈ ofPipe q t last) : p.isOption = false := by
  obtain ⟨r, -, -, next, usable, text⟩ := mem_ofPipe member
  have isName := Context.isName_of_mem_registrationsAt named usable
  rw [Proposal.isOption, text, Text.not_endsInEquals_append_name isName]

theorem not_isPipe_of_mem_ofUnfinishedName (isLast : isName last.name.toList = true)
    (member : p ∈ ofUnfinishedName q t last) : p.isPipe q.base = false := by
  obtain ⟨-, before, whole, r, usable, begun, text⟩ := mem_ofUnfinishedName member
  -- The text ends in the name, and so in no blank.
  have visible : Text.endsBlank q.text = false := by
    rw [whole, Text.endsBlank_append (Text.ne_empty_of_isName isLast),
      Text.not_endsBlank_of_isName isLast]
  rw [Proposal.isPipe, Request.base, Text.trimEnd_of_not_endsBlank visible, text, whole]
  exact Text.not_startsWith_of_isName (Context.isName_of_mem_registrationsAt named usable) begun
    rfl (by decide)

end Named

end Expansion

section Engine

variable {q : Request} {t : Topology} {e : ParseFailure} {last : Stage}

theorem exists_last_of_parse (parsed : Topology.parse q.text = .ok t) :
    ∃ last, t.last? = some last :=
  ⟨_, List.getLast?_eq_some_getLast (Topology.wellFormed_of_parse parsed).nonempty⟩

/-- The proposals for a stream are those of the three expansions, one after the other. -/
theorem proposalsFor_of_parse (parsed : Topology.parse q.text = .ok t) (unbound : t.sink = none)
    (isLast : t.last? = some last) :
    proposalsFor q.context q.text q.detail =
      Proposal.keepFirst [] (Expansion.ofUnfinishedName q t last ++
        ((Expansion.ofOptions q t).value ++ Expansion.ofPipe q t last)) := by
  simp only [proposalsFor, Engine.complete, Logged.value_bind, Logged.value_pure,
    Engine.candidates, parsed, Engine.standard, Expansion.standard, Engine.expand,
    Expansion.proposals, unbound, isLast, List.append_nil]

/-- Proposals for a stream may be chosen by their texts from each expansion. -/
theorem filter_proposalsFor_of_parse {choose : Proposal → Bool} (chooseText : String → Bool)
    (ofText : ∀ p, choose p = chooseText p.text) (parsed : Topology.parse q.text = .ok t)
    (unbound : t.sink = none) (isLast : t.last? = some last) :
    (proposalsFor q.context q.text q.detail).filter choose =
      Proposal.keepFirst [] ((Expansion.ofUnfinishedName q t last).filter choose ++
        (((Expansion.ofOptions q t).value).filter choose ++
          (Expansion.ofPipe q t last).filter choose)) := by
  rw [proposalsFor_of_parse parsed unbound isLast, Proposal.keepFirst_filter chooseText ofText,
    List.filter_append, List.filter_append]

/-- The proposals for a text that ends too early are those of the recovery that handles it. -/
theorem proposalsFor_of_error {r : Recovery} (fails : Topology.parse q.text = .error e)
    (handles : r.handles = e.expectation) :
    proposalsFor q.context q.text q.detail =
      Proposal.keepFirst [] (r.proposals q e).value := by
  simp only [proposalsFor, Engine.complete, Logged.value_bind, Logged.value_pure,
    Engine.candidates, fails, Engine.standard, Recovery.select_standard handles]

section AtEnd

variable (fails : Topology.parse q.text = .error e) (atEnd : e.atEnd = true)
include fails atEnd

/-- After dashes the open properties of the last stage typed are proposed. -/
theorem proposalsFor_of_propertyName (expects : e.expectation = .propertyName)
    (typed : e.typed? = some t) :
    proposalsFor q.context q.text q.detail =
      Proposal.keepFirst [] ((q.context.openProperties t).map
        (q.propertyName q.base .expanding)) := by
  rw [proposalsFor_of_error (r := .propertyNameAfterDashDash) fails expects.symm,
    Recovery.proposals_of_atEnd atEnd]
  simp only [Recovery.value_afterDashDash_of_typed typed]

/-- Where the name of a module is asked for, those are proposed that are usable there. -/
theorem proposalsFor_of_moduleName (expects : e.expectation = .moduleName) :
    proposalsFor q.context q.text q.detail =
      Proposal.keepFirst [] (Recovery.ofModuleName q e) := by
  rw [proposalsFor_of_error (r := .moduleName) fails expects.symm,
    Recovery.proposals_of_atEnd atEnd]
  simp only [Logged.value_pure]

end AtEnd

end Engine

/-! ## Names of properties -/

section Options

variable {q : Request} {t : Topology} (parsed : Topology.parse q.text = .ok t)
variable (unbound : t.sink = none) (visible : Text.endsBlank q.text = false)

include parsed unbound in
/-- The options among the proposals for a stream are those of its open properties: no other proposal
ends in an equals sign. -/
theorem filter_isOption_proposalsFor (named : q.context.collaborators.catalog.Named) :
    (proposalsFor q.context q.text q.detail).filter Proposal.isOption =
      Proposal.keepFirst [] ((q.context.openProperties t).map
        (q.propertyName (q.base ++ " --") .addition)) := by
  obtain ⟨last, isLast⟩ := exists_last_of_parse parsed
  have longer : (Expansion.ofUnfinishedName q t last).filter Proposal.isOption = [] :=
    List.filter_eq_nil_iff.mpr fun p member => by
      simp [Expansion.not_isOption_of_mem_ofUnfinishedName named member]
  have options : ((Expansion.ofOptions q t).value).filter Proposal.isOption =
      (Expansion.ofOptions q t).value :=
    List.filter_eq_self.mpr fun p member => Expansion.isOption_of_mem_ofOptions member
  have piped : (Expansion.ofPipe q t last).filter Proposal.isOption = [] :=
    List.filter_eq_nil_iff.mpr fun p member => by
      simp [Expansion.not_isOption_of_mem_ofPipe named member]
  have ofText : ∀ p : Proposal, p.isOption = Text.endsInEquals p.text := fun _ => rfl
  rw [filter_proposalsFor_of_parse _ ofText parsed unbound isLast, longer, options, piped,
    List.nil_append, List.append_nil, Expansion.value_ofOptions]

include parsed unbound in
/-- After dashes the open properties are proposed. -/
theorem proposalsFor_dashes (small : (q.text ++ " --").utf8ByteSize ≤ Span.limit) :
    proposalsFor q.context (q.text ++ " --") q.detail =
      Proposal.keepFirst [] ((q.context.openProperties t).map
        (q.propertyName (q.text ++ " --") .expanding)) := by
  obtain ⟨e, dashes, stops⟩ := exists_stopsAfter_dashes parsed unbound small
  have shown : Text.endsBlank (q.text ++ " --") = false := by
    rw [Text.endsBlank_append (by decide)]
    rfl
  have base : Text.trimEnd (q.text ++ " --") = q.text ++ " --" :=
    Text.trimEnd_of_not_endsBlank shown
  rw [proposalsFor_of_propertyName (q := ⟨q.context, q.text ++ " --", q.detail⟩) stops.fails
    stops.atEnd stops.expects stops.typed]
  simp only [Request.base, base]
  rfl

include parsed unbound in
/-- After dashes and a name the open properties are proposed that start with the name. -/
theorem proposalsFor_key {name : String} (isName : isName name.toList = true)
    (small : (q.text ++ " --" ++ name).utf8ByteSize ≤ Span.limit) :
    proposalsFor q.context (q.text ++ " --" ++ name) q.detail =
      Proposal.keepFirst [] (((q.context.openProperties t).filter fun p =>
        Text.startsWith p.id name).map (q.propertyName (q.text ++ " --") .expanding)) := by
  obtain ⟨e, dashes, typed, stops, isKey, text, start⟩ :=
    exists_stopsAfter_key parsed unbound isName small
  have lastName : e.lastName? = some typed := by
    simp [ParseFailure.lastName?, stops.pending, isKey]
  rw [proposalsFor_of_error (q := ⟨q.context, q.text ++ " --" ++ name, q.detail⟩)
    (r := .unfinishedPropertyName) stops.fails stops.expects.symm]
  simp only [Recovery.proposals_of_atEnd stops.atEnd,
    Recovery.value_ofUnfinishedName_of_typed lastName stops.typed, text, start]
  rfl

/-- The ways to the name of a property agree. There are properties, each of the open ones of the
last stage up to others of the same id, for which just the options are proposed for a stream, which
are just what is proposed after dashes, and of which those are proposed after dashes and a name that
start with the name. The texts and the explanations are the same, and so is the order. -/
theorem option_paths_agree (named : q.context.collaborators.Named)
    (parsed : Topology.parse q.text = .ok t) (unbound : t.sink = none)
    (visible : Text.endsBlank q.text = false)
    (small : (q.text ++ " --").utf8ByteSize ≤ Span.limit) :
    ∃ properties : List Property, properties.Sublist (q.context.openProperties t) ∧
      (∀ p ∈ q.context.openProperties t, ∃ p' ∈ properties, p'.id = p.id) ∧
      (proposalsFor q.context q.text q.detail).filter Proposal.isOption =
        properties.map (q.propertyName (q.text ++ " --") .addition) ∧
      proposalsFor q.context (q.text ++ " --") q.detail =
        properties.map (q.propertyName (q.text ++ " --") .expanding) ∧
      ∀ name : String, isName name.toList = true →
        (q.text ++ " --" ++ name).utf8ByteSize ≤ Span.limit →
        proposalsFor q.context (q.text ++ " --" ++ name) q.detail =
          (properties.filter fun p => Text.startsWith p.id name).map
            (q.propertyName (q.text ++ " --") .expanding) := by
  obtain ⟨properties, among, whole, kept, chosen⟩ := Proposal.exists_keepFirst_map
    (q.propertyName (q.text ++ " --")) (fun _ _ _ => rfl) (q.context.openProperties t)
  refine ⟨properties, among, ?_, ?_, ?_, ?_⟩
  · intro p isOpen
    obtain ⟨p', inside, text⟩ := whole p isOpen
    have ids := (String.append_left_inj "=").mp (text .addition)
    exact ⟨p', inside, (String.append_right_inj (q.text ++ " --")).mp ids⟩
  · have base : q.base = q.text := Text.trimEnd_of_not_endsBlank visible
    rw [filter_isOption_proposalsFor parsed unbound named.modules, base, kept]
  · rw [proposalsFor_dashes parsed unbound small, kept]
  · intro name isName small'
    have ofText : ∀ (k : ProposalKind) (p : Property), Text.startsWith p.id name =
        Text.startsWith (q.propertyName (q.text ++ " --") k p).text (q.text ++ " --" ++ name) := by
      intro k p
      rw [Request.propertyName, String.append_assoc, Text.startsWith_append,
        Text.startsWith_append_equals isName]
    rw [proposalsFor_key parsed unbound isName small']
    exact chosen (fun text => Text.startsWith text (q.text ++ " --" ++ name)) ofText .expanding

/-- The one property of a module, after its name, and after dashes and a letter. -/
theorem option_paths_agree_format :
    ∃ properties : List Property, properties.length = 1 ∧
      (proposalsFor sampleContext "time" 1).filter Proposal.isOption =
        properties.map (Request.propertyName ⟨sampleContext, "time", 1⟩ "time --" .addition) ∧
      proposalsFor sampleContext "time --f" 1 =
        (properties.filter fun p => Text.startsWith p.id "f").map
          (Request.propertyName ⟨sampleContext, "time", 1⟩ "time --" .expanding) := by
  obtain ⟨properties, -, -, options, dashes, typed⟩ := option_paths_agree
    (q := ⟨sampleContext, "time", 1⟩) named_sampleContext rfl rfl rfl (by decide)
  have one : (proposalsFor sampleContext ("time" ++ " --") 1).length = 1 := by decide
  rw [dashes, List.length_map] at one
  exact ⟨properties, one, options, typed "f" (by decide) (by decide)⟩

end Options

/-! ## Names of modules -/

section Modules

variable {q : Request} {t : Topology} {last : Stage}

/-- The pipes among the proposals for a stream are those of the last expansion. -/
theorem filter_isPipe_proposalsFor (named : q.context.collaborators.catalog.Named)
    (parsed : Topology.parse q.text = .ok t) (unbound : t.sink = none)
    (isLast : t.last? = some last) :
    (proposalsFor q.context q.text q.detail).filter (Proposal.isPipe q.base) =
      Proposal.keepFirst [] (Expansion.ofPipe q t last) := by
  have isName : isName last.name.toList = true :=
    ((Topology.wellFormed_of_parse parsed).stages last (List.mem_of_getLast? isLast)).name
  have longer : (Expansion.ofUnfinishedName q t last).filter (Proposal.isPipe q.base) = [] :=
    List.filter_eq_nil_iff.mpr fun p member => by
      simp [Expansion.not_isPipe_of_mem_ofUnfinishedName named isName member]
  have options : ((Expansion.ofOptions q t).value).filter (Proposal.isPipe q.base) = [] :=
    List.filter_eq_nil_iff.mpr fun p member => by
      simp [Expansion.not_isPipe_of_mem_ofOptions member]
  have piped : (Expansion.ofPipe q t last).filter (Proposal.isPipe q.base) =
      Expansion.ofPipe q t last :=
    List.filter_eq_self.mpr fun p member => Expansion.isPipe_of_mem_ofPipe member
  have ofText : ∀ p : Proposal, p.isPipe q.base = Text.startsWith p.text (q.base ++ " | ") :=
    fun _ => rfl
  rw [filter_proposalsFor_of_parse (fun text => Text.startsWith text (q.base ++ " | ")) ofText
    parsed unbound isLast, longer, options, piped, List.nil_append, List.nil_append]

/-- After a pipe all modules are proposed that can stand after another. -/
theorem proposalsFor_pipe (parsed : Topology.parse q.text = .ok t) (unbound : t.sink = none)
    (small : (q.text ++ " |").utf8ByteSize ≤ Span.limit) :
    proposalsFor q.context (q.text ++ " |") q.detail =
      Proposal.keepFirst [] ((q.context.registrationsAt .downstream).map
        (q.moduleName (q.text ++ " | ") .addition)) := by
  obtain ⟨e, pipe, stops⟩ := exists_stopsAfter_pipe parsed unbound small
  have position : Recovery.awaitedPosition (q.text ++ " |") e = .downstream := by
    rw [Recovery.awaitedPosition, stops.typed]
    rfl
  have shown : Text.endsBlank (q.text ++ " |") = false := by
    rw [Text.endsBlank_append (by decide)]
    rfl
  have some : q.text ++ " |" ≠ "" := by simp
  -- The text ends in the pipe, so that a space is written before the name.
  have separator : Recovery.separator (q.text ++ " |") = " " := by
    simp [Recovery.separator, some, shown]
  have before : q.text ++ " |" ++ " " = q.text ++ " | " := by
    rw [String.append_assoc]
    rfl
  rw [proposalsFor_of_moduleName (q := ⟨q.context, q.text ++ " |", q.detail⟩) stops.fails
    stops.atEnd stops.expects]
  simp only [Recovery.ofModuleName, position, separator, before]
  rfl

/-- Among the proposals for a stream the longer names come first, and the others are additions. -/
theorem filter_expanding_proposalsFor (parsed : Topology.parse q.text = .ok t)
    (unbound : t.sink = none) (isLast : t.last? = some last) :
    (proposalsFor q.context q.text q.detail).filter (fun p => p.kind == .expanding) =
      Proposal.keepFirst [] (Expansion.ofUnfinishedName q t last) := by
  have expanding : ∀ p ∈ Expansion.ofUnfinishedName q t last, (p.kind == .expanding) = true := by
    intro p member
    rw [Expansion.kind_of_mem_ofUnfinishedName member]
    rfl
  have additions : ∀ p ∈ (Expansion.ofOptions q t).value ++ Expansion.ofPipe q t last,
      (p.kind == .expanding) = false := by
    intro p member
    have addition : p.kind = .addition := by
      rcases List.mem_append.mp member with option | piped
      · exact Expansion.kind_of_mem_ofOptions option
      · exact Expansion.kind_of_mem_ofPipe piped
    rw [addition]
    rfl
  rw [proposalsFor_of_parse parsed unbound isLast,
    Proposal.keepFirst_append_filter expanding additions]

/-- After a pipe and a name the names of modules are proposed that go on from the name. -/
theorem filter_expanding_proposalsFor_name (parsed : Topology.parse q.text = .ok t)
    (unbound : t.sink = none) {name : String} (isName : isName name.toList = true) :
    (proposalsFor q.context (q.text ++ " | " ++ name) q.detail).filter
        (fun p => p.kind == .expanding) =
      Proposal.keepFirst [] (((q.context.registrationsAt .downstream).filter fun r =>
        Text.startsWith r.name name && r.name != name).map
          (q.moduleName (q.text ++ " | ") .expanding)) := by
  -- The name is itself the last stage, and has another before it.
  let q' : Request := ⟨q.context, q.text ++ " | " ++ name, q.detail⟩
  let t' : Topology := ⟨t.source, t.stages ++ [.named name], none⟩
  have parsed' : Topology.parse q'.text = .ok t' := parse_append_pipe parsed unbound isName
  have isLast : t'.last? = some (.named name) := List.getLast?_concat
  have position : t'.lastPosition = .downstream := by
    rw [lastPosition_concat, if_neg]
    intro first
    exact (Topology.wellFormed_of_parse parsed).nonempty first.1
  have before : Text.beforeSuffix? q'.text (Stage.named name).name = some (q.text ++ " | ") :=
    Text.beforeSuffix?_append (q.text ++ " | ") name
  have longer : Expansion.ofUnfinishedName q' t' (.named name) =
      ((q.context.registrationsAt .downstream).filter fun r =>
        Text.startsWith r.name name && r.name != name).map
          (q.moduleName (q.text ++ " | ") .expanding) := by
    simp only [Expansion.ofUnfinishedName, before, position]
    rfl
  rw [← longer]
  exact filter_expanding_proposalsFor (q := q') parsed' rfl isLast

/-- The ways to the name of a module agree. There are modules, each of those that can stand after
another up to others of the same name, which are just what is proposed after a pipe. For a stream
just the same pipes are proposed when its last module is found and has output, and else none. After
a pipe and a name those are proposed that start with the name and are longer. The texts and the
explanations are the same, and so is the order. -/
theorem module_paths_agree (named : q.context.collaborators.Named)
    (parsed : Topology.parse q.text = .ok t) (unbound : t.sink = none)
    (visible : Text.endsBlank q.text = false)
    (small : (q.text ++ " |").utf8ByteSize ≤ Span.limit) :
    ∃ (last : Stage) (modules : List Registration), t.last? = some last ∧
      modules.Sublist (q.context.registrationsAt .downstream) ∧
      (∀ r ∈ q.context.registrationsAt .downstream, ∃ r' ∈ modules, r'.name = r.name) ∧
      (last.PassesOn q.context t.lastPosition →
        (proposalsFor q.context q.text q.detail).filter (Proposal.isPipe q.text) =
          proposalsFor q.context (q.text ++ " |") q.detail) ∧
      (¬ last.PassesOn q.context t.lastPosition →
        (proposalsFor q.context q.text q.detail).filter (Proposal.isPipe q.text) = []) ∧
      proposalsFor q.context (q.text ++ " |") q.detail =
        modules.map (q.moduleName (q.text ++ " | ") .addition) ∧
      ∀ name : String, isName name.toList = true →
        (proposalsFor q.context (q.text ++ " | " ++ name) q.detail).filter
            (fun p => p.kind == .expanding) =
          (modules.filter fun r => Text.startsWith r.name name && r.name != name).map
            (q.moduleName (q.text ++ " | ") .expanding) := by
  obtain ⟨last, isLast⟩ := exists_last_of_parse parsed
  obtain ⟨modules, among, whole, kept, chosen⟩ := Proposal.exists_keepFirst_map
    (q.moduleName (q.text ++ " | ")) (fun _ _ _ => rfl) (q.context.registrationsAt .downstream)
  have base : q.base = q.text := Text.trimEnd_of_not_endsBlank visible
  have pipes := filter_isPipe_proposalsFor named.modules parsed unbound isLast
  rw [base] at pipes
  refine ⟨last, modules, isLast, among, ?_, ?_, ?_, ?_, ?_⟩
  · intro r usable
    obtain ⟨r', inside, text⟩ := whole r usable
    exact ⟨r', inside, (String.append_right_inj (q.text ++ " | ")).mp (text .addition)⟩
  · intro passesOn
    rw [pipes, Expansion.ofPipe_of_passesOn passesOn, base, proposalsFor_pipe parsed unbound small]
  · intro blocked
    rw [pipes, Expansion.ofPipe_of_not_passesOn blocked]
    rfl
  · rw [proposalsFor_pipe parsed unbound small, kept]
  · intro name isName
    have ofText : ∀ (k : ProposalKind) (r : Registration),
        (Text.startsWith r.name name && r.name != name) =
          (Text.startsWith (q.moduleName (q.text ++ " | ") k r).text (q.text ++ " | " ++ name) &&
            (q.moduleName (q.text ++ " | ") k r).text != q.text ++ " | " ++ name) := by
      intro k r
      have same : (q.text ++ " | " ++ r.name = q.text ++ " | " ++ name) ↔ r.name = name :=
        String.append_right_inj (q.text ++ " | ")
      rw [Request.moduleName, Text.startsWith_append, bne, bne, beq_eq_decide, beq_eq_decide,
        decide_eq_decide.mpr same]
    rw [filter_expanding_proposalsFor_name parsed unbound isName]
    exact chosen (fun text => Text.startsWith text (q.text ++ " | " ++ name) &&
      text != q.text ++ " | " ++ name) ofText .expanding

/-- A sink after a source, and after a pipe and a letter. -/
theorem module_paths_agree_log :
    ∃ modules : List Registration, modules.length = 1 ∧
      (proposalsFor sampleContext "time" 1).filter (Proposal.isPipe "time") =
        modules.map (Request.moduleName ⟨sampleContext, "time", 1⟩ "time | " .addition) ∧
      (proposalsFor sampleContext "time | l" 1).filter (fun p => p.kind == .expanding) =
        (modules.filter fun r => Text.startsWith r.name "l" && r.name != "l").map
          (Request.moduleName ⟨sampleContext, "time", 1⟩ "time | " .expanding) := by
  obtain ⟨last, modules, isLast, -, -, pipes, -, bar, typed⟩ := module_paths_agree
    (q := ⟨sampleContext, "time", 1⟩) named_sampleContext rfl rfl rfl (by decide)
  have one : (proposalsFor sampleContext ("time" ++ " |") 1).length = 1 := by decide
  rw [bar, List.length_map] at one
  cases isLast
  exact ⟨modules, one, (pipes ⟨_, rfl, rfl⟩).trans bar, typed "l" (by decide)⟩

end Modules

end StreamLang
