import StreamLang.Proofs.Completion.Emission

/-!
Every proposal continues what has been typed.

A proposal that names a property ends where its value is asked for, after the stream typed so far
(`Emitted.awaitsValue`). A proposal that gives a value is the stream typed so far with that value for
the property whose name was typed (`Emitted.parse_value`). A proposal that names a module is a stream
with one more module, or with another name for the last one (`Emitted.grows`). Whatever blanks the
text ends in, no proposal runs into what stands before it.
-/

namespace StreamLang

/-- What has been typed of a stream: the stream of the text, or the one that its failure keeps. -/
def typedIn? (text : String) : Option Topology :=
  match Topology.parse text with
  | .ok t => some t
  | .error e => e.typed?

/-- The streams that a text grows into by the name of a module. -/
inductive Grows (text name : String) : Topology → Prop
  /-- The last stage, which has no parameters yet, gets the name. -/
  | renamed {source : Option String} {front : List Stage} {last : Stage} :
    Topology.parse text = .ok ⟨source, front ++ [last], none⟩ → last.parameters.isEmpty = true →
    Grows text name ⟨source, front ++ [{ last with name }], none⟩
  /-- A stage of the name follows the others. -/
  | piped {source : Option String} {stages : List Stage} :
    Topology.parse text = .ok ⟨source, stages, none⟩ →
    Grows text name ⟨source, stages ++ [.named name], none⟩
  /-- A stage of the name follows the stages of an unfinished text, under the label typed last. -/
  | named {e : ParseFailure} {ts ls : List Token} {d : Draft} {label : Option String} :
    Topology.parse text = .error e → tokensOf text = ts ++ ls → SpellsDraft ts d →
    SpellsLabel ls label → e.typed? = (if d.latest = [] then none else some (d.topology none)) →
    Grows text name ⟨d.source, d.latest.reverse ++ [⟨name, label, .empty⟩], none⟩

section Texts

variable {text key value name : String} {e : ParseFailure} {t : Topology}
variable (small : text.utf8ByteSize ≤ Span.limit)

/-! ## Names of properties -/

include small in
/-- A text that ends within a parameter keeps the stages before it. -/
theorem typed?_of_within {c : Cursor} {done : Draft} {current : Stage} {dashes : Token}
    {rest : List Token} (all : Cursor.start.readAll (tokensOf text) = .ok c)
    (fails : Topology.parse text = .error (.ofHalt text ⟨c, endOf text⟩))
    (within_ : Cursor.Within (tokensOf text) done current dashes rest c) :
    (ParseFailure.ofHalt text ⟨c, endOf text⟩).typed? =
      some ((done.push current).topology none) := by
  obtain ⟨front, split, reaches⟩ := within_.split
  have sound := Cursor.not_error_of_readAll all dashes (split ▸ by simp)
  exact ParseFailure.typed?_of_reaches small fails split sound reaches within_.checkpoint

include small in
/-- After the dashes of a parameter a key goes on the stream typed before them. -/
theorem awaitsValue_of_propertyName (fails : Topology.parse text = .error e)
    (atEnd : e.atEnd = true) (expects : e.expectation = .propertyName)
    (isName : isName key.toList = true)
    (small' : (Text.trimEnd text ++ key ++ "=").utf8ByteSize ≤ Span.limit) :
    ∃ t, e.typed? = some t ∧ AwaitsValue (Text.trimEnd text ++ key ++ "=") t key := by
  obtain ⟨c, all, rfl⟩ := exists_cursor_of_atEnd fails atEnd
  obtain ⟨done, current, state⟩ := PartialStream.eq_dashes_of_expectation expects
  obtain ⟨dashes, within_⟩ := Cursor.within_of_dashes all state
  obtain ⟨same, stops, -⟩ := tokensOf_trimEnd small (Cursor.not_error_of_readAll all)
  obtain ⟨front, split, reaches⟩ := within_.split
  refine ⟨_, typed?_of_within small all fails within_, ?_⟩
  exact awaitsValue_append_key (same.trans split) within_.isDashes reaches
    (stops dashes (by rw [split, List.getLast?_concat]; rfl)) isName small'

include small in
/-- A key may stand in place of the one typed after the dashes. -/
theorem awaitsValue_of_equals {typed : Token} (fails : Topology.parse text = .error e)
    (atEnd : e.atEnd = true) (expects : e.expectation = .equals)
    (lastName : e.lastName? = some typed) (isName : isName key.toList = true)
    (small' : (Text.upTo text typed.start ++ key ++ "=").utf8ByteSize ≤ Span.limit) :
    ∃ t, e.typed? = some t ∧ AwaitsValue (Text.upTo text typed.start ++ key ++ "=") t key := by
  obtain ⟨c, done, current, dashes, all, rfl, within_, -, touch⟩ :=
    exists_within_of_lastName fails atEnd expects lastName
  obtain ⟨front, split, reaches⟩ := within_.split
  have split' : tokensOf text = (front ++ [dashes]) ++ typed :: [] := by simp [split]
  obtain ⟨pre, post, parts, start, left⟩ := exists_cut_of_tokensOf small split'
  have whole : ∀ u ∈ (front ++ [dashes]).getLast?, u.isHalfLabel = false := by
    intro u last
    rw [List.getLast?_concat] at last
    cases last
    simp [Token.isHalfLabel, within_.isDashes]
  rw [Token.endAlone_eq_self whole] at left
  rw [start, Text.upTo_byteLength parts] at small' ⊢
  refine ⟨_, typed?_of_within small all fails within_, ?_⟩
  exact awaitsValue_append_key left within_.isDashes reaches
    (by rw [touch, start, String.toList_ofList]) isName small'

/-! ## Values -/

include small in
/-- After an equals sign a value goes on the stream typed before the dashes. -/
theorem parse_of_value (fails : Topology.parse text = .error e) (atEnd : e.atEnd = true)
    (expects : e.expectation = .value) (value : String)
    (small' : (Text.trimEnd text ++ Value.render value).utf8ByteSize ≤ Span.limit) :
    ∃ dashes key equals source front last, e.pending = [dashes, key, equals] ∧
      e.lastName? = some key ∧ e.typed? = some ⟨source, front ++ [last], none⟩ ∧
      Topology.parse (Text.trimEnd text ++ Value.render value) =
        .ok ⟨source, front ++ [last.withParameter key.text value], none⟩ := by
  obtain ⟨c, all, rfl⟩ := exists_cursor_of_atEnd fails atEnd
  obtain ⟨done, current, begun, state⟩ := PartialStream.eq_equals_of_expectation expects
  obtain ⟨dashes, key, equals, within_, isKey, -, isEquals, toKey, toEquals⟩ :=
    Cursor.within_of_equals all state
  obtain ⟨same, stops, -⟩ := tokensOf_trimEnd small (Cursor.not_error_of_readAll all)
  obtain ⟨front, split, reaches⟩ := within_.split
  have base : (Text.trimEnd text).utf8ByteSize ≤ Span.limit := by
    rw [String.utf8ByteSize_append] at small'
    omega
  have parsed := parse_append_value (same.trans split) within_.isDashes isKey isEquals toKey
    toEquals reaches (stops equals (by rw [split, List.getLast?_append_of_ne_nil _ (by simp)]; rfl))
    base value
  refine ⟨dashes, key, equals, done.source, done.latest.reverse, current, within_.pending, ?_, ?_,
    ?_⟩
  · simp [ParseFailure.lastName?, ParseFailure.ofHalt, within_.pending, isKey, isEquals]
  · rw [typed?_of_within small all fails within_]
    simp [Draft.push, Draft.topology]
  · rw [parsed]
    simp [Draft.push, Draft.topology]

/-! ## Names of modules -/

/-- A longer name may be written for the last stage. -/
theorem parse_of_longerName {last : Stage} {before : String}
    (parsed : Topology.parse text = .ok t) (unbound : t.sink = none) (isLast : t.last? = some last)
    (empty : last.parameters.isEmpty = true) (split : text = before ++ last.name)
    (isName : isName name.toList = true) (longer : last.name.toList <+: name.toList) :
    ∃ source front, t = ⟨source, front ++ [last], none⟩ ∧
      Topology.parse (before ++ name) = .ok ⟨source, front ++ [{ last with name }], none⟩ := by
  have good := Topology.wellFormed_of_parse parsed
  obtain ⟨ts, us, d, s, tokens, draft, spells, rfl, -⟩ := exists_draft_of_parse parsed unbound
  obtain rfl : s = last := by simpa [Draft.push, Draft.topology, Topology.last?] using isLast
  obtain ⟨ls, typed, rfl, labels, identifier, text_⟩ := spells.of_isEmpty empty
  rw [← List.append_assoc] at tokens
  have head : typed.text.toList.head? = name.toList.head? := by
    have typedName := (good.stages s (List.mem_of_getLast? isLast)).name
    obtain ⟨rest, whole⟩ := longer
    rw [text_, ← whole]
    cases chars : s.name.toList with
    | nil =>
        rw [chars] at typedName
        cases typedName
    | cons c cs => rfl
  obtain ⟨u, tokens', isIdentifier, shown⟩ :=
    exists_tokensOf_replace tokens identifier (text_ ▸ split) isName head
  have parsed' := parse_of_spellsDraft draft labels isIdentifier tokens'
  have none : s.parameters = .empty := by
    refine OrderedMap.ext_entries ?_
    simpa [OrderedMap.isEmpty, OrderedMap.empty] using empty
  refine ⟨d.source, d.latest.reverse, by simp [Draft.push, Draft.topology], ?_⟩
  rw [parsed', shown, none]

include small in
/-- Where the name of a module is asked for, it may be written after a blank. -/
theorem tokensOf_separator (sound : ∀ t ∈ tokensOf text, ∀ cause, t.kind ≠ .error cause)
    (isName : isName name.toList = true) :
    ∃ n, tokensOf (text ++ Recovery.separator text ++ name) =
      tokensOf text ++ [.covering .identifier name n name.toList] := by
  have closed : Closed (tokensOf text) := .of_sound sound
  unfold Recovery.separator
  split
  · next blank =>
    obtain ⟨same, -, blanks, parts, separators⟩ := tokensOf_trimEnd small sound
    rw [String.append_empty, tokensOf, String.toList_append]
    by_cases trimmed : blanks = []
    · have empty : text = "" := by
        rw [trimmed, List.append_nil, String.toList_inj] at parts
        have visible := Text.not_endsBlank_trimEnd text
        rw [← parts] at visible
        simpa [visible] using blank
      rw [empty]
      exact ⟨_, tokensFrom_name isName 0⟩
    · have closed' : Closed (tokensOf (Text.trimEnd text)) := by
        rw [same]
        exact closed
      rw [parts, List.append_assoc, tokensFrom_append_separators closed' trimmed separators,
        tokensFrom_name isName, ← same]
      exact ⟨_, rfl⟩
  · have space : (" " ++ name).toList = ' ' :: name.toList := by simp
    rw [String.append_assoc, tokensOf_append closed (space ▸ startsBreak_cons.mpr rfl), space,
      tokensFrom_separator rfl, tokensFrom_name isName]
    exact ⟨_, rfl⟩

/-- A stage after a draft is fed when the draft has stages, or starts with a destination. -/
theorem SpellsDraft.position {ts ls : List Token} {stop : Token} {d : Draft}
    {label : Option String} (draft : SpellsDraft ts d) (labels : SpellsLabel ls label)
    (isStop : stop.kind = .eof) :
    (if (if d.latest = [] then none else some (d.topology none)).isSome ||
        (ts ++ ls ++ [stop]).head?.any (fun t => t.kind == .destination)
      then Position.downstream else .first) =
      if d.latest = [] ∧ d.source = none then .first else .downstream := by
  cases draft with
  | source spells =>
      cases spells with
      | absent =>
          cases labels with
          | absent => simp [isStop]
          | present isLabel => simp [isLabel]
      | present isDestination => simp [isDestination]
  | push => simp [Draft.push]

include small in
/-- Where the name of a module is asked for, it may be written after what has been typed. It stands
where its stage does. -/
theorem parse_of_moduleName (fails : Topology.parse text = .error e) (atEnd : e.atEnd = true)
    (expects : e.expectation = .moduleName) (isName : isName name.toList = true) :
    ∃ ts ls d label, tokensOf text = ts ++ ls ∧ SpellsDraft ts d ∧ SpellsLabel ls label ∧
      e.typed? = (if d.latest = [] then none else some (d.topology none)) ∧
      Recovery.awaitedPosition text e =
        (if d.latest = [] ∧ d.source = none then .first else .downstream) ∧
      Topology.parse (text ++ Recovery.separator text ++ name) =
        .ok ⟨d.source, d.latest.reverse ++ [⟨name, label, .empty⟩], none⟩ := by
  obtain ⟨c, all, rfl⟩ := exists_cursor_of_atEnd fails atEnd
  obtain ⟨ts, ls, d, label, split, draft, labels, before⟩ := exists_draft_of_readAll all expects
  have sound := Cursor.not_error_of_readAll all
  obtain ⟨n, tokens⟩ := tokensOf_separator small sound isName
  rw [split] at tokens
  have typed : (ParseFailure.ofHalt text ⟨c, endOf text⟩).typed? =
      if d.latest = [] then none else some (d.topology none) := by
    have ends := Cursor.ends_of_before all before
    generalize placed : c.checkpoint = place at ends
    cases ends with
    | none zero =>
        have start : (ParseFailure.ofHalt text ⟨c, endOf text⟩).checkpoint = 0 := placed.trans zero
        rw [ParseFailure.typed?, if_pos start]
        rfl
    | @pipe front rest pipe source latest current tokens' _ reaches start =>
        have pipeSound := sound pipe (tokens' ▸ by simp)
        rw [ParseFailure.typed?_of_reaches small fails tokens' pipeSound reaches
          (placed.trans start)]
        simp [Draft.push]
  refine ⟨ts, ls, d, label, split, draft, labels, typed, ?_,
    parse_of_spellsDraft draft labels rfl tokens⟩
  rw [Recovery.awaitedPosition, typed, tokenize, split]
  exact draft.position labels rfl

end Texts

/-! ## Whatever is emitted -/

namespace Emitted

variable {q : Request} {p : Proposal} (small : q.text.utf8ByteSize ≤ Span.limit)
variable (small' : p.text.utf8ByteSize ≤ Span.limit)

include small small' in
theorem awaitsValue {property : Property} (emitted : Emitted q (.property property) p)
    (isName : isName property.id.toList = true) :
    ∃ t last, typedIn? q.text = some t ∧ t.last? = some last ∧
      last.hasParameter property.id = false ∧ AwaitsValue p.text t property.id := by
  -- The properties are those of the last stage typed, as far as they are not set.
  have ofKnown : ∀ {t : Topology} {known : KnownStage},
      (q.context.lastStage t).value = some known → property ∈ known.unsetProperties →
      t.last? = some known.stage ∧ known.stage.hasParameter property.id = false := fun found unset =>
    ⟨(Context.value_lastStage_eq_some_iff.mp found).1, (KnownStage.mem_unsetProperties.mp unset).2⟩
  cases emitted with
  | afterDashDash fails atEnd expects found unset =>
      obtain ⟨t, typed, found⟩ := Recovery.value_typedStage_eq_some_iff.mp found
      obtain ⟨t', typed', awaits⟩ :=
        awaitsValue_of_propertyName small fails atEnd expects isName small'
      obtain rfl : t = t' := Option.some.inj (typed.symm.trans typed')
      obtain ⟨isLast, fresh⟩ := ofKnown found unset
      exact ⟨t, _, by rw [typedIn?, fails]; exact typed, isLast, fresh, awaits⟩
  | unfinishedPropertyName fails atEnd expects lastName found unset =>
      obtain ⟨t, typed, found⟩ := Recovery.value_typedStage_eq_some_iff.mp found
      obtain ⟨t', typed', awaits⟩ :=
        awaitsValue_of_equals small fails atEnd expects lastName isName small'
      obtain rfl : t = t' := Option.some.inj (typed.symm.trans typed')
      obtain ⟨isLast, fresh⟩ := ofKnown found unset
      exact ⟨t, _, by rw [typedIn?, fails]; exact typed, isLast, fresh, awaits⟩
  | moduleOptions parsed unbound found unset =>
      obtain ⟨isLast, fresh⟩ := ofKnown found unset
      exact ⟨_, _, by rw [typedIn?, parsed], isLast, fresh,
        awaitsValue_append_option (parse_trimEnd small parsed) unbound isName small'⟩

include small small' in
theorem parse_value {value : String} (emitted : Emitted q (.value value) p) :
    ∃ e key source front last, Topology.parse q.text = .error e ∧ e.lastName? = some key ∧
      e.typed? = some ⟨source, front ++ [last], none⟩ ∧
      Topology.parse p.text =
        .ok ⟨source, front ++ [last.withParameter key.text value], none⟩ := by
  cases emitted with
  | @value e _ _ _ _ fails atEnd expects =>
      obtain ⟨dashes, key, equals, source, front, last, -, lastName, typed, parsed⟩ :=
        parse_of_value small fails atEnd expects value small'
      exact ⟨e, key, source, front, last, fails, lastName, typed, parsed⟩

include small in
theorem grows {r : Registration} (emitted : Emitted q (.module r) p)
    (isName : isName r.name.toList = true) :
    ∃ t, Topology.parse p.text = .ok t ∧ r ∈ q.context.registrationsAt t.lastPosition ∧
      Grows q.text r.name t := by
  cases emitted with
  | moduleName fails atEnd expects usable =>
      obtain ⟨ts, ls, d, label, split, draft, labels, typed, position, parsed⟩ :=
        parse_of_moduleName small fails atEnd expects isName
      refine ⟨_, parsed, ?_, .named fails split draft labels typed⟩
      simp only [lastPosition_concat, List.reverse_eq_nil_iff]
      rw [← position]
      exact usable
  | unfinishedModuleName parsed unbound isLast empty found usable longer =>
      obtain ⟨source, front, rfl, parsed'⟩ := parse_of_longerName parsed unbound isLast empty
        (Text.eq_append_of_beforeSuffix? found) isName (List.isPrefixOf_iff_prefix.mp longer)
      refine ⟨_, parsed', ?_, .renamed parsed empty⟩
      rw [lastPosition_concat] at usable ⊢
      exact usable
  | @pipe t last _ _ parsed unbound isLast _ _ usable =>
      obtain ⟨source, stages, sink⟩ := t
      cases unbound
      refine ⟨_, parse_append_pipe (parse_trimEnd small parsed) rfl isName, ?_, .piped parsed⟩
      have nonempty : stages ≠ [] := (Topology.wellFormed_of_parse parsed).nonempty
      rw [lastPosition_concat, if_neg (by simp [nonempty])]
      exact usable

end Emitted

/-- Every proposal is a valid continuation of the text. Each is made for a property, a value or a
module. For a property it ends where the value of the property is asked for, after the stream typed
so far, whose last stage does not have the property yet. For a value it is the stream typed so far,
in which the property whose name was typed has just this value. For a module it is a stream that the
text grows into by the name of the module, which can stand where its stage does. -/
theorem proposals_continue {ctx : Context} {text : String} {detail : Nat}
    (small : text.utf8ByteSize ≤ Span.limit) :
    (∀ p ∈ proposalsFor ctx text detail, ∃ subject, Emitted ⟨ctx, text, detail⟩ subject p) ∧
    (∀ (property : Property) (p : Proposal), Emitted ⟨ctx, text, detail⟩ (.property property) p →
      isName property.id.toList = true → p.text.utf8ByteSize ≤ Span.limit →
      ∃ t last, typedIn? text = some t ∧ t.last? = some last ∧
        last.hasParameter property.id = false ∧ AwaitsValue p.text t property.id) ∧
    (∀ (value : String) (p : Proposal), Emitted ⟨ctx, text, detail⟩ (.value value) p →
      p.text.utf8ByteSize ≤ Span.limit →
      ∃ e key source front last, Topology.parse text = .error e ∧ e.lastName? = some key ∧
        e.typed? = some ⟨source, front ++ [last], none⟩ ∧
        Topology.parse p.text =
          .ok ⟨source, front ++ [last.withParameter key.text value], none⟩) ∧
    ∀ (r : Registration) (p : Proposal), Emitted ⟨ctx, text, detail⟩ (.module r) p →
      isName r.name.toList = true →
      ∃ t, Topology.parse p.text = .ok t ∧ r ∈ ctx.registrationsAt t.lastPosition ∧
        Grows text r.name t :=
  ⟨fun _ member => exists_emitted_of_mem_proposalsFor member,
    fun _ _ emitted isName small' => emitted.awaitsValue small small' isName,
    fun _ _ emitted small' => emitted.parse_value small small',
    fun _ _ emitted isName => emitted.grows small isName⟩

/-- A name goes on from its first letter, a value after blanks, and a label with a module. -/
theorem proposals_continue_sample :
    (∃ p ∈ proposalsFor sampleContext "time --f " 1, p.text = "time --format=" ∧
      ∃ t, AwaitsValue p.text t "format") ∧
    (∃ p ∈ proposalsFor sampleContext "time --format= " 1, p.text = "time --format='it''s'" ∧
      ∃ source front, ∃ last : Stage, Topology.parse p.text =
        .ok ⟨source, front ++ [last.withParameter "format" "it's"], none⟩) ∧
    ∃ p ∈ proposalsFor sampleContext "x:" 1, p.text = "x: time" ∧
      ∃ t, Topology.parse p.text = .ok t ∧ Grows "x:" "time" t := by
  let format : Property := ⟨"format", "", "", none, ["it's"]⟩
  refine ⟨?_, ?_, ?_⟩
  · obtain ⟨e, typed, known, fails, atEnd, expects, lastName, found, shown, unset⟩ :
        ∃ e typed known, Topology.parse "time --f " = .error e ∧ e.atEnd = true ∧
          e.expectation = .equals ∧ e.lastName? = some typed ∧
          (Recovery.typedStage ⟨sampleContext, "time --f ", 1⟩ e).value = some known ∧
          typed = ⟨.identifier, "f", 7, 8⟩ ∧ known.unsetProperties = [format] :=
      ⟨_, _, _, rfl, rfl, rfl, rfl, rfl, rfl, rfl⟩
    have emitted : Emitted ⟨sampleContext, "time --f ", 1⟩ (.property format) _ :=
      .unfinishedPropertyName fails atEnd expects lastName found (by simp [unset])
        (by rw [shown]; decide)
    obtain ⟨p, member, same⟩ := emitted.exists_mem_proposalsFor
    have text : p.text = "time --format=" := by
      rw [same, shown]
      decide
    obtain ⟨t, -, -, -, -, awaits⟩ :=
      (proposals_continue (by decide)).2.1 _ _ emitted (by decide) (by rw [← same, text]; decide)
    exact ⟨p, member, text, t, same ▸ awaits⟩
  · obtain ⟨e, typed, known, fails, atEnd, expects, lastName, found, shown, declared⟩ :
        ∃ e typed known, Topology.parse "time --format= " = .error e ∧ e.atEnd = true ∧
          e.expectation = .value ∧ e.lastName? = some typed ∧
          (Recovery.typedStage ⟨sampleContext, "time --format= ", 1⟩ e).value = some known ∧
          typed.text = "format" ∧ known.properties = [format] :=
      ⟨_, _, _, rfl, rfl, rfl, rfl, rfl, rfl, rfl⟩
    have isFormat : known.properties.find? (fun p => p.id == typed.text) = some format := by
      rw [shown, declared]
      rfl
    have emitted : Emitted ⟨sampleContext, "time --format= ", 1⟩ (.value "it's") _ :=
      .value fails atEnd expects lastName found isFormat (by decide)
    obtain ⟨p, member, same⟩ := emitted.exists_mem_proposalsFor
    have text : p.text = "time --format='it''s'" := by
      rw [same]
      decide
    obtain ⟨e', key, source, front, last, fails', lastName', -, parsed⟩ :=
      (proposals_continue (by decide)).2.2.1 _ _ emitted (by rw [← same, text]; decide)
    obtain rfl : e = e' := by simpa [fails] using fails'
    obtain rfl : typed = key := by simpa [lastName] using lastName'
    rw [shown, ← same] at parsed
    exact ⟨p, member, text, source, front, last, parsed⟩
  · obtain ⟨e, fails, atEnd, expects, position⟩ : ∃ e, Topology.parse "x:" = .error e ∧
        e.atEnd = true ∧ e.expectation = .moduleName ∧
        Recovery.awaitedPosition "x:" e = .first := ⟨_, rfl, rfl, rfl, rfl⟩
    have usable : ⟨.source, "time", .plain "org" "time" "1"⟩ ∈
        sampleContext.registrationsAt (Recovery.awaitedPosition "x:" e) := by
      rw [position]
      decide
    have emitted : Emitted ⟨sampleContext, "x:", 1⟩ (.module _) _ :=
      .moduleName fails atEnd expects usable
    obtain ⟨t, parsed, -, grows⟩ :=
      (proposals_continue (by decide)).2.2.2 _ _ emitted (by decide)
    obtain ⟨p, member, same⟩ := emitted.exists_mem_proposalsFor
    exact ⟨p, member, same, t, same ▸ parsed, grows⟩

end StreamLang
