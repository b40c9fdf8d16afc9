import StreamLang.Proofs.Stream.Grammar
import StreamLang.Proofs.Token.Quoted
import StreamLang.Stream.Canonical

/-!
Canonical text reads back.

The text of a well-formed topology splits into tokens that spell the topology
(`Topology.WellFormed.spellsStream`), whatever its parameter values are, and so parsing it gives
the topology back. Every topology that parsing accepts is well-formed, so that canonical text is a
normal form.
-/

namespace StreamLang

/-! ## Well-formed topologies -/

/-- A stage whose name, label and keys are names. Its values may be anything. -/
structure Stage.WellFormed (s : Stage) : Prop where
  name : isName s.name.toList = true
  label : ∀ label ∈ s.label, isName label.toList = true
  keys : ∀ k ∈ s.parameters.keys, isName k.toList = true

/-- A topology of one or more well-formed stages, between destinations that are names. -/
structure Topology.WellFormed (t : Topology) : Prop where
  source : ∀ destination ∈ t.source, isName destination.toList = true
  stages : ∀ s ∈ t.stages, s.WellFormed
  nonempty : t.stages ≠ []
  sink : ∀ destination ∈ t.sink, isName destination.toList = true

/-! ## Lexemes -/

namespace Lexeme

/-- A run that starts with a letter, or with anything but a dash or a colon, is read whole. -/
theorem read_bareStart {c : Char} {w : List Char} (first : Value.isBareStart c = true)
    (bare : ∀ d ∈ w, isBare d = true) : read c w = ofRun (c :: w) [] := by
  simp only [Value.isBareStart, Bool.and_eq_true, bne_iff_ne] at first
  rw [read_run first.1.1 first.1.2 first.2, List.takeWhile_eq_self_iff.mpr bare,
    List.dropWhile_eq_nil_iff.mpr bare]

theorem isBareStart_of_isLetter {c : Char} (letter : isLetter c = true) :
    Value.isBareStart c = true := by
  have bare := isBare_of_isNameChar (isNameChar_of_isLetter letter)
  simp only [Value.isBareStart, bare, Bool.true_and, Bool.and_eq_true, bne_iff_ne]
  constructor <;> rintro rfl <;> cases letter

theorem read_name {c : Char} {w : List Char} (name : isName (c :: w) = true) :
    read c w = ⟨.identifier, String.ofList (c :: w), w.length + 1⟩ := by
  obtain ⟨letter, rest⟩ := isName_cons.mp name
  rw [read_bareStart (isBareStart_of_isLetter letter) fun d member =>
    isBare_of_isNameChar (rest d member)]
  simp [ofRun, name]

theorem read_label {c : Char} {w : List Char} (name : isName (c :: w) = true) :
    read c (w ++ [':']) = ⟨.label, String.ofList (c :: w), w.length + 2⟩ := by
  obtain ⟨letter, rest⟩ := isName_cons.mp name
  have bare : ∀ d ∈ w ++ [':'], isBare d = true := by
    intro d member
    rcases List.mem_append.mp member with inside | colon
    · exact isBare_of_isNameChar (rest d inside)
    · cases List.mem_singleton.mp colon
      rfl
  have noName : isName (c :: (w ++ [':'])) = false := not_isName_colon (c :: w)
  have last : (c :: (w ++ [':'])).getLast? = some ':' := by
    rw [← List.cons_append, List.getLast?_concat]
  have front : (c :: (w ++ [':'])).dropLast = c :: w := by
    rw [← List.cons_append, List.dropLast_concat]
  have narrow : beforeWideBlank [] = false := rfl
  rw [read_bareStart (isBareStart_of_isLetter letter) bare]
  simp [ofRun, noName, last, front, name, narrow]

theorem read_destination {cs : List Char} (name : isName cs = true) :
    read ':' cs = ⟨.destination, String.ofList cs, cs.length + 1⟩ := by
  have whole : cs.takeWhile isNameChar = cs :=
    List.takeWhile_eq_self_iff.mpr (isNameChar_of_isName name)
  simp [read_colon, destination, whole, name]

/-! ## Values -/

/-- The canonical spelling of a value between single quotes. -/
theorem spells_escape (value : List Char) : Spells '\'' value (value.flatMap Value.escapeChar) := by
  induction value with
  | nil => exact .nil
  | cons c value ih =>
      rw [List.flatMap_cons]
      by_cases quote : c = '\''
      · subst quote
        exact .doubledQuote ih
      · by_cases backslash : c = '\\'
        · subst backslash
          exact .backslash ih
        · have shown : Value.escapeChar c = [c] := by simp [Value.escapeChar, quote, backslash]
          rw [shown]
          exact .plain quote backslash ih

/-- What is written between single quotes is the inside of a literal that means the value. -/
theorem inside_escape (value : List Char) :
    Inside '\'' (value.flatMap Value.escapeChar ++ ['\'']) value
      ((value.flatMap Value.escapeChar).length + 1) :=
  ((spells_escape value).items _).inside (by simp)

/-- A value reads back as one identifier or one literal. -/
theorem read_value (value : String) :
    ∃ c w kind, (Value.render value).toList = c :: w ∧ isSeparator c = false ∧
      (kind = .identifier ∨ kind = .literal) ∧ read c w = ⟨kind, value, w.length + 1⟩ := by
  rw [Value.render]
  split
  · next bare =>
      cases chars : value.toList with
      | nil =>
          rw [chars] at bare
          cases bare
      | cons c w =>
          simp only [chars, Value.isBareText, Bool.and_eq_true, List.all_eq_true,
            bne_iff_ne] at bare
          obtain ⟨⟨first, rest⟩, last⟩ := bare
          have text : String.ofList (c :: w) = value := by rw [← chars, String.ofList_toList]
          have visible : isSeparator c = false := by
            simp only [Value.isBareStart, Bool.and_eq_true] at first
            exact isSeparator_of_isBare first.1.1
          have whole := read_bareStart first rest
          cases name : isName (c :: w) with
          | true => exact ⟨c, w, .identifier, rfl, visible, Or.inl rfl, by
              simp [whole, ofRun, name, text]⟩
          | false => exact ⟨c, w, .literal, rfl, visible, Or.inr rfl, by
              simp [whole, ofRun, name, last, text]⟩
  · refine ⟨'\'', value.toList.flatMap Value.escapeChar ++ ['\''], .literal, by simp, rfl,
      Or.inr rfl, ?_⟩
    have inside := (quoted?_eq_some_iff (by decide)).mpr (inside_escape value.toList)
    have single : read '\'' (value.toList.flatMap Value.escapeChar ++ ['\'']) =
      quoted '\'' (value.toList.flatMap Value.escapeChar ++ ['\'']) := rfl
    rw [single]
    simp [quoted, inside]

end Lexeme

/-! ## Tokens -/

namespace Token

/-- The token over the characters, which start at the byte offset. -/
def covering (kind : TokenKind) (text : String) (offset : Nat) (cs : List Char) : Token :=
  ⟨kind, text, .ofOffsets offset (offset + byteLength cs)⟩

/-- A token touches the token over the characters after it. -/
theorem stop_covering (kind kind' : TokenKind) (text text' : String) (offset : Nat)
    (cs ds : List Char) :
    (covering kind text offset cs).stop =
      (covering kind' text' (offset + byteLength cs) ds).start := by
  simp only [covering, stop, start, Span.ofOffsets]
  omega

end Token

/-- The token over a lexeme, with the tokens after it. -/
theorem tokensFrom_covering {c : Char} (w : List Char) {rest : List Char} {kind : TokenKind}
    {text : String} (visible : isSeparator c = false)
    (read : Lexeme.read c (w ++ rest) = ⟨kind, text, w.length + 1⟩) (offset : Nat) :
    tokensFrom offset 0 (c :: (w ++ rest)) =
      .covering kind text offset (c :: w) ::
        tokensFrom (offset + byteLength (c :: w)) 0 rest := by
  have covered : (Lexeme.read c (w ++ rest)).length = w.length + 1 := by rw [read]
  rw [tokensFrom_lexeme visible offset covered, read]
  simp [Lexeme.place, Token.covering]

theorem tokensFrom_read {c : Char} {w : List Char} {kind : TokenKind} {text : String}
    (visible : isSeparator c = false) (read : Lexeme.read c w = ⟨kind, text, w.length + 1⟩)
    (offset : Nat) :
    tokensFrom offset 0 (c :: w) = [.covering kind text offset (c :: w)] := by
  have alone : Lexeme.read c (w ++ []) = ⟨kind, text, w.length + 1⟩ := by
    rw [List.append_nil, read]
  have tokens := tokensFrom_covering w visible alone offset
  rwa [List.append_nil, tokensFrom] at tokens

theorem isSeparator_of_isName {c : Char} {w : List Char} (name : isName (c :: w) = true) :
    isSeparator c = false :=
  isSeparator_of_isBare (isBare_of_isNameChar (isNameChar_of_isLetter (isName_cons.mp name).1))

theorem tokensFrom_name {name : String} (isName : isName name.toList = true) (offset : Nat) :
    tokensFrom offset 0 name.toList = [.covering .identifier name offset name.toList] := by
  cases chars : name.toList with
  | nil =>
      rw [chars] at isName
      cases isName
  | cons c w =>
      rw [chars] at isName
      rw [tokensFrom_read (isSeparator_of_isName isName) (Lexeme.read_name isName), ← chars,
        String.ofList_toList]

theorem tokensFrom_label {label : String} (isName : isName label.toList = true) (offset : Nat) :
    tokensFrom offset 0 (label.toList ++ [':']) =
      [.covering .label label offset (label.toList ++ [':'])] := by
  cases chars : label.toList with
  | nil =>
      rw [chars] at isName
      cases isName
  | cons c w =>
      rw [chars] at isName
      have read := Lexeme.read_label isName
      rw [← chars, String.ofList_toList] at read
      rw [List.cons_append]
      exact tokensFrom_read (isSeparator_of_isName isName) (by simpa using read) offset

theorem tokensFrom_destination {destination : String}
    (isName : isName destination.toList = true) (offset : Nat) :
    tokensFrom offset 0 (':' :: destination.toList) =
      [.covering .destination destination offset (':' :: destination.toList)] := by
  have read := Lexeme.read_destination isName
  rw [String.ofList_toList] at read
  exact tokensFrom_read rfl read offset

theorem tokensFrom_value (value : String) (offset : Nat) :
    ∃ kind, (kind = .identifier ∨ kind = .literal) ∧
      tokensFrom offset 0 (Value.render value).toList =
        [.covering kind value offset (Value.render value).toList] := by
  obtain ⟨c, w, kind, chars, visible, isValue, read⟩ := Lexeme.read_value value
  rw [chars]
  exact ⟨kind, isValue, tokensFrom_read visible read offset⟩

/-- An operator of one character, with the tokens after it. -/
theorem tokensFrom_operator {c : Char} {kind : TokenKind} {text : String}
    (visible : isSeparator c = false) (read : ∀ cs, Lexeme.read c cs = ⟨kind, text, 1⟩)
    (offset : Nat) (rest : List Char) :
    tokensFrom offset 0 (c :: rest) =
      .covering kind text offset [c] :: tokensFrom (offset + byteLength [c]) 0 rest :=
  tokensFrom_covering [] visible (read rest) offset

/-- The dashes of a parameter, with the tokens after them. -/
theorem tokensFrom_dashes (offset : Nat) (rest : List Char) :
    tokensFrom offset 0 ('-' :: '-' :: rest) =
      .covering .doubleDash "--" offset ['-', '-'] ::
        tokensFrom (offset + byteLength ['-', '-']) 0 rest :=
  tokensFrom_covering ['-'] rfl rfl offset

/-! ## Parameters and stages -/

/-- The tokens of a parameter up to its equals sign, for the characters at the byte offset. -/
def parameterStart (offset : Nat) (key : String) : List Token :=
  [.covering .doubleDash "--" offset ['-', '-'],
    .covering .identifier key (offset + byteLength ['-', '-']) key.toList,
    .covering .equals "=" (offset + byteLength ['-', '-'] + byteLength key.toList) ['=']]

/-- A parameter up to its equals sign is followed by the tokens of its value. -/
theorem tokensFrom_parameterStart {key : String} (isName : isName key.toList = true)
    (offset : Nat) (rest : List Char) :
    tokensFrom offset 0 ('-' :: '-' :: (key.toList ++ '=' :: rest)) =
      parameterStart offset key ++
        tokensFrom (offset + byteLength ('-' :: '-' :: (key.toList ++ ['=']))) 0 rest := by
  have named := tokensFrom_name isName (offset + byteLength ['-', '-'])
  rw [tokensFrom_dashes, tokensFrom_one_append named nofun (startsBreak_cons.mpr rfl),
    tokensFrom_operator rfl (fun _ => rfl)]
  simp [parameterStart, Nat.add_assoc]

theorem toList_renderParameter (key value : String) :
    (Stage.renderParameter key value).toList =
      ' ' :: '-' :: '-' :: (key.toList ++ '=' :: (Value.render value).toList) := by
  simp [Stage.renderParameter]

theorem spellsParameter_renderParameter {key : String} (isName : isName key.toList = true)
    (value : String) (offset : Nat) :
    SpellsParameter (tokensFrom offset 0 (Stage.renderParameter key value).toList)
      (key, value) := by
  rw [toList_renderParameter, tokensFrom_separator rfl, tokensFrom_parameterStart isName]
  obtain ⟨kind, isValue, tokens⟩ := tokensFrom_value value
    (offset + ' '.utf8Size + byteLength ('-' :: '-' :: (key.toList ++ ['='])))
  rw [tokens]
  refine .intro rfl rfl rfl isValue (Token.stop_covering ..) (Token.stop_covering ..) ?_
  have place : offset + ' '.utf8Size + byteLength ('-' :: '-' :: (key.toList ++ ['='])) =
      offset + ' '.utf8Size + byteLength ['-', '-'] + byteLength key.toList +
        byteLength ['='] := by
    simp [Nat.add_assoc]
  rw [place]
  exact Token.stop_covering ..

theorem SpellsParameter.closed {ts : List Token} {pair : String × String}
    (spells : SpellsParameter ts pair) : Closed ts := by
  cases spells with
  | intro isDashes isKey isEquals isValue =>
      rcases isValue with isValue | isValue <;>
        simp [Closed, isDashes, isKey, isEquals, isValue]

/-- The canonical text of parameters, each after a space. -/
def renderParameters (pairs : List (String × String)) : List Char :=
  pairs.flatMap fun e => (Stage.renderParameter e.1 e.2).toList

theorem startsBreak_renderParameters (pairs : List (String × String)) :
    StartsBreak (renderParameters pairs) := by
  cases pairs with
  | nil => exact startsBreak_nil
  | cons e pairs =>
      rw [renderParameters, List.flatMap_cons, toList_renderParameter]
      exact startsBreak_cons.mpr rfl

theorem spellsParameters_renderParameters {pairs : List (String × String)}
    (keys : ∀ e ∈ pairs, isName e.1.toList = true) (offset : Nat) :
    SpellsParameters (tokensFrom offset 0 (renderParameters pairs)) pairs := by
  induction pairs generalizing offset with
  | nil => exact .nil
  | cons e pairs ih =>
      have first := spellsParameter_renderParameter (keys e List.mem_cons_self) e.2 offset
      rw [renderParameters, List.flatMap_cons, ← renderParameters,
        tokensFrom_append first.closed (startsBreak_renderParameters pairs)]
      exact .cons first (ih (fun e member => keys e (List.mem_cons_of_mem _ member)) _)

/-- What stands before the name of a stage. -/
def labelPrefix : Option String → List Char
  | some label => label.toList ++ [':', ' ']
  | none => []

theorem Stage.toList_render (s : Stage) :
    s.render.toList =
      labelPrefix s.label ++ (s.name.toList ++ renderParameters s.parameters.entries) := by
  cases label : s.label <;>
    simp [render, label, labelPrefix, renderParameters, List.flatMap_map]

theorem spellsLabel_labelPrefix {label : Option String}
    (isName : ∀ l ∈ label, isName l.toList = true) (offset : Nat) (rest : List Char) :
    ∃ ls, SpellsLabel ls label ∧ tokensFrom offset 0 (labelPrefix label ++ rest) =
      ls ++ tokensFrom (offset + byteLength (labelPrefix label)) 0 rest := by
  cases label with
  | none => exact ⟨[], .absent, rfl⟩
  | some label =>
      have labelled := tokensFrom_label (isName label rfl) offset
      have split : labelPrefix (some label) ++ rest = label.toList ++ [':'] ++ ' ' :: rest := by
        simp [labelPrefix]
      refine ⟨[.covering .label label offset (label.toList ++ [':'])], .present rfl, ?_⟩
      rw [split, tokensFrom_one_append labelled nofun (startsBreak_cons.mpr rfl),
        tokensFrom_separator rfl]
      simp [labelPrefix, Nat.add_assoc]

/-- The canonical text of a stage splits into tokens that spell the stage. -/
theorem Stage.WellFormed.spellsStage {s : Stage} (good : s.WellFormed) (offset : Nat) :
    SpellsStage (tokensFrom offset 0 s.render.toList) s := by
  have keys : ∀ e ∈ s.parameters.entries, isName e.1.toList = true := fun e member =>
    good.keys e.1 (List.mem_map_of_mem member)
  obtain ⟨ls, spellsLabel, tokens⟩ := spellsLabel_labelPrefix good.label offset
    (s.name.toList ++ renderParameters s.parameters.entries)
  have named := tokensFrom_name good.name (offset + byteLength (labelPrefix s.label))
  rw [s.toList_render, tokens,
    tokensFrom_one_append named nofun (startsBreak_renderParameters _)]
  exact .intro spellsLabel rfl (spellsParameters_renderParameters keys _)
    s.parameters.collects_entries

/-! ## Topologies -/

theorem SpellsStages.closed {ts : List Token} {ss : List Stage} (spells : SpellsStages ts ss) :
    Closed ts := by
  have stream : SpellsStream ([] ++ ts ++ [] ++ [.endOfText 0]) ⟨none, ss, none⟩ :=
    .intro .absent spells .absent rfl
  rw [List.nil_append, List.append_nil] at stream
  exact fun t member => stream.not_error t member _

/-- The canonical text of stages, with pipes between them. -/
def renderStages (ss : List Stage) : List Char :=
  (" | ".intercalate (ss.map Stage.render)).toList

theorem renderStages_singleton (s : Stage) : renderStages [s] = s.render.toList := by
  simp [renderStages]

theorem renderStages_cons (s : Stage) {ss : List Stage} (more : ss ≠ []) :
    renderStages (s :: ss) = s.render.toList ++ ' ' :: '|' :: ' ' :: renderStages ss := by
  cases ss with
  | nil => exact absurd rfl more
  | cons s' ss => simp [renderStages, String.intercalate_cons_cons]

/-- The canonical text of stages splits into tokens that spell the stages. -/
theorem spellsStages_renderStages {ss : List Stage} (good : ∀ s ∈ ss, s.WellFormed)
    (nonempty : ss ≠ []) (offset : Nat) :
    SpellsStages (tokensFrom offset 0 (renderStages ss)) ss := by
  induction ss generalizing offset with
  | nil => exact absurd rfl nonempty
  | cons s ss ih =>
      have first := (good s List.mem_cons_self).spellsStage offset
      cases ss with
      | nil =>
          rw [renderStages_singleton]
          exact .one first
      | cons s' ss =>
          have rest := fun o => ih (fun u member => good u (List.mem_cons_of_mem _ member))
            (List.cons_ne_nil s' ss) o
          rw [renderStages_cons s (List.cons_ne_nil s' ss),
            tokensFrom_append (SpellsStages.one first).closed (startsBreak_cons.mpr rfl),
            tokensFrom_separator rfl, tokensFrom_operator rfl (fun _ => rfl),
            tokensFrom_separator rfl]
          exact .cons first rfl (rest _)

/-- What stands before the stages. -/
def sourcePrefix : Option String → List Char
  | some destination => ':' :: (destination.toList ++ [' ', '>', ' '])
  | none => []

/-- What stands after the stages. -/
def sinkSuffix : Option String → List Char
  | some destination => ' ' :: '>' :: ' ' :: ':' :: destination.toList
  | none => []

theorem Topology.toList_render (t : Topology) :
    t.render.toList =
      sourcePrefix t.source ++ (renderStages t.stages ++ sinkSuffix t.sink) := by
  cases source : t.source <;> cases sink : t.sink <;>
    simp [render, source, sink, sourcePrefix, sinkSuffix, renderStages]

theorem spellsSource_sourcePrefix {source : Option String}
    (isName : ∀ d ∈ source, isName d.toList = true) (offset : Nat) (rest : List Char) :
    ∃ ts, SpellsSource ts source ∧ tokensFrom offset 0 (sourcePrefix source ++ rest) =
      ts ++ tokensFrom (offset + byteLength (sourcePrefix source)) 0 rest := by
  cases source with
  | none => exact ⟨[], .absent, rfl⟩
  | some destination =>
      have named := tokensFrom_destination (isName destination rfl) offset
      have split : sourcePrefix (some destination) ++ rest =
          ':' :: destination.toList ++ ' ' :: '>' :: ' ' :: rest := by
        simp [sourcePrefix]
      let name := Token.covering .destination destination offset (':' :: destination.toList)
      let arrow := Token.covering .gt ">" (offset + byteLength (':' :: destination.toList) +
        ' '.utf8Size) ['>']
      have spells : SpellsSource [name, arrow] (some destination) := .present rfl rfl
      refine ⟨[name, arrow], spells, ?_⟩
      rw [split, tokensFrom_one_append named nofun (startsBreak_cons.mpr rfl),
        tokensFrom_separator rfl, tokensFrom_operator rfl (fun _ => rfl),
        tokensFrom_separator rfl]
      simp [sourcePrefix, Nat.add_assoc, name, arrow]

theorem spellsSink_sinkSuffix {sink : Option String}
    (isName : ∀ d ∈ sink, isName d.toList = true) (offset : Nat) :
    SpellsSink (tokensFrom offset 0 (sinkSuffix sink)) sink := by
  cases sink with
  | none => exact .absent
  | some destination =>
      rw [sinkSuffix, tokensFrom_separator rfl, tokensFrom_operator rfl (fun _ => rfl),
        tokensFrom_separator rfl, tokensFrom_destination (isName destination rfl)]
      exact .present rfl rfl

theorem startsBreak_sinkSuffix (sink : Option String) : StartsBreak (sinkSuffix sink) := by
  cases sink with
  | none => exact startsBreak_nil
  | some destination => exact startsBreak_cons.mpr rfl

/-- The canonical text of a well-formed topology splits into tokens that spell the topology. -/
theorem Topology.WellFormed.spellsStream {t : Topology} (good : t.WellFormed) :
    SpellsStream (tokenize t.render) t := by
  obtain ⟨os, spellsSource, tokens⟩ := spellsSource_sourcePrefix good.source 0
    (renderStages t.stages ++ sinkSuffix t.sink)
  have spellsStages := spellsStages_renderStages good.stages good.nonempty
    (0 + byteLength (sourcePrefix t.source))
  rw [tokenize, tokensOf, t.toList_render, tokens,
    tokensFrom_append spellsStages.closed (startsBreak_sinkSuffix t.sink), ← List.append_assoc]
  exact .intro spellsSource spellsStages (spellsSink_sinkSuffix good.sink _) rfl

/-! ## Accepted topologies are well-formed -/

/-- A token that stands for a name has one as its text. -/
def Token.Named (t : Token) : Prop :=
  t.kind = .identifier ∨ t.kind = .label ∨ t.kind = .destination → isName t.text.toList = true

theorem SpellsParameters.keys {ts : List Token} {pairs : List (String × String)}
    (spells : SpellsParameters ts pairs) (named : ∀ t ∈ ts, t.Named) :
    ∀ k ∈ pairs.map Prod.fst, isName k.toList = true := by
  induction spells with
  | nil => simp
  | cons first _ ih =>
      intro k member
      rcases List.mem_cons.mp member with rfl | later
      · cases first with
        | @intro dashes key equals value _ isKey =>
            exact named key (by simp) (Or.inl isKey)
      · exact ih (fun t inside => named t (List.mem_append_right _ inside)) k later

theorem SpellsStage.wellFormed {ts : List Token} {s : Stage} (spells : SpellsStage ts s)
    (named : ∀ t ∈ ts, t.Named) : s.WellFormed := by
  cases spells with
  | @intro ls ps name label pairs parameters spellsLabel isName spellsParameters collects =>
      refine ⟨named name (by simp) (Or.inl isName), ?_, ?_⟩
      · rintro l present
        cases spellsLabel with
        | absent => cases present
        | @present l' isLabel =>
            cases present
            exact named l' (by simp) (Or.inr (Or.inl isLabel))
      · intro k member
        rw [collects.keys, List.mem_eraseDups] at member
        exact spellsParameters.keys (fun t inside => named t (by simp [inside])) k member

theorem SpellsStages.wellFormed {ts : List Token} {ss : List Stage} (spells : SpellsStages ts ss)
    (named : ∀ t ∈ ts, t.Named) : ∀ s ∈ ss, s.WellFormed := by
  induction spells with
  | one spells =>
      intro s member
      cases List.mem_singleton.mp member
      exact spells.wellFormed named
  | cons spells _ _ ih =>
      intro s member
      rcases List.mem_cons.mp member with rfl | later
      · exact spells.wellFormed fun t inside => named t (List.mem_append_left _ inside)
      · exact ih (fun t inside => named t (by simp [inside])) s later

/-- In a text that the grammar derives every name is one: a name that keeps its colon would stand
before an error. -/
theorem SpellsStream.named {text : String} {t : Topology}
    (spells : SpellsStream (tokenize text) t) : ∀ u ∈ tokenize text, u.Named := by
  intro u member kind
  rcases List.mem_append.mp member with inside | last
  · rcases kind with identifier | other
    · cases name : isName u.text.toList with
      | true => rfl
      | false =>
          obtain ⟨before, after, tokens⟩ := List.append_of_mem inside
          obtain ⟨e, others, rfl, error, -⟩ :=
            exists_error_of_tokensFrom tokens (by simp [Token.isHalfLabel, identifier, name])
          exact absurd error (spells.not_error e (by simp [tokens]) _)
    · exact isName_of_mem_tokensFrom inside other
  · cases List.mem_singleton.mp last
    rcases kind with kind | kind | kind <;> cases kind

/-- Whatever the grammar derives from a text is well-formed. -/
theorem SpellsStream.wellFormed {text : String} {t : Topology}
    (spells : SpellsStream (tokenize text) t) : t.WellFormed := by
  have named := spells.named
  have nonempty := spells.stages_ne_nil
  generalize tokenize text = tokens at spells named
  cases spells with
  | @intro os ts is stop source sink stages spellsSource spellsStages spellsSink isStop =>
      refine ⟨?_, spellsStages.wellFormed fun t inside => named t (by simp [inside]), nonempty, ?_⟩
      · rintro d present
        cases spellsSource with
        | absent => cases present
        | @present destination arrow isDestination =>
            cases present
            exact named destination (by simp) (Or.inr (Or.inr isDestination))
      · rintro d present
        cases spellsSink with
        | absent => cases present
        | @present arrow destination isArrow isDestination =>
            cases present
            exact named destination (by simp) (Or.inr (Or.inr isDestination))

/-! ## Round trips -/

theorem Topology.WellFormed.parse_render {t : Topology} (good : t.WellFormed) :
    Topology.parse t.render = .ok t :=
  topologyParse_eq_ok_iff.mpr good.spellsStream

theorem Topology.wellFormed_of_parse {text : String} {t : Topology}
    (parsed : Topology.parse text = .ok t) : t.WellFormed :=
  (topologyParse_eq_ok_iff.mp parsed).wellFormed

/-- Canonical text reads back as the topology that it was written for, with its parameters in the
order in which they were given. What parsing accepts is well-formed, so that its canonical text is a
normal form. -/
theorem parse_canonical (name : String) :
    (∀ t : Topology, t.WellFormed →
      Stream.parse name t.render = .ok { t with name, text := t.render }) ∧
    ∀ (text : String) (s : Stream), Stream.parse name text = .ok s →
      s.toTopology.WellFormed ∧ ∃ s' : Stream, Stream.parse name s.render = .ok s' ∧
        s'.toTopology = s.toTopology ∧ s'.render = s.render := by
  have reads : ∀ t : Topology, t.WellFormed →
      Stream.parse name t.render = .ok { t with name, text := t.render } := by
    intro t good
    exact streamParse_eq_ok_iff.mpr ⟨good.parse_render, rfl, rfl⟩
  refine ⟨reads, fun text s parsed => ?_⟩
  have good := Topology.wellFormed_of_parse (streamParse_eq_ok_iff.mp parsed).1
  exact ⟨good, _, reads s.toTopology good, rfl, rfl⟩

/-- A stage whose parameter has a quote, a pipe and a backslash in its value. -/
theorem parse_canonical_quoted :
    let t : Topology := ⟨none, [(Stage.named "file").withParameter "match" "it's|\\"], none⟩
    t.WellFormed ∧ t.render = "file --match='it''s|\\\\'" ∧
      Stream.parse "s" t.render = .ok { t with name := "s", text := t.render } ∧
      ∃ s' : Stream, Stream.parse "s" t.render = .ok s' ∧ s'.toTopology = t ∧
        s'.render = t.render := by
  intro t
  have good : t.WellFormed := by
    refine ⟨by simp [t], fun s member => ?_, List.cons_ne_nil _ _, by simp [t]⟩
    cases List.mem_singleton.mp member
    exact ⟨by decide, by simp [Stage.withParameter, Stage.named], by decide⟩
  have parsed := (parse_canonical "s").1 t good
  exact ⟨good, by decide, parsed, ((parse_canonical "s").2 t.render _ parsed).2⟩

end StreamLang
