import StreamLang.Proofs.Stream.Canonical
import StreamLang.Proofs.Stream.Checkpoint
import StreamLang.Proofs.Token.Extend

/-!
Texts that end too early, and texts that go on from there.

Reading a text that ends too early leaves a cursor after all of its tokens. Within a parameter the
cursor keeps the tokens since the stage before it (`Cursor.Within`), and before the name of a module
it keeps where the stages before it end (`Cursor.checkpoint_of_before`). So what the text has that
far is read again from its failure (`ParseFailure.typed?_of_reaches`).

Such a text goes on with a key (`awaitsValue_append_key`), with a value (`parse_append_value`) or
with the name of a module (`parse_of_spellsDraft`). A text that is a stream goes on with an option
(`awaitsValue_append_option`) or with another stage (`parse_append_pipe`). What is typed on the way
there stops after the stream (`StopsAfter`): dashes, a key after them, or a pipe.
-/

namespace StreamLang

/-! ## The last token -/

namespace Cursor

variable {c : Cursor} {ts : List Token} {done : Draft} {current : Stage} {key : String}

/-- The last token that was read, and the step it made. -/
theorem exists_step_of_readAll (all : start.readAll ts = .ok c) (moved : c.state ≠ .start) :
    ∃ front t d, ts = front ++ [t] ∧ start.readAll front = .ok d ∧
      PartialStream.Step t ((d.mark t).touches t) d.state c.state ∧
      c.checkpoint = (d.mark t).checkpoint ∧ c.pending = (d.mark t).pending ++ [t] := by
  rcases List.eq_nil_or_concat ts with rfl | ⟨front, t, rfl⟩
  · cases all
    exact absurd rfl moved
  · rw [List.concat_eq_append] at all
    obtain ⟨d, first, last⟩ := readAll_of_append all
    rw [readAll_singleton] at last
    obtain ⟨state, next, rfl⟩ := read_eq_ok_iff.mp last
    exact ⟨front, t, d, List.concat_eq_append, first, PartialStream.step_of_next next, rfl, rfl⟩

/-- A token that has to touch the one before it does. -/
theorem stop_eq_start_of_touches {t u : Token} (touching : c.touches t = true)
    (latest : c.pending.getLast? = some u) : u.stop = t.start := by
  simpa [touches, latest] using touching

/-- The tokens are those of a stream up to a stage, and then the dashes of a parameter and `rest`.
The cursor has its checkpoint at the dashes, and keeps the tokens from there on. -/
structure Within (ts : List Token) (done : Draft) (current : Stage) (dashes : Token)
    (rest : List Token) (c : Cursor) : Prop where
  split : ∃ front, ts = front ++ dashes :: rest ∧ start.Reaches front (.stage done current)
  isDashes : dashes.kind = .doubleDash
  checkpoint : c.checkpoint = dashes.start
  pending : c.pending = dashes :: rest

theorem Within.concat {d : Cursor} {t dashes : Token} {rest : List Token}
    (within_ : Within ts done current dashes rest d) (incomplete : d.state.isComplete = false)
    (checkpoint : c.checkpoint = (d.mark t).checkpoint)
    (pending : c.pending = (d.mark t).pending ++ [t]) :
    Within (ts ++ [t]) done current dashes (rest ++ [t]) c := by
  rw [mark_of_not_isComplete t incomplete] at checkpoint pending
  obtain ⟨front, rfl, reaches⟩ := within_.split
  exact ⟨⟨front, by simp, reaches⟩, within_.isDashes, checkpoint.trans within_.checkpoint, by
    rw [pending, within_.pending, List.cons_append]⟩

theorem within_of_dashes (all : start.readAll ts = .ok c) (state : c.state = .dashes done current) :
    ∃ dashes, Within ts done current dashes [] c := by
  obtain ⟨front, t, d, rfl, first, step, checkpoint, pending⟩ :=
    exists_step_of_readAll all (by rw [state]; exact PartialStream.noConfusion)
  rw [state] at step
  generalize stage : d.state = p at step
  cases step with
  | dashes kind =>
      rw [mark_of_isComplete t (by rw [stage]; rfl)] at checkpoint pending
      exact ⟨t, ⟨front, rfl, d, first, stage⟩, kind, checkpoint, pending⟩

theorem within_of_key (all : start.readAll ts = .ok c) (state : c.state = .key done current key) :
    ∃ dashes typed, Within ts done current dashes [typed] c ∧ typed.kind = .identifier ∧
      typed.text = key ∧ dashes.stop = typed.start := by
  obtain ⟨front, t, d, rfl, first, step, checkpoint, pending⟩ :=
    exists_step_of_readAll all (by rw [state]; exact PartialStream.noConfusion)
  rw [state] at step
  generalize stage : d.state = p at step
  cases step with
  | key kind touching =>
      have incomplete : d.state.isComplete = false := by rw [stage]; rfl
      obtain ⟨dashes, within_⟩ := within_of_dashes first stage
      rw [mark_of_not_isComplete t incomplete] at touching
      exact ⟨dashes, t, within_.concat incomplete checkpoint pending, kind, rfl,
        stop_eq_start_of_touches touching (by rw [within_.pending]; rfl)⟩

theorem within_of_equals (all : start.readAll ts = .ok c)
    (state : c.state = .equals done current key) :
    ∃ dashes typed equals, Within ts done current dashes [typed, equals] c ∧
      typed.kind = .identifier ∧ typed.text = key ∧ equals.kind = .equals ∧
      dashes.stop = typed.start ∧ typed.stop = equals.start := by
  obtain ⟨front, t, d, rfl, first, step, checkpoint, pending⟩ :=
    exists_step_of_readAll all (by rw [state]; exact PartialStream.noConfusion)
  rw [state] at step
  generalize stage : d.state = p at step
  cases step with
  | equals kind touching =>
      have incomplete : d.state.isComplete = false := by rw [stage]; rfl
      obtain ⟨dashes, typed, within_, isName, text, toKey⟩ := within_of_key first stage
      rw [mark_of_not_isComplete t incomplete] at touching
      exact ⟨dashes, typed, t, within_.concat incomplete checkpoint pending, isName, text, kind,
        toKey, stop_eq_start_of_touches touching (by rw [within_.pending]; rfl)⟩

end Cursor

/-! ## Before the name of a module -/

namespace PartialStream

/-- The position is before the name of a module, after a draft. -/
inductive Before : PartialStream → Draft → Prop
  | start : Before .start ⟨none, []⟩
  | source {destination : String} : Before (.source destination) ⟨some destination, []⟩
  | stageStart {done : Draft} : Before (.stageStart done) done
  | labelled {done : Draft} {label : String} : Before (.labelled done label) done

end PartialStream

namespace Cursor

/-- Where the stages of a draft end among the tokens: at the pipe after the last of them, where the
checkpoint is. Without stages there is no checkpoint. -/
inductive Ends (ts : List Token) (checkpoint : Nat) : Draft → Prop
  | none {source : Option String} : checkpoint = 0 → Ends ts checkpoint ⟨source, []⟩
  | pipe {front rest : List Token} {pipe : Token} {source : Option String} {latest : List Stage}
    {current : Stage} : ts = front ++ pipe :: rest → pipe.kind = .pipe →
    Cursor.start.Reaches front (.stage ⟨source, latest⟩ current) → checkpoint = pipe.start →
    Ends ts checkpoint ⟨source, current :: latest⟩

theorem Ends.concat {ts : List Token} {n : Nat} {draft : Draft} (ends : Ends ts n draft)
    (t : Token) : Ends (ts ++ [t]) n draft := by
  cases ends with
  | none zero => exact .none zero
  | @pipe front rest pipe _ _ _ split isPipe reaches place =>
      have split' : ts ++ [t] = front ++ pipe :: (rest ++ [t]) := by simp [split]
      exact .pipe split' isPipe reaches place

/-- Before the name of a module the checkpoint is where the stages end. -/
theorem ends_of_before {c : Cursor} {ts : List Token} (all : Cursor.start.readAll ts = .ok c)
    {draft : Draft} (before : c.state.Before draft) : Ends ts c.checkpoint draft := by
  refine Cursor.readAll_induction
    (motive := fun ts c => ∀ draft, c.state.Before draft → Ends ts c.checkpoint draft) ?_ ?_ all
    draft before
  · intro draft before
    cases before
    exact .none rfl
  · intro ts c t d first ih read draft before
    obtain ⟨state, next, rfl⟩ := Cursor.read_eq_ok_iff.mp read
    have step := PartialStream.step_of_next next
    generalize stage : c.state = p at step ih
    -- Only a pipe takes a checkpoint; the other tokens keep the one before them.
    have kept : p.isComplete = false → (c.mark t).checkpoint = c.checkpoint := by
      intro incomplete
      rw [Cursor.mark_of_not_isComplete t (stage ▸ incomplete)]
    cases step with
    | source =>
        cases before
        cases ih _ .start with
        | none zero => exact .none ((kept rfl).trans zero)
    | firstLabel =>
        cases before
        exact kept rfl ▸ (ih _ .start).concat t
    | arrowOfSource =>
        cases before
        exact kept rfl ▸ (ih _ .source).concat t
    | label =>
        cases before
        exact kept rfl ▸ (ih _ .stageStart).concat t
    | pipe isPipe =>
        cases before
        refine .pipe rfl isPipe ⟨c, first, stage⟩ ?_
        rw [Cursor.mark_of_isComplete t (by rw [stage]; rfl)]
    | _ => cases before

end Cursor

/-! ## What a position asks for -/

namespace PartialStream

variable {p : PartialStream}

/-- A stream that feeds no destination ends at a stage. -/
theorem eq_stage_of_topology? {t : Topology} (topology : p.topology? = some t)
    (unbound : t.sink = none) : ∃ done current, p = .stage done current := by
  cases p with
  | stage done current => exact ⟨done, current, rfl⟩
  | closed done destination =>
      cases topology
      cases unbound
  | _ => cases topology

theorem eq_dashes_of_expectation (expects : p.expectation = .propertyName) :
    ∃ done current, p = .dashes done current := by
  cases p with
  | dashes done current => exact ⟨done, current, rfl⟩
  | _ => cases expects

theorem eq_key_of_expectation (expects : p.expectation = .equals) :
    ∃ done current key, p = .key done current key := by
  cases p with
  | key done current key => exact ⟨done, current, key, rfl⟩
  | _ => cases expects

theorem eq_equals_of_expectation (expects : p.expectation = .value) :
    ∃ done current key, p = .equals done current key := by
  cases p with
  | equals done current key => exact ⟨done, current, key, rfl⟩
  | _ => cases expects

end PartialStream

/-! ## Texts that end too early -/

variable {text base : String} {c : Cursor} {done : Draft} {current : Stage}

/-- A text that ends too early leaves the cursor after all of its tokens. -/
theorem exists_cursor_of_atEnd {e : ParseFailure} (fails : Topology.parse text = .error e)
    (atEnd : e.atEnd = true) :
    ∃ c, Cursor.start.readAll (tokensOf text) = .ok c ∧ e = .ofHalt text ⟨c, endOf text⟩ := by
  obtain ⟨c, before, t, after, -, first, rfl, cause⟩ := exists_halt_of_parse fails
  have isEnd : t.kind = .eof := by simpa [ParseFailure.atEnd, ParseFailure.ofHalt] using atEnd
  rcases cause with ⟨rfl, rfl, incomplete⟩ | ⟨inside, -⟩
  · exact ⟨c, first, by rw [Cursor.mark_of_not_isComplete _ incomplete]⟩
  · exact absurd isEnd (kind_ne_eof_of_mem_tokensFrom inside)

theorem parse_eq_error_of_readAll (all : Cursor.start.readAll (tokensOf text) = .ok c)
    (incomplete : c.state.isComplete = false) :
    Topology.parse text = .error (.ofHalt text ⟨c, endOf text⟩) := by
  refine topologyParse_eq_error_iff_run.mpr ⟨_, ?_, rfl⟩
  have run := Cursor.run_append (endOf text) all []
  rw [List.append_nil] at run
  rw [run]
  exact Cursor.close_eq_error_iff.mpr ⟨incomplete, rfl⟩

/-- What stands before the token at the checkpoint is read again. -/
theorem ParseFailure.typed?_of_reaches {e : ParseFailure} {front after : List Token} {t : Token}
    (small : text.utf8ByteSize ≤ Span.limit) (fails : Topology.parse text = .error e)
    (tokens : tokensOf text = front ++ t :: after) (sound : ∀ cause, t.kind ≠ .error cause)
    (reaches : Cursor.start.Reaches front (.stage done current))
    (place : e.checkpoint = t.start) :
    e.typed? = some ((done.push current).topology none) := by
  obtain ⟨pre, post, split, start, left⟩ := exists_cut_of_tokensOf small tokens
  have whole : ∀ u ∈ front.getLast?, u.isHalfLabel = false :=
    whole_of_tokensFrom tokens fun u first => by
      cases first
      exact sound
  rw [Token.endAlone_eq_self whole] at left
  obtain ⟨c, all, state⟩ := reaches
  have parsed : Topology.parse (String.ofList pre) = .ok ((done.push current).topology none) :=
    topologyParse_eq_ok_iff_readAll.mpr ⟨c, left ▸ all, by rw [state]; rfl⟩
  have nonzero : e.checkpoint ≠ 0 := by
    intro zero
    have none : pre = [] := by
      cases pre with
      | nil => rfl
      | cons d pre =>
          have size := d.utf8Size_pos
          rw [byteLength_cons] at start
          omega
    rw [none] at parsed
    cases parsed
  rw [typed?, if_neg nonzero, partialText_of_parse fails, place, start,
    Text.upTo_byteLength split, parsed]
  rfl

/-! ## Texts that are streams -/

/-- A text without a sink has the tokens of a draft and of a last stage. -/
theorem exists_draft_of_parse {t : Topology} (parsed : Topology.parse text = .ok t)
    (unbound : t.sink = none) :
    ∃ ts us d s, tokensOf text = ts ++ us ∧ SpellsDraft ts d ∧ SpellsStage us s ∧
      t = (d.push s).topology none ∧ Cursor.start.Reaches (tokensOf text) (.stage d s) := by
  obtain ⟨c, all, topology⟩ := topologyParse_eq_ok_iff_readAll.mp parsed
  obtain ⟨d, s, state⟩ := PartialStream.eq_stage_of_topology? topology unbound
  have spelled := spelled_of_readAll all
  rw [state] at spelled topology
  have same := (Option.some.inj topology).symm
  generalize whole : tokensOf text = tokens at spelled
  cases spelled with
  | @stage ts us _ _ draft spells =>
      exact ⟨ts, us, d, s, rfl, draft, spells, same, c, whole ▸ all, state⟩

/-- The blanks at the end of a stream do not matter. -/
theorem parse_trimEnd {t : Topology} (small : text.utf8ByteSize ≤ Span.limit)
    (parsed : Topology.parse text = .ok t) : Topology.parse (Text.trimEnd text) = .ok t := by
  obtain ⟨c, all, topology⟩ := topologyParse_eq_ok_iff_readAll.mp parsed
  obtain ⟨same, -, -⟩ := tokensOf_trimEnd small (Cursor.not_error_of_readAll all)
  rw [← same] at all
  exact topologyParse_eq_ok_iff_readAll.mpr ⟨c, all, topology⟩

/-! ## Texts that stop after a stream -/

/-- The text is one of the topology and then has pending tokens, after which the grammar asks for
more. -/
structure StopsAfter (text : String) (t : Topology) (expectation : Expectation)
    (pending : List Token) (e : ParseFailure) : Prop where
  fails : Topology.parse text = .error e
  atEnd : e.atEnd = true
  expects : e.expectation = expectation
  pending : e.pending = pending
  typed : e.typed? = some t

/-- Tokens after a stage stop it when they take the checkpoint and the stream may not end there. -/
theorem exists_stopsAfter {front rest : List Token} {t : Token} {state : PartialStream}
    (tokens : tokensOf text = front ++ t :: rest)
    (reaches : Cursor.start.Reaches front (.stage done current))
    (reads : ∀ c : Cursor, c.state = .stage done current →
      c.readAll (t :: rest) = .ok ⟨state, t.start, t :: rest⟩)
    (incomplete : state.isComplete = false) (small : text.utf8ByteSize ≤ Span.limit) :
    ∃ e, StopsAfter text ((done.push current).topology none) state.expectation (t :: rest) e := by
  obtain ⟨c, first, stage⟩ := reaches
  have all : Cursor.start.readAll (tokensOf text) = .ok ⟨state, t.start, t :: rest⟩ := by
    rw [tokens, Cursor.readAll_append first]
    exact reads c stage
  have fails := parse_eq_error_of_readAll all incomplete
  have sound := Cursor.not_error_of_readAll all t (by simp [tokens])
  -- The checkpoint is where `t` starts, so that what stands before it is read again.
  have typed := ParseFailure.typed?_of_reaches small fails tokens sound ⟨c, first, stage⟩ rfl
  exact ⟨_, fails, rfl, rfl, rfl, typed⟩

/-- Dashes after a text are its last token, and the text ends with them. -/
theorem exists_tokensOf_append_dashes (closed : Closed (tokensOf base))
    (small : (base ++ " --").utf8ByteSize ≤ Span.limit) :
    ∃ dashes, tokensOf (base ++ " --") = tokensOf base ++ [dashes] ∧
      dashes.kind = .doubleDash ∧ dashes.stop = byteLength (base ++ " --").toList := by
  obtain ⟨place, placed⟩ : ∃ n, n = byteLength base.toList + ' '.utf8Size := ⟨_, rfl⟩
  have dashes : " --".toList = [' ', '-', '-'] := rfl
  have whole : byteLength (base ++ " --").toList = place + byteLength ['-', '-'] := by
    rw [String.toList_append, byteLength_append, dashes, placed]
    simp [Nat.add_assoc]
  refine ⟨.covering .doubleDash "--" place ['-', '-'], ?_, rfl, ?_⟩
  · rw [tokensOf_append closed (dashes ▸ startsBreak_cons.mpr rfl), dashes,
      tokensFrom_separator rfl, tokensFrom_dashes, tokensFrom, placed]
  · rw [← byteLength_toList, whole] at small
    rw [whole]
    simp only [Token.covering, Token.stop, Span.ofOffsets_of_le (Nat.le_add_right _ _) small]

/-- A key that touches dashes is the last token, and starts where the text before it ends. -/
theorem exists_tokensOf_append_key {front : List Token} {dashes : Token} {key : String}
    (tokens : tokensOf base = front ++ [dashes]) (isDashes : dashes.kind = .doubleDash)
    (isName : isName key.toList = true) (small : (base ++ key).utf8ByteSize ≤ Span.limit) :
    ∃ name, tokensOf (base ++ key) = front ++ [dashes, name] ∧ name.kind = .identifier ∧
      name.text = key ∧ name.start = byteLength base.toList := by
  have joint : ∀ t ∈ (tokensOf base).getLast?, t.kind.IsJoint := by
    intro t last
    rw [tokens, List.getLast?_concat] at last
    cases last
    exact Or.inl isDashes
  refine ⟨.covering .identifier key (byteLength base.toList) key.toList, ?_, rfl, rfl, ?_⟩
  · rw [tokensOf_append_joint joint, tokensFrom_name isName, tokens, List.append_assoc]
    rfl
  · rw [String.utf8ByteSize_append, ← byteLength_toList] at small
    simp only [Token.covering, Token.start, Span.ofOffsets]
    omega

section Stops

variable {t : Topology} (parsed : Topology.parse base = .ok t) (unbound : t.sink = none)

include parsed in
theorem closed_of_parse : Closed (tokensOf base) := by
  obtain ⟨c, all, -⟩ := topologyParse_eq_ok_iff_readAll.mp parsed
  exact .of_sound (Cursor.not_error_of_readAll all)

include parsed unbound

/-- After dashes the key of a parameter is asked for. -/
theorem exists_stopsAfter_dashes (small : (base ++ " --").utf8ByteSize ≤ Span.limit) :
    ∃ e dashes, StopsAfter (base ++ " --") t .propertyName [dashes] e := by
  obtain ⟨ts, us, d, s, -, -, -, rfl, reaches⟩ := exists_draft_of_parse parsed unbound
  obtain ⟨dashes, tokens, isDashes, -⟩ :=
    exists_tokensOf_append_dashes (closed_of_parse parsed) small
  have reads : ∀ c : Cursor, c.state = .stage d s →
      c.readAll [dashes] = .ok ⟨.dashes d s, dashes.start, [dashes]⟩ := by
    intro c state
    rw [Cursor.readAll_singleton]
    exact Cursor.read_dashes state isDashes
  obtain ⟨e, stops⟩ := exists_stopsAfter tokens reaches reads rfl small
  exact ⟨e, dashes, stops⟩

/-- After a key its equals sign is asked for. -/
theorem exists_stopsAfter_key {key : String} (isName : isName key.toList = true)
    (small : (base ++ " --" ++ key).utf8ByteSize ≤ Span.limit) :
    ∃ e dashes name, StopsAfter (base ++ " --" ++ key) t .equals [dashes, name] e ∧
      name.kind = .identifier ∧ name.text = key ∧
      Text.upTo (base ++ " --" ++ key) name.start = base ++ " --" := by
  obtain ⟨ts, us, d, s, -, -, -, rfl, reaches⟩ := exists_draft_of_parse parsed unbound
  have small' : (base ++ " --").utf8ByteSize ≤ Span.limit := by
    rw [String.utf8ByteSize_append] at small
    omega
  obtain ⟨dashes, tokens, isDashes, stop⟩ :=
    exists_tokensOf_append_dashes (closed_of_parse parsed) small'
  obtain ⟨name, tokens', isKey, text, start⟩ :=
    exists_tokensOf_append_key tokens isDashes isName small
  have reads : ∀ c : Cursor, c.state = .stage d s →
      c.readAll [dashes, name] = .ok ⟨.key d s name.text, dashes.start, [dashes, name]⟩ := by
    intro c state
    have touch : dashes.stop = name.start := stop.trans start.symm
    have readKey : Cursor.read ⟨.dashes d s, dashes.start, [dashes]⟩ name = .ok _ :=
      Cursor.read_key isKey touch
    simp only [Cursor.readAll, Cursor.read_dashes state isDashes, readKey]
  obtain ⟨e, stops⟩ := exists_stopsAfter tokens' reaches reads rfl small
  refine ⟨e, dashes, name, stops, isKey, text, ?_⟩
  rw [start, Text.upTo_byteLength (String.toList_append ..), String.ofList_toList]

/-- After a pipe the name of a module is asked for. -/
theorem exists_stopsAfter_pipe (small : (base ++ " |").utf8ByteSize ≤ Span.limit) :
    ∃ e pipe, StopsAfter (base ++ " |") t .moduleName [pipe] e := by
  obtain ⟨ts, us, d, s, -, -, -, rfl, reaches⟩ := exists_draft_of_parse parsed unbound
  have bar : " |".toList = [' ', '|'] := rfl
  obtain ⟨pipe, tokens, isPipe⟩ : ∃ pipe, tokensOf (base ++ " |") = tokensOf base ++ [pipe] ∧
      pipe.kind = .pipe := by
    rw [tokensOf_append (closed_of_parse parsed) (bar ▸ startsBreak_cons.mpr rfl), bar,
      tokensFrom_separator rfl, tokensFrom_operator rfl (fun _ => rfl), tokensFrom]
    exact ⟨_, rfl, rfl⟩
  have reads : ∀ c : Cursor, c.state = .stage d s →
      c.readAll [pipe] = .ok ⟨.stageStart (d.push s), pipe.start, [pipe]⟩ := by
    intro c state
    rw [Cursor.readAll_singleton]
    exact Cursor.read_pipe state isPipe
  obtain ⟨e, stops⟩ := exists_stopsAfter tokens reaches reads rfl small
  exact ⟨e, pipe, stops⟩

end Stops

/-! ## Going on with a key -/

/-- Whether the text ends where the grammar asks for the value of a parameter with this key, and has
the topology up to the parameter. -/
def AwaitsValue (text : String) (t : Topology) (key : String) : Prop :=
  ∃ e, Topology.parse text = .error e ∧ e.expectation = .value ∧ e.atEnd = true ∧
    (∃ dashes name equals, e.pending = [dashes, name, equals] ∧ dashes.kind = .doubleDash ∧
      name.kind = .identifier ∧ name.text = key ∧ equals.kind = .equals) ∧
    e.typed? = some t

/-- After the dashes of a parameter a key may be written, with an equals sign. -/
theorem awaitsValue_append_key {front : List Token} {dashes : Token}
    (tokens : tokensOf base = front ++ [dashes]) (isDashes : dashes.kind = .doubleDash)
    (reaches : Cursor.start.Reaches front (.stage done current))
    (touch : dashes.stop = byteLength base.toList) {key : String}
    (isName : isName key.toList = true)
    (small : (base ++ key ++ "=").utf8ByteSize ≤ Span.limit) :
    AwaitsValue (base ++ key ++ "=") ((done.push current).topology none) key := by
  let place := byteLength base.toList
  let name := Token.covering .identifier key place key.toList
  let equals := Token.covering .equals "=" (place + byteLength key.toList) ['=']
  have joint : ∀ t ∈ (tokensOf base).getLast?, t.kind.IsJoint := by
    intro t last
    rw [tokens, List.getLast?_concat] at last
    cases last
    exact Or.inl isDashes
  have inside : place ≤ Span.limit := by
    rw [String.utf8ByteSize_append, String.utf8ByteSize_append, ← byteLength_toList] at small
    omega
  have chars : (key ++ "=").toList = key.toList ++ ['='] := by simp
  have tokens' : tokensOf (base ++ key ++ "=") = front ++ [dashes, name, equals] := by
    have named := tokensFrom_name isName place
    rw [String.append_assoc, tokensOf_append_joint joint, chars,
      tokensFrom_one_append named nofun (startsBreak_cons.mpr rfl),
      tokensFrom_operator rfl (fun _ => rfl), tokensFrom, tokens, List.append_assoc]
    rfl
  have toKey : dashes.stop = name.start := by
    simp only [touch, name, Token.covering, Token.start, Span.ofOffsets]
    omega
  obtain ⟨e, stops⟩ := exists_stopsAfter tokens' reaches
    (fun _ state => Cursor.readAll_parameterStart state isDashes rfl rfl toKey
      (Token.stop_covering ..)) rfl small
  exact ⟨e, stops.fails, stops.expects, stops.atEnd,
    ⟨dashes, name, equals, stops.pending, isDashes, rfl, rfl, rfl⟩, stops.typed⟩

/-- A key may be written after a stream, after dashes of its own. -/
theorem awaitsValue_append_option {t : Topology} (parsed : Topology.parse base = .ok t)
    (unbound : t.sink = none) {key : String} (isName : isName key.toList = true)
    (small : (base ++ " --" ++ key ++ "=").utf8ByteSize ≤ Span.limit) :
    AwaitsValue (base ++ " --" ++ key ++ "=") t key := by
  obtain ⟨ts, us, d, s, -, -, -, rfl, reaches⟩ := exists_draft_of_parse parsed unbound
  have small' : (base ++ " --").utf8ByteSize ≤ Span.limit := by
    rw [String.utf8ByteSize_append, String.utf8ByteSize_append] at small
    omega
  obtain ⟨dashes, tokens, isDashes, stop⟩ :=
    exists_tokensOf_append_dashes (closed_of_parse parsed) small'
  exact awaitsValue_append_key tokens isDashes reaches stop isName small

/-! ## Going on with a value -/

/-- After the equals sign of a parameter any value may be written. -/
theorem parse_append_value {front : List Token} {dashes key equals : Token}
    (tokens : tokensOf base = front ++ [dashes, key, equals]) (isDashes : dashes.kind = .doubleDash)
    (isKey : key.kind = .identifier) (isEquals : equals.kind = .equals)
    (toKey : dashes.stop = key.start) (toEquals : key.stop = equals.start)
    (reaches : Cursor.start.Reaches front (.stage done current))
    (touch : equals.stop = byteLength base.toList) (small : base.utf8ByteSize ≤ Span.limit)
    (value : String) :
    Topology.parse (base ++ Value.render value) =
      .ok ((done.push (current.withParameter key.text value)).topology none) := by
  have joint : ∀ t ∈ (tokensOf base).getLast?, t.kind.IsJoint := by
    intro t last
    rw [tokens, List.getLast?_append_of_ne_nil _ (by simp)] at last
    cases last
    exact Or.inr isEquals
  obtain ⟨kind, isValue, written⟩ := tokensFrom_value value (byteLength base.toList)
  generalize made : Token.covering kind value (byteLength base.toList)
    (Value.render value).toList = last at written
  have tokens' : tokensOf (base ++ Value.render value) = front ++ [dashes, key, equals, last] := by
    rw [tokensOf_append_joint joint, written, tokens, List.append_assoc]
    rfl
  have toValue : equals.stop = last.start := by
    rw [← byteLength_toList] at small
    simp only [touch, ← made, Token.covering, Token.start, Span.ofOffsets]
    omega
  have spells : SpellsParameter [dashes, key, equals, last] (key.text, value) := by
    have isValue' : last.kind = .identifier ∨ last.kind = .literal := by rwa [← made]
    have text : last.text = value := by rw [← made]; rfl
    rw [← text]
    exact .intro isDashes isKey isEquals isValue' toKey toEquals toValue
  obtain ⟨c, all, state⟩ := reaches.append [dashes, key, equals, last]
    fun _ state => spells.reaches state
  rw [← tokens'] at all
  exact topologyParse_eq_ok_iff_readAll.mpr ⟨c, all, by rw [state]; rfl⟩

/-! ## Going on with a name -/

/-- Tokens of a draft, of a label that may be left out, and of a name are those of a stream. -/
theorem parse_of_spellsDraft {ts ls : List Token} {name : Token} {d : Draft}
    {label : Option String} (draft : SpellsDraft ts d) (labels : SpellsLabel ls label)
    (isName : name.kind = .identifier) (tokens : tokensOf text = ts ++ ls ++ [name]) :
    Topology.parse text =
      .ok ⟨d.source, d.latest.reverse ++ [⟨name.text, label, .empty⟩], none⟩ := by
  have stage : SpellsStage (ls ++ [name]) ⟨name.text, label, .empty⟩ :=
    .intro labels isName .nil (OrderedMap.collects_ofList [])
  have spelled := Spelled.stage draft stage
  rw [← List.append_assoc, ← tokens] at spelled
  have spells := spelled.stream rfl (rfl : (endOf text).kind = .eof)
  rw [Draft.topology, Draft.push, List.reverse_cons] at spells
  exact topologyParse_eq_ok_iff.mpr spells

/-- A stage may be written after a stream, after a pipe. -/
theorem parse_append_pipe {t : Topology} (parsed : Topology.parse base = .ok t)
    (unbound : t.sink = none) {name : String} (isName : isName name.toList = true) :
    Topology.parse (base ++ " | " ++ name) = .ok ⟨t.source, t.stages ++ [.named name], none⟩ := by
  obtain ⟨ts, us, d, s, split, draft, spells, rfl, -⟩ := exists_draft_of_parse parsed unbound
  have closed := closed_of_parse parsed
  have pipe : (" | " ++ name).toList = ' ' :: '|' :: ' ' :: name.toList := by simp
  obtain ⟨m, n, tokens⟩ : ∃ m n, tokensOf (base ++ " | " ++ name) =
      ts ++ us ++ [.covering .pipe "|" m ['|']] ++ [] ++
        [.covering .identifier name n name.toList] := by
    rw [String.append_assoc, tokensOf_append closed (pipe ▸ startsBreak_cons.mpr rfl), pipe,
      tokensFrom_separator rfl, tokensFrom_operator rfl (fun _ => rfl), tokensFrom_separator rfl,
      tokensFrom_name isName, split]
    exact ⟨_, _, by rw [List.append_nil, List.append_assoc (ts ++ us)]; rfl⟩
  rw [parse_of_spellsDraft (.push draft spells rfl) .absent rfl tokens]
  simp [Draft.push, Draft.topology, Stage.named, Token.covering]

/-- Where the name of a module is asked for, the tokens are those of a draft and of a label that may
be left out. -/
theorem exists_draft_of_readAll {ts : List Token} (all : Cursor.start.readAll ts = .ok c)
    (expects : c.state.expectation = .moduleName) :
    ∃ us ls d label, ts = us ++ ls ∧ SpellsDraft us d ∧ SpellsLabel ls label ∧
      c.state.Before d := by
  have spelled := spelled_of_readAll all
  generalize c.state = p at spelled expects
  cases spelled with
  | start => exact ⟨[], [], _, none, rfl, .nil, .absent, .start⟩
  | stageStart draft => exact ⟨ts, [], _, none, by simp, draft, .absent, .stageStart⟩
  | labelled draft isLabel => exact ⟨_, _, _, _, rfl, draft, .present isLabel, .labelled⟩
  | _ => cases expects

/-- A stage without parameters is spelled by a label that may be left out and a name. -/
theorem SpellsStage.of_isEmpty {ts : List Token} {s : Stage} (spells : SpellsStage ts s)
    (empty : s.parameters.isEmpty = true) :
    ∃ ls name, ts = ls ++ [name] ∧ SpellsLabel ls s.label ∧ name.kind = .identifier ∧
      name.text = s.name := by
  cases spells with
  | @intro ls ps name label pairs parameters labels isName spells collects =>
      have none : pairs = [] := by
        have keys := collects.keys
        rw [OrderedMap.isEmpty, List.isEmpty_iff] at empty
        rw [OrderedMap.keys, empty] at keys
        cases pairs with
        | nil => rfl
        | cons e pairs => simp [List.eraseDups_cons] at keys
      subst none
      cases spells with
      | nil => exact ⟨ls, name, rfl, labels, isName, rfl⟩

/-- The last name of a text that ends in it may be replaced by one that starts in the same way. -/
theorem exists_tokensOf_replace {before name : String} {front : List Token} {last : Token}
    (tokens : tokensOf text = front ++ [last]) (identifier : last.kind = .identifier)
    (split : text = before ++ last.text) (isName : isName name.toList = true)
    (head : last.text.toList.head? = name.toList.head?) :
    ∃ t, tokensOf (before ++ name) = front ++ [t] ∧ t.kind = .identifier ∧ t.text = name := by
  obtain ⟨pre, c, post, chars, boundary, visible, -, right⟩ := exists_boundary_of_tokensFrom tokens
  obtain ⟨w, rest, rfl, covered, made, others⟩ := exists_lexeme_of_tokensFrom visible right
  have separators := isSeparator_of_tokensFrom_eq_nil others.symm
  have lexes := Lexeme.lexes_read visible covered
  have covers : last.text = String.ofList (c :: w) := by
    rw [made] at identifier ⊢
    exact lexes.text_of_identifier identifier
  have visible' : ∀ d ∈ (c :: w).getLast?, isBlank d = false := by
    rw [made] at identifier
    exact lexes.not_isBlank_getLast fun cause error => by
      rw [Lexeme.kind_place, error] at identifier
      cases identifier
  rw [covers] at split head
  rw [String.toList_ofList] at head
  have chars' : before.toList ++ c :: w = pre ++ c :: (w ++ rest) := by
    rw [← chars, split, String.toList_append, String.toList_ofList]
  -- Nothing stands after the name, because the text ends in it.
  have ended : rest = [] := by
    rcases List.eq_nil_or_concat rest with none | ⟨blanks, d, rfl⟩
    · exact none
    · exfalso
      have latest : (c :: w).getLast? = some d := by
        have same := congrArg List.getLast? chars'
        rw [List.getLast?_append_of_ne_nil _ (by simp), List.concat_eq_append,
          ← List.append_assoc, ← List.cons_append, ← List.append_assoc,
          List.getLast?_concat] at same
        exact same
      have blank := isBlank_of_isSeparator (separators d (by simp))
      rw [visible' d latest] at blank
      cases blank
  subst ended
  rw [List.append_nil] at chars' boundary right
  obtain rfl := List.append_cancel_right chars'
  obtain ⟨bs, whole, whole'⟩ := boundary.tokensFrom_congr head 0
  rw [right, ← chars', ← String.toList_ofList (l := c :: w), ← String.toList_append,
    ← split] at whole
  obtain rfl := List.append_cancel_right (tokens.symm.trans whole)
  rw [tokensFrom_name isName] at whole'
  exact ⟨_, by rw [tokensOf, String.toList_append]; exact whole', rfl, rfl⟩

end StreamLang
