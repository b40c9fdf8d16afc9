import StreamLang.Proofs.OrderedMap
import StreamLang.Proofs.Stream.Reading

/-!
The grammar of stream definitions, apart from any way to read them.

`SpellsStream` relates the tokens of a whole text to the topology that they spell. Reading accepts
exactly the token lists that the grammar derives, with the topology of the derivation:
`SpellsStream.run` is completeness and `spellsStream_of_run` is soundness. Soundness rests on
`Spelled`, which says for every position in the grammar which tokens lead there.
-/

namespace StreamLang

/-! ## The grammar -/

/-- The tokens of a parameter, each touching the next, with its key and its value. -/
inductive SpellsParameter : List Token → String × String → Prop
  | intro {dashes key equals value : Token} :
    dashes.kind = .doubleDash → key.kind = .identifier → equals.kind = .equals →
    value.kind = .identifier ∨ value.kind = .literal →
    dashes.stop = key.start → key.stop = equals.start → equals.stop = value.start →
    SpellsParameter [dashes, key, equals, value] (key.text, value.text)

/-- The tokens of parameters, one after the other. -/
inductive SpellsParameters : List Token → List (String × String) → Prop
  | nil : SpellsParameters [] []
  | cons {ts us : List Token} {pair : String × String} {pairs : List (String × String)} :
    SpellsParameter ts pair → SpellsParameters us pairs →
    SpellsParameters (ts ++ us) (pair :: pairs)

/-- The tokens of a label that may be left out. -/
inductive SpellsLabel : List Token → Option String → Prop
  | absent : SpellsLabel [] none
  | present {label : Token} : label.kind = .label → SpellsLabel [label] (some label.text)

/-- The tokens of a stage: a label, a name and parameters. -/
inductive SpellsStage : List Token → Stage → Prop
  | intro {ls ps : List Token} {name : Token} {label : Option String}
    {pairs : List (String × String)} {parameters : OrderedMap String String} :
    SpellsLabel ls label → name.kind = .identifier → SpellsParameters ps pairs →
    parameters.Collects pairs → SpellsStage (ls ++ name :: ps) ⟨name.text, label, parameters⟩

/-- The tokens of one or more stages, with pipes between them. -/
inductive SpellsStages : List Token → List Stage → Prop
  | one {ts : List Token} {s : Stage} : SpellsStage ts s → SpellsStages ts [s]
  | cons {ts us : List Token} {pipe : Token} {s : Stage} {ss : List Stage} :
    SpellsStage ts s → pipe.kind = .pipe → SpellsStages us ss →
    SpellsStages (ts ++ pipe :: us) (s :: ss)

/-- The tokens of a destination that feeds the stream and may be left out. -/
inductive SpellsSource : List Token → Option String → Prop
  | absent : SpellsSource [] none
  | present {destination arrow : Token} : destination.kind = .destination → arrow.kind = .gt →
    SpellsSource [destination, arrow] (some destination.text)

/-- The tokens of a destination that the stream feeds and that may be left out. -/
inductive SpellsSink : List Token → Option String → Prop
  | absent : SpellsSink [] none
  | present {arrow destination : Token} : arrow.kind = .gt → destination.kind = .destination →
    SpellsSink [arrow, destination] (some destination.text)

/-- The tokens of a whole text, with the one for its end. -/
inductive SpellsStream : List Token → Topology → Prop
  | intro {os ts is : List Token} {stop : Token} {source sink : Option String}
    {stages : List Stage} :
    SpellsSource os source → SpellsStages ts stages → SpellsSink is sink → stop.kind = .eof →
    SpellsStream (os ++ ts ++ is ++ [stop]) ⟨source, stages, sink⟩

/-! ## Reading what the grammar derives -/

namespace Cursor

/-- Reading the tokens leads to the position. -/
def Reaches (c : Cursor) (ts : List Token) (p : PartialStream) : Prop :=
  ∃ d, c.readAll ts = .ok d ∧ d.state = p

variable {c : Cursor} {ts us : List Token} {p q : PartialStream}

theorem Reaches.append (first : c.Reaches ts p) (us : List Token)
    (second : ∀ d : Cursor, d.state = p → d.Reaches us q) : c.Reaches (ts ++ us) q := by
  obtain ⟨d, read, state⟩ := first
  obtain ⟨e, read', state'⟩ := second d state
  exact ⟨e, (readAll_append read us).trans read', state'⟩

/-- One token that need not touch the one before it. -/
theorem reaches_one {t : Token} (loose : c.state.expectation.isAdjacent = false)
    (next : c.state.next false t = some p) : c.Reaches [t] p := by
  rw [PartialStream.next_of_not_adjacent loose false ((c.mark t).touches t)] at next
  exact ⟨_, readAll_singleton.trans (read_eq_ok_iff.mpr ⟨p, next, rfl⟩), rfl⟩

end Cursor

/-- Gives a stage parameters, in order. -/
def Stage.withParameters (s : Stage) (pairs : List (String × String)) : Stage :=
  pairs.foldl (fun s e => s.withParameter e.1 e.2) s

theorem Stage.withParameters_eq (s : Stage) (pairs : List (String × String)) :
    s.withParameters pairs =
      { s with parameters := pairs.foldl (fun m e => m.insert e.1 e.2) s.parameters } := by
  induction pairs generalizing s with
  | nil => rfl
  | cons e pairs ih => exact ih (s.withParameter e.1 e.2)

variable {c : Cursor} {done : Draft} {current : Stage}

namespace Cursor

/-- What follows a stage takes the checkpoint. -/
theorem read_of_stage {t : Token} {p : PartialStream} (state : c.state = .stage done current)
    (next : (PartialStream.stage done current).next false t = some p) :
    c.read t = .ok ⟨p, t.start, [t]⟩ := by
  have marked : c.mark t = ⟨.stage done current, t.start, []⟩ := by
    rw [mark_of_isComplete t (by rw [state]; rfl), state]
  refine read_eq_ok_iff.mpr ⟨p, ?_, by rw [marked]; rfl⟩
  rw [state, marked]
  exact next

theorem read_dashes {dashes : Token} (state : c.state = .stage done current)
    (isDashes : dashes.kind = .doubleDash) :
    c.read dashes = .ok ⟨.dashes done current, dashes.start, [dashes]⟩ :=
  read_of_stage state (by simp only [PartialStream.next, isDashes])

theorem read_pipe {pipe : Token} (state : c.state = .stage done current)
    (isPipe : pipe.kind = .pipe) :
    c.read pipe = .ok ⟨.stageStart (done.push current), pipe.start, [pipe]⟩ :=
  read_of_stage state (by simp only [PartialStream.next, isPipe])

theorem read_key {dashes key : Token} {n : Nat} (isKey : key.kind = .identifier)
    (touchesKey : dashes.stop = key.start) :
    read ⟨.dashes done current, n, [dashes]⟩ key =
      .ok ⟨.key done current key.text, n, [dashes, key]⟩ := by
  refine read_eq_ok_iff.mpr ⟨.key done current key.text, ?_, rfl⟩
  simp [PartialStream.next, isKey, mark, PartialStream.isComplete, touches, touchesKey]

/-- A parameter up to its equals sign leaves the cursor at its dashes. -/
theorem readAll_parameterStart {dashes key equals : Token}
    (state : c.state = .stage done current) (isDashes : dashes.kind = .doubleDash)
    (isKey : key.kind = .identifier) (isEquals : equals.kind = .equals)
    (touchesKey : dashes.stop = key.start) (touchesEquals : key.stop = equals.start) :
    c.readAll [dashes, key, equals] =
      .ok ⟨.equals done current key.text, dashes.start, [dashes, key, equals]⟩ := by
  have readEquals : read ⟨.key done current key.text, dashes.start, [dashes, key]⟩ equals =
      .ok ⟨.equals done current key.text, dashes.start, [dashes, key, equals]⟩ := by
    refine read_eq_ok_iff.mpr ⟨.equals done current key.text, ?_, rfl⟩
    simp [PartialStream.next, isEquals, mark, PartialStream.isComplete, touches, touchesEquals]
  simp only [readAll, read_dashes state isDashes, read_key isKey touchesKey, readEquals]

end Cursor

theorem SpellsParameter.reaches {ts : List Token} {pair : String × String}
    (spells : SpellsParameter ts pair) (state : c.state = .stage done current) :
    c.Reaches ts (.stage done (current.withParameter pair.1 pair.2)) := by
  cases spells with
  | @intro dashes key equals value isDashes isKey isEquals isValue toKey toEquals toValue =>
      have started := Cursor.readAll_parameterStart state isDashes isKey isEquals toKey toEquals
      let opened : Cursor := ⟨.equals done current key.text, dashes.start, [dashes, key, equals]⟩
      let finished : Cursor := ⟨.stage done (current.withParameter key.text value.text),
        dashes.start, [dashes, key, equals, value]⟩
      have readValue : opened.read value = .ok finished := by
        refine Cursor.read_eq_ok_iff.mpr ⟨finished.state, ?_, rfl⟩
        rcases isValue with isValue | isValue <;>
          simp [opened, finished, PartialStream.next, isValue, Cursor.mark,
            PartialStream.isComplete, Cursor.touches, toValue]
      refine ⟨finished, ?_, rfl⟩
      rw [← readValue, ← Cursor.readAll_singleton]
      exact Cursor.readAll_append started [value]

theorem SpellsParameters.reaches {ts : List Token} {pairs : List (String × String)}
    (spells : SpellsParameters ts pairs) (state : c.state = .stage done current) :
    c.Reaches ts (.stage done (current.withParameters pairs)) := by
  induction spells generalizing c current with
  | nil => exact ⟨c, rfl, state⟩
  | cons first _ ih => exact (first.reaches state).append _ fun d state => ih state

/-- Whether a stage may start at the position, after the draft. -/
def PartialStream.StartsStage (p : PartialStream) (done : Draft) : Prop :=
  p = .stageStart done ∨ p = .start ∧ done = ⟨none, []⟩

theorem SpellsLabel.reaches {ts : List Token} {label : Option String} {name : Token}
    (spells : SpellsLabel ts label) (isName : name.kind = .identifier)
    (starts : c.state.StartsStage done) :
    c.Reaches (ts ++ [name]) (.stage done ⟨name.text, label, .empty⟩) := by
  have loose : c.state.expectation.isAdjacent = false := by
    rcases starts with state | ⟨state, -⟩ <;> rw [state] <;> rfl
  cases spells with
  | absent =>
      refine Cursor.reaches_one loose ?_
      rcases starts with state | ⟨state, rfl⟩ <;>
        simp [state, PartialStream.next, isName, Stage.named]
  | @present label isLabel =>
      have first : c.Reaches [label] (.labelled done label.text) := by
        refine Cursor.reaches_one loose ?_
        rcases starts with state | ⟨state, rfl⟩ <;> simp [state, PartialStream.next, isLabel]
      refine first.append [name] fun d state => Cursor.reaches_one (by rw [state]; rfl) ?_
      simp [state, PartialStream.next, isName, Stage.named, Stage.withLabel]

theorem SpellsStage.reaches {ts : List Token} {s : Stage} (spells : SpellsStage ts s)
    (starts : c.state.StartsStage done) : c.Reaches ts (.stage done s) := by
  cases spells with
  | @intro ls ps name label pairs parameters spellsLabel isName spellsParameters collects =>
      have parametersEq : parameters = OrderedMap.ofList pairs :=
        OrderedMap.collects_iff.mp collects
      have reaches := (spellsLabel.reaches isName starts).append ps
        fun d state => spellsParameters.reaches state
      rw [Stage.withParameters_eq] at reaches
      rw [parametersEq]
      simpa [OrderedMap.ofList] using reaches

/-- The stages of a topology are read to the last of them. -/
theorem SpellsStages.reaches {ts : List Token} {ss : List Stage} (spells : SpellsStages ts ss)
    (starts : c.state.StartsStage done) :
    ∃ done' last, c.Reaches ts (.stage done' last) ∧ done'.source = done.source ∧
      (done'.push last).latest = ss.reverse ++ done.latest := by
  induction spells generalizing c done with
  | @one ts s spells => exact ⟨done, s, spells.reaches starts, rfl, rfl⟩
  | @cons ts us pipe s ss spells isPipe rest ih =>
      have first := (spells.reaches starts).append [pipe] fun d state =>
        Cursor.reaches_one (p := .stageStart (done.push s)) (by rw [state]; rfl)
          (by simp [state, PartialStream.next, isPipe])
      obtain ⟨d, read, state⟩ := first
      obtain ⟨done', last, ⟨e, read', state'⟩, source, latest⟩ := ih (Or.inl state)
      refine ⟨done', last, ⟨e, ?_, state'⟩, source, ?_⟩
      · rw [List.append_cons]
        exact (Cursor.readAll_append read us).trans read'
      · rw [latest]
        simp [Draft.push]

theorem SpellsSource.reaches {ts : List Token} {source : Option String}
    (spells : SpellsSource ts source) :
    ∃ p, Cursor.start.Reaches ts p ∧ p.StartsStage ⟨source, []⟩ := by
  cases spells with
  | absent => exact ⟨.start, ⟨.start, rfl, rfl⟩, Or.inr ⟨rfl, rfl⟩⟩
  | @present destination arrow isDestination isArrow =>
      have first : Cursor.start.Reaches [destination] (.source destination.text) :=
        Cursor.reaches_one rfl (by simp [Cursor.start, PartialStream.next, isDestination])
      refine ⟨_, first.append [arrow] fun d state =>
        Cursor.reaches_one (by rw [state]; rfl) ?_, Or.inl rfl⟩
      simp [state, PartialStream.next, isArrow]

theorem SpellsSink.reaches {ts : List Token} {sink : Option String} (spells : SpellsSink ts sink)
    (state : c.state = .stage done current) :
    ∃ p, c.Reaches ts p ∧ p.topology? = some ((done.push current).topology sink) := by
  cases spells with
  | absent => exact ⟨_, ⟨c, rfl, state⟩, rfl⟩
  | @present arrow destination isArrow isDestination =>
      have first : c.Reaches [arrow] (.arrow (done.push current)) :=
        Cursor.reaches_one (by rw [state]; rfl) (by simp [state, PartialStream.next, isArrow])
      refine ⟨.closed (done.push current) destination.text,
        first.append [destination] fun d state =>
          Cursor.reaches_one (by rw [state]; rfl) ?_, rfl⟩
      simp [state, PartialStream.next, isDestination]

/-- Reading accepts what the grammar derives. -/
theorem SpellsStream.run {ts : List Token} {stop : Token} {t : Topology}
    (spells : SpellsStream (ts ++ [stop]) t) : Cursor.start.run stop ts = .ok t := by
  generalize whole : ts ++ [stop] = tokens at spells
  cases spells with
  | @intro os us is stop' source sink stages spellsSource spellsStages spellsSink isStop =>
      obtain ⟨rfl, -⟩ := List.append_inj' whole rfl
      obtain ⟨p, ⟨c, readSource, atSource⟩, starts⟩ := spellsSource.reaches
      obtain ⟨done, last, ⟨d, readStages, atStages⟩, sourceEq, latest⟩ :=
        spellsStages.reaches (atSource ▸ starts)
      obtain ⟨q, ⟨e, readSink, atSink⟩, topology⟩ := spellsSink.reaches atStages
      have read : Cursor.start.readAll (os ++ us ++ is) = .ok e := by
        rw [List.append_assoc, Cursor.readAll_append readSource,
          Cursor.readAll_append readStages, readSink]
      refine Cursor.run_eq_ok_iff.mpr ⟨e, read, ?_⟩
      rw [atSink, topology]
      have sourceEq' : (done.push last).source = source := sourceEq
      simp only [Draft.topology, sourceEq', latest]
      simp

/-! ## Deriving what reading accepts -/

/-- The tokens of a draft: a source, and stages with a pipe after each of them. -/
inductive SpellsDraft : List Token → Draft → Prop
  | source {ts : List Token} {source : Option String} :
    SpellsSource ts source → SpellsDraft ts ⟨source, []⟩
  | push {ts us : List Token} {pipe : Token} {d : Draft} {s : Stage} :
    SpellsDraft ts d → SpellsStage us s → pipe.kind = .pipe →
    SpellsDraft (ts ++ us ++ [pipe]) (d.push s)

/-- The tokens that lead to a position in the grammar. -/
inductive Spelled : PartialStream → List Token → Prop
  | start : Spelled .start []
  | source {t : Token} : t.kind = .destination → Spelled (.source t.text) [t]
  | stageStart {ts : List Token} {d : Draft} : SpellsDraft ts d → Spelled (.stageStart d) ts
  | labelled {ts : List Token} {t : Token} {d : Draft} :
    SpellsDraft ts d → t.kind = .label → Spelled (.labelled d t.text) (ts ++ [t])
  | stage {ts us : List Token} {d : Draft} {s : Stage} :
    SpellsDraft ts d → SpellsStage us s → Spelled (.stage d s) (ts ++ us)
  | dashes {ts us : List Token} {dashes : Token} {d : Draft} {s : Stage} :
    SpellsDraft ts d → SpellsStage us s → dashes.kind = .doubleDash →
    Spelled (.dashes d s) (ts ++ us ++ [dashes])
  | key {ts us : List Token} {dashes key : Token} {d : Draft} {s : Stage} :
    SpellsDraft ts d → SpellsStage us s → dashes.kind = .doubleDash → key.kind = .identifier →
    dashes.stop = key.start → Spelled (.key d s key.text) (ts ++ us ++ [dashes, key])
  | equals {ts us : List Token} {dashes key equals : Token} {d : Draft} {s : Stage} :
    SpellsDraft ts d → SpellsStage us s → dashes.kind = .doubleDash → key.kind = .identifier →
    equals.kind = .equals → dashes.stop = key.start → key.stop = equals.start →
    Spelled (.equals d s key.text) (ts ++ us ++ [dashes, key, equals])
  | arrow {ts us : List Token} {arrow : Token} {d : Draft} {s : Stage} :
    SpellsDraft ts d → SpellsStage us s → arrow.kind = .gt →
    Spelled (.arrow (d.push s)) (ts ++ us ++ [arrow])
  | closed {ts us : List Token} {arrow destination : Token} {d : Draft} {s : Stage} :
    SpellsDraft ts d → SpellsStage us s → arrow.kind = .gt → destination.kind = .destination →
    Spelled (.closed (d.push s) destination.text) (ts ++ us ++ [arrow, destination])

theorem SpellsParameters.concat {ts us : List Token} {pairs : List (String × String)}
    {pair : String × String} (first : SpellsParameters ts pairs) (last : SpellsParameter us pair) :
    SpellsParameters (ts ++ us) (pairs ++ [pair]) := by
  induction first with
  | nil =>
      have one := SpellsParameters.cons last .nil
      rwa [List.append_nil] at one
  | cons head _ ih =>
      rw [List.append_assoc]
      exact .cons head ih

/-- A stage goes on with one more parameter. -/
theorem SpellsStage.parameter {ts us : List Token} {s : Stage} {pair : String × String}
    (spells : SpellsStage ts s) (last : SpellsParameter us pair) :
    SpellsStage (ts ++ us) (s.withParameter pair.1 pair.2) := by
  cases spells with
  | @intro ls ps name label pairs parameters spellsLabel isName spellsParameters collects =>
      have collects' : (parameters.insert pair.1 pair.2).Collects (pairs ++ [pair]) := by
        rw [OrderedMap.collects_iff, OrderedMap.ofList_concat,
          ← OrderedMap.collects_iff.mp collects]
      have longer := SpellsStage.intro spellsLabel isName (spellsParameters.concat last) collects'
      rw [List.append_assoc, List.cons_append]
      exact longer

theorem SpellsDraft.nil : SpellsDraft [] ⟨none, []⟩ := .source .absent

theorem SpellsDraft.stageName {ts : List Token} {d : Draft} {name : Token}
    (draft : SpellsDraft ts d) (isName : name.kind = .identifier) :
    Spelled (.stage d (.named name.text)) (ts ++ [name]) :=
  .stage draft (.intro .absent isName .nil (OrderedMap.collects_ofList []))

/-- One token leads from a position to the next. -/
theorem Spelled.next {p q : PartialStream} {ts : List Token} {t : Token} {touching : Bool}
    (spelled : Spelled p ts) (next : p.next touching t = some q)
    (touches : touching = true → ∃ u, ts.getLast? = some u ∧ u.stop = t.start) :
    Spelled q (ts ++ [t]) := by
  cases PartialStream.step_of_next next with
  | source kind =>
      cases spelled
      exact .source kind
  | firstLabel kind =>
      cases spelled
      exact .labelled .nil kind
  | firstName kind =>
      cases spelled
      exact SpellsDraft.nil.stageName kind
  | arrowOfSource kind =>
      cases spelled with
      | source isDestination => exact .stageStart (.source (.present isDestination kind))
  | label kind =>
      cases spelled with
      | stageStart draft => exact .labelled draft kind
  | name kind =>
      cases spelled with
      | stageStart draft => exact draft.stageName kind
  | labelledName kind =>
      cases spelled with
      | labelled draft isLabel =>
          rw [List.append_assoc]
          exact .stage draft (.intro (.present isLabel) kind .nil (OrderedMap.collects_ofList []))
  | pipe kind =>
      cases spelled with
      | stage draft spells => exact .stageStart (.push draft spells kind)
  | dashes kind =>
      cases spelled with
      | stage draft spells => exact .dashes draft spells kind
  | arrow kind =>
      cases spelled with
      | stage draft spells => exact .arrow draft spells kind
  | key kind yes =>
      cases spelled with
      | @dashes us vs dashes d s draft spells isDashes =>
          obtain ⟨u, last, toKey⟩ := touches yes
          rw [List.getLast?_concat] at last
          cases last
          rw [List.append_assoc]
          exact .key draft spells isDashes kind toKey
  | equals kind yes =>
      cases spelled with
      | @key us vs dashes key d s draft spells isDashes isKey toKey =>
          obtain ⟨u, last, toEquals⟩ := touches yes
          rw [List.getLast?_append_of_ne_nil _ (by simp)] at last
          cases last
          rw [List.append_assoc]
          exact .equals draft spells isDashes isKey kind toKey toEquals
  | value kind yes =>
      cases spelled with
      | @equals us vs dashes key equals d s draft spells isDashes isKey isEquals toKey toEquals =>
          obtain ⟨u, last, toValue⟩ := touches yes
          rw [List.getLast?_append_of_ne_nil _ (by simp)] at last
          cases last
          rw [List.append_assoc, List.append_assoc]
          exact .stage draft (spells.parameter
            (.intro isDashes isKey isEquals kind toKey toEquals toValue))
  | destination kind =>
      cases spelled with
      | arrow draft spells isArrow =>
          rw [List.append_assoc]
          exact .closed draft spells isArrow kind

/-- A cursor has a position to which the tokens read so far lead. -/
theorem spelled_of_readAll {ts : List Token} (all : Cursor.start.readAll ts = .ok c) :
    Spelled c.state ts := by
  refine Cursor.readAll_induction (motive := fun ts c => Spelled c.state ts) .start ?_ all
  intro ts c t d first spelled read
  obtain ⟨state, next, rfl⟩ := Cursor.read_eq_ok_iff.mp read
  refine spelled.next next fun touching => ?_
  cases complete : c.state.isComplete with
  | true =>
      rw [Cursor.mark_of_isComplete t complete] at touching
      cases touching
  | false =>
      rw [Cursor.mark_of_not_isComplete t complete, Cursor.touches,
        Cursor.getLast?_pending first, Option.any_eq_true] at touching
      obtain ⟨u, latest, touch⟩ := touching
      exact ⟨u, latest, beq_iff_eq.mp touch⟩

/-- A draft and the stages after it, with the source in front. -/
theorem SpellsDraft.stages {ts us : List Token} {d : Draft} {ss : List Stage}
    (draft : SpellsDraft ts d) (rest : SpellsStages us ss) :
    ∃ os vs, ts ++ us = os ++ vs ∧ SpellsSource os d.source ∧
      SpellsStages vs (d.latest.reverse ++ ss) := by
  induction draft generalizing us ss with
  | @source ts source spells => exact ⟨ts, us, rfl, spells, rest⟩
  | @push ts us' pipe d s _ spells isPipe ih =>
      obtain ⟨os, vs, split, spellsSource, spellsStages⟩ := ih (.cons spells isPipe rest)
      refine ⟨os, vs, ?_, spellsSource, ?_⟩
      · rw [← split]
        simp
      · simpa [Draft.push] using spellsStages

/-- Where a stream may end, its tokens spell its topology. -/
theorem Spelled.stream {p : PartialStream} {ts : List Token} {stop : Token} {t : Topology}
    (spelled : Spelled p ts) (topology : p.topology? = some t) (isStop : stop.kind = .eof) :
    SpellsStream (ts ++ [stop]) t := by
  cases spelled with
  | stage draft spells =>
      cases topology
      obtain ⟨os, vs, split, spellsSource, spellsStages⟩ := draft.stages (.one spells)
      have stream := SpellsStream.intro spellsSource spellsStages .absent isStop
      rw [List.append_nil, ← split, ← List.reverse_cons] at stream
      exact stream
  | closed draft spells isArrow isDestination =>
      cases topology
      obtain ⟨os, vs, split, spellsSource, spellsStages⟩ := draft.stages (.one spells)
      have stream := SpellsStream.intro spellsSource spellsStages
        (.present isArrow isDestination) isStop
      rw [← split, ← List.reverse_cons] at stream
      exact stream
  | _ => cases topology

/-- What reading accepts is derived by the grammar. -/
theorem spellsStream_of_run {ts : List Token} {stop : Token} {t : Topology}
    (isStop : stop.kind = .eof) (accepts : Cursor.start.run stop ts = .ok t) :
    SpellsStream (ts ++ [stop]) t := by
  obtain ⟨c, all, topology⟩ := Cursor.run_eq_ok_iff.mp accepts
  exact (spelled_of_readAll all).stream topology isStop

theorem spellsStream_iff_run {ts : List Token} {stop : Token} {t : Topology}
    (isStop : stop.kind = .eof) :
    SpellsStream (ts ++ [stop]) t ↔ Cursor.start.run stop ts = .ok t :=
  ⟨SpellsStream.run, spellsStream_of_run isStop⟩

/-! ## What the grammar leaves out -/

theorem SpellsStages.ne_nil {ts : List Token} {ss : List Stage} (spells : SpellsStages ts ss) :
    ss ≠ [] := by
  cases spells <;> exact List.cons_ne_nil _ _

theorem SpellsStream.stages_ne_nil {ts : List Token} {t : Topology} (spells : SpellsStream ts t) :
    t.stages ≠ [] := by
  cases spells with
  | intro _ spellsStages _ _ => exact spellsStages.ne_nil

/-- The grammar derives no text with an error among its tokens. -/
theorem SpellsStream.not_error {ts : List Token} {stop : Token} {t : Topology}
    (spells : SpellsStream (ts ++ [stop]) t) : ∀ u ∈ ts, ∀ cause, u.kind ≠ .error cause := by
  obtain ⟨c, all, -⟩ := Cursor.run_eq_ok_iff.mp spells.run
  exact Cursor.not_error_of_readAll all

/-! ## Parsing -/

/-- A text has a topology exactly when the grammar derives it from the tokens of the text. -/
theorem topologyParse_eq_ok_iff {text : String} {t : Topology} :
    Topology.parse text = .ok t ↔ SpellsStream (tokenize text) t := by
  rw [tokenize, spellsStream_iff_run rfl, topologyParse_eq_ok_iff_run]

/-- Parsing accepts exactly the texts whose tokens the grammar derives, with the stream of the
derivation. Such a text has a stage, and every one of its tokens belongs to the stream. -/
theorem parse_iff_spellsStream (name text : String) :
    (∀ s : Stream, Stream.parse name text = .ok s ↔
      SpellsStream (tokenize text) s.toTopology ∧ s.name = name ∧ s.text = text) ∧
    ∀ s, Stream.parse name text = .ok s →
      s.stages ≠ [] ∧ ∀ t ∈ tokenize text, ∀ cause, t.kind ≠ .error cause := by
  have accepts : ∀ s : Stream, Stream.parse name text = .ok s ↔
      SpellsStream (tokenize text) s.toTopology ∧ s.name = name ∧ s.text = text := by
    intro s
    rw [streamParse_eq_ok_iff, topologyParse_eq_ok_iff]
  refine ⟨accepts, fun s parsed => ?_⟩
  obtain ⟨spells, -, -⟩ := (accepts s).mp parsed
  refine ⟨spells.stages_ne_nil, fun t member => ?_⟩
  rcases List.mem_append.mp member with inside | last
  · exact spells.not_error t inside
  · cases List.mem_singleton.mp last
    intro cause
    exact TokenKind.noConfusion

/-- A parameter that is given twice keeps its first place and has its last value. -/
theorem parse_iff_spellsStream_repeated :
    ∃ s, Stream.parse "" "a --k=1 --j=x --k=2" = .ok s ∧
      SpellsStream (tokenize "a --k=1 --j=x --k=2") s.toTopology ∧ s.stages ≠ [] ∧
      s.stages.map (fun stage => stage.parameters.entries) = [[("k", "2"), ("j", "x")]] := by
  obtain ⟨s, parsed, entries⟩ : ∃ s, Stream.parse "" "a --k=1 --j=x --k=2" = .ok s ∧
      s.stages.map (fun stage => stage.parameters.entries) = [[("k", "2"), ("j", "x")]] :=
    ⟨_, rfl, rfl⟩
  obtain ⟨accepts, complete⟩ := parse_iff_spellsStream "" "a --k=1 --j=x --k=2"
  exact ⟨s, parsed, ((accepts s).mp parsed).1, (complete s parsed).1, entries⟩

end StreamLang
