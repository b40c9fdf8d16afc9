import StreamLang.Proofs.Completion.Agreement
import StreamLang.Proofs.Completion.Strategies

/-!
Separators at the end of a text.

Separators at the end add no token, so the text is read as before and stops at the same place
(`Cursor.readAll_append_separators`). What strategies propose stands after the text without its
blanks, or after the start of a token, and both are as before. There are two exceptions. A name with
separators after it is finished, so no longer name is proposed for it. And a name that is added
stands right after the separators, where otherwise it would need a space.
-/

namespace StreamLang

variable {text blanks : String} {c : Cursor}

/-- A cut of a text is a cut of every longer text. -/
theorem Text.upTo_append {pre post : List Char} (split : text.toList = pre ++ post)
    (rest : String) : upTo (text ++ rest) (byteLength pre) = upTo text (byteLength pre) := by
  have longer : (text ++ rest).toList = pre ++ (post ++ rest.toList) := by
    rw [String.toList_append, split, List.append_assoc]
  rw [upTo_byteLength longer, upTo_byteLength split]

theorem Text.endsBlank_append_separators (some : blanks ≠ "")
    (all : ∀ c ∈ blanks.toList, isSeparator c = true) (text : String) :
    endsBlank (text ++ blanks) = true := by
  have chars : blanks.toList ≠ [] := by simpa using some
  rw [endsBlank_append some, endsBlank, List.getLast?_eq_some_getLast chars, Option.any_some]
  exact isBlank_of_isSeparator (all _ (List.getLast_mem chars))

/-! ## Reading -/

theorem Cursor.readAll_append_separators (all : ∀ c ∈ blanks.toList, isSeparator c = true)
    (small : (text ++ blanks).utf8ByteSize ≤ Span.limit) :
    start.readAll (tokensOf (text ++ blanks)) = .ok c ↔ start.readAll (tokensOf text) = .ok c := by
  constructor
  · intro read
    rwa [tokensOf_append_separators_of_sound small all (not_error_of_readAll read)] at read
  · intro read
    rwa [tokensOf_append_separators (.of_sound (not_error_of_readAll read)) all]

/-- The failure of a text that ends before the stream may. -/
def Cursor.failure (c : Cursor) (text : String) : ParseFailure := .ofHalt text ⟨c, endOf text⟩

/-- What was typed before the failure is read again from the same part of the text. -/
theorem Cursor.typed?_failure_append (small : text.utf8ByteSize ≤ Span.limit)
    (fails : Topology.parse text = .error (c.failure text)) (rest : String) :
    (c.failure (text ++ rest)).typed? = (c.failure text).typed? := by
  obtain ⟨pre, post, split, checkpoint⟩ := exists_cut_of_parse small fails
  change c.checkpoint = byteLength pre at checkpoint
  have partialText : (c.failure (text ++ rest)).partialText = (c.failure text).partialText := by
    change Text.upTo (text ++ rest) c.checkpoint = Text.upTo text c.checkpoint
    rw [checkpoint, Text.upTo_append split]
  rw [ParseFailure.typed?, ParseFailure.typed?, partialText]
  rfl

/-! ## Strategies -/

namespace Request

/-- The request for a text that goes on. -/
def followedBy (q : Request) (rest : String) : Request := { q with text := q.text ++ rest }

variable (q : Request) (rest : String)

@[simp] theorem context_followedBy : (q.followedBy rest).context = q.context := rfl

@[simp] theorem text_followedBy : (q.followedBy rest).text = q.text ++ rest := rfl

@[simp] theorem detail_followedBy : (q.followedBy rest).detail = q.detail := rfl

theorem base_followedBy (all : ∀ c ∈ blanks.toList, isSeparator c = true) :
    (q.followedBy blanks).base = q.base :=
  Text.trimEnd_append (fun c member => isBlank_of_isSeparator (all c member)) q.text

end Request

namespace Recovery

variable {q : Request} (small : q.text.utf8ByteSize ≤ Span.limit)
  (fails : Topology.parse q.text = .error (c.failure q.text))
include small fails

theorem typedStage_append (rest : String) :
    typedStage (q.followedBy rest) (c.failure (q.text ++ rest)) =
      typedStage q (c.failure q.text) := by
  rw [typedStage, typedStage, Cursor.typed?_failure_append small fails,
    Request.context_followedBy]

/-- The start of the name typed last cuts the text in the same place. -/
theorem upTo_lastName_append {typed : Token} (expects : c.state.expectation = .equals)
    (lastName : (c.failure q.text).lastName? = some typed) (rest : String) :
    Text.upTo (q.text ++ rest) typed.start = Text.upTo q.text typed.start := by
  obtain ⟨d, done, current, dashes, -, -, within_, -⟩ :=
    exists_within_of_lastName fails rfl expects lastName
  obtain ⟨front, tokens, -⟩ := within_.split
  rw [List.append_cons] at tokens
  obtain ⟨pre, post, split, start, -⟩ := exists_cut_of_tokensOf small tokens
  rw [start, Text.upTo_append split]

/-- Recoveries of properties propose the same after separators. -/
theorem proposals_append_separators (all : ∀ c ∈ blanks.toList, isSeparator c = true)
    {r : Recovery} (handles : r.handles = c.state.expectation) (other : r ≠ .moduleName) :
    r.proposals (q.followedBy blanks) (c.failure (q.text ++ blanks)) =
      r.proposals q (c.failure q.text) := by
  have base := q.base_followedBy all
  have typed := typedStage_append small fails blanks
  have lastName : (c.failure (q.text ++ blanks)).lastName? = (c.failure q.text).lastName? := rfl
  have propertyName : (q.followedBy blanks).propertyName = q.propertyName :=
    Request.propertyName_congr rfl
  rw [proposals_of_atEnd rfl, proposals_of_atEnd rfl]
  cases r with
  | propertyNameAfterDashDash =>
      simp only [afterDashDash, typed, propertyName, base]
  | unfinishedPropertyName =>
      simp only [ofUnfinishedName, lastName, typed, propertyName, Request.text_followedBy]
      split
      · rfl
      · next name found =>
          rw [upTo_lastName_append small fails handles.symm found]
  | propertyValue =>
      simp only [ofValue, lastName, typed, base, Request.detail_followedBy]
  | moduleName => exact absurd rfl other

/-- Separators do not change where a module is asked for. -/
theorem awaitedPosition_append (tokens : tokensOf (q.text ++ blanks) = tokensOf q.text) :
    awaitedPosition (q.text ++ blanks) (c.failure (q.text ++ blanks)) =
      awaitedPosition q.text (c.failure q.text) := by
  have first : (tokenize (q.text ++ blanks)).head?.any (fun t => t.kind == .destination) =
      (tokenize q.text).head?.any (fun t => t.kind == .destination) := by
    rw [tokenize, tokenize, tokens]
    cases tokensOf q.text <;> rfl
  rw [awaitedPosition, awaitedPosition, Cursor.typed?_failure_append small fails, first]

end Recovery

namespace Expansion

variable {q : Request} {t : Topology} {last : Stage}

/-- Longer names are no texts of options or pipes. -/
theorem text_ne_of_mem_ofUnfinishedName (named : q.context.collaborators.catalog.Named)
    (isLast : isName last.name.toList = true) {a b : Proposal}
    (longer : a ∈ ofUnfinishedName q t last)
    (other : b ∈ (ofOptions q t).value ++ ofPipe q t last) : a.text ≠ b.text := by
  intro same
  rcases List.mem_append.mp other with option | pipe
  · have isOption := isOption_of_mem_ofOptions option
    rw [Proposal.isOption, ← same, ← Proposal.isOption,
      not_isOption_of_mem_ofUnfinishedName named longer] at isOption
    cases isOption
  · have isPipe := isPipe_of_mem_ofPipe pipe
    rw [Proposal.isPipe, ← same, ← Proposal.isPipe,
      not_isPipe_of_mem_ofUnfinishedName named isLast longer] at isPipe
    cases isPipe

variable (all : ∀ c ∈ blanks.toList, isSeparator c = true)
include all

/-- Separators finish the name before them. -/
theorem ofUnfinishedName_append_separators (some : blanks ≠ "")
    (isLast : isName last.name.toList = true) :
    ofUnfinishedName (q.followedBy blanks) t last = [] := by
  apply List.eq_nil_iff_forall_not_mem.mpr
  intro p member
  obtain ⟨-, before, ends, -⟩ := mem_ofUnfinishedName member
  have visible : Text.endsBlank (before ++ last.name) = false := by
    rw [Text.endsBlank_append (Text.ne_empty_of_isName isLast),
      Text.not_endsBlank_of_isName isLast]
  rw [← ends, Request.text_followedBy, Text.endsBlank_append_separators some all] at visible
  cases visible

theorem ofOptions_append_separators (t : Topology) :
    ofOptions (q.followedBy blanks) t = ofOptions q t := by
  simp only [ofOptions, q.base_followedBy all]
  rfl

theorem ofPipe_append_separators (t : Topology) (last : Stage) :
    ofPipe (q.followedBy blanks) t last = ofPipe q t last := by
  simp only [ofPipe, q.base_followedBy all]
  rfl

end Expansion

/-! ## Answers -/

section Answers

variable {q : Request} {t : Topology}

/-- The longer names that are proposed for the last module of a stream. -/
def Request.longerNames (q : Request) : List Proposal :=
  match Topology.parse q.text with
  | .ok t => (Expansion.unfinishedModuleName.proposals q t).value
  | .error _ => []

/-- A text that cannot be read to its end is not completed. -/
theorem proposalsFor_of_unread
    (unread : ¬ ∃ c, Cursor.start.readAll (tokensOf q.text) = .ok c) :
    proposalsFor q.context q.text q.detail = [] := by
  cases parsed : Topology.parse q.text with
  | ok t =>
      obtain ⟨c, read, -⟩ := topologyParse_eq_ok_iff_readAll.mp parsed
      exact absurd ⟨c, read⟩ unread
  | error e =>
      have inside : e.atEnd = false := by
        apply Bool.eq_false_iff.mpr
        intro atEnd
        obtain ⟨c, read, -⟩ := exists_cursor_of_atEnd parsed atEnd
        exact unread ⟨c, read⟩
      rw [proposalsFor, Engine.value_complete_of_error parsed]
      split
      · simp only [Recovery.proposals, inside]
        rfl
      · rfl

/-- Nothing follows the destination at the end of a stream. -/
theorem proposalsFor_of_bound {destination : String} (parsed : Topology.parse q.text = .ok t)
    (bound : t.sink = some destination) : proposalsFor q.context q.text q.detail = [] := by
  have none : ∀ x : Expansion, (x.proposals q t).value = [] := by
    intro x
    apply List.eq_nil_iff_forall_not_mem.mpr
    intro p member
    obtain ⟨-, -, unbound⟩ := Expansion.exists_last_of_mem_proposals member
    rw [bound] at unbound
    cases unbound
  rw [proposalsFor, Engine.value_complete_of_parse parsed]
  simp only [Engine.standard, Expansion.standard, List.flatMap_cons, List.flatMap_nil, none,
    List.append_nil, Proposal.keepFirst]

/-- After separators a stream is continued in the same ways, except by longer names. -/
theorem proposalsFor_append_of_parse (named : q.context.collaborators.catalog.Named)
    (some : blanks ≠ "") (all : ∀ c ∈ blanks.toList, isSeparator c = true)
    (parsed : Topology.parse q.text = .ok t) :
    proposalsFor q.context (q.text ++ blanks) q.detail =
      (proposalsFor q.context q.text q.detail).filter fun p => p ∉ q.longerNames := by
  have parsed' : Topology.parse (q.followedBy blanks).text = .ok t := by
    rw [topologyParse_eq_ok_iff_readAll, Request.followedBy,
      tokensOf_append_separators (closed_of_parse parsed) all]
    exact topologyParse_eq_ok_iff_readAll.mp parsed
  change proposalsFor (q.followedBy blanks).context _ (q.followedBy blanks).detail = _
  cases bound : t.sink with
  | some destination =>
      rw [proposalsFor_of_bound parsed bound]
      exact proposalsFor_of_bound parsed' bound
  | none =>
      obtain ⟨last, isLast⟩ := exists_last_of_parse parsed
      have isName : isName last.name.toList = true :=
        ((Topology.wellFormed_of_parse parsed).stages last (List.mem_of_getLast? isLast)).name
      have longer : q.longerNames = Expansion.ofUnfinishedName q t last := by
        simp only [Request.longerNames, parsed, Expansion.proposals, bound, isLast,
          Logged.value_pure]
      have blanked := proposalsFor_of_parse parsed' bound isLast
      rw [Expansion.ofUnfinishedName_append_separators all some isName, List.nil_append,
        Expansion.ofOptions_append_separators all, Expansion.ofPipe_append_separators all]
        at blanked
      rw [longer, proposalsFor_of_parse parsed bound isLast,
        Proposal.filter_not_mem_keepFirst_append fun a member b other =>
          Expansion.text_ne_of_mem_ofUnfinishedName named isName member other]
      exact blanked

/-- Where no module is asked for, an unfinished stream is continued as before. -/
theorem proposalsFor_append_of_error (all : ∀ c ∈ blanks.toList, isSeparator c = true)
    (small : q.text.utf8ByteSize ≤ Span.limit)
    (fails : Topology.parse q.text = .error (c.failure q.text))
    (fails' : Topology.parse (q.text ++ blanks) = .error (c.failure (q.text ++ blanks)))
    (unasked : c.state.expectation ≠ .moduleName) :
    proposalsFor q.context (q.text ++ blanks) q.detail =
      proposalsFor q.context q.text q.detail := by
  have selected : ∀ recoveries, Recovery.select recoveries (c.failure (q.text ++ blanks)) =
      Recovery.select recoveries (c.failure q.text) := fun _ => rfl
  rw [proposalsFor, proposalsFor, Engine.value_complete_of_error fails,
    Engine.value_complete_of_error fails', selected]
  split
  · next r chosen =>
      have handles : r.handles = c.state.expectation := Recovery.handles_of_select chosen
      have other : r ≠ .moduleName := by
        intro isName
        rw [isName] at handles
        exact unasked handles.symm
      have same := Recovery.proposals_append_separators small fails all handles other
      exact congrArg (fun x => Proposal.keepFirst [] x.value) same
  · rfl

/-- Where a module is asked for, the same modules are proposed after separators. -/
theorem exists_modules_of_append (some : blanks ≠ "")
    (all : ∀ c ∈ blanks.toList, isSeparator c = true)
    (small : q.text.utf8ByteSize ≤ Span.limit)
    (read : Cursor.start.readAll (tokensOf q.text) = .ok c)
    (fails : Topology.parse q.text = .error (c.failure q.text))
    (fails' : Topology.parse (q.text ++ blanks) = .error (c.failure (q.text ++ blanks)))
    (expects : c.state.expectation = .moduleName) :
    ∃ modules : List Registration,
      proposalsFor q.context q.text q.detail =
        modules.map (q.moduleName (q.text ++ Recovery.separator q.text) .addition) ∧
      proposalsFor q.context (q.text ++ blanks) q.detail =
        modules.map (q.moduleName (q.text ++ blanks) .addition) := by
  -- The texts of two modules are equal exactly if their names are, whatever stands before them.
  have alike : ∀ r r' : Registration,
      (q.moduleName (q.text ++ Recovery.separator q.text) .addition r).text =
          (q.moduleName (q.text ++ Recovery.separator q.text) .addition r').text ↔
        (q.moduleName (q.text ++ blanks) .addition r).text =
          (q.moduleName (q.text ++ blanks) .addition r').text := by
    intro r r'
    simp only [Request.moduleName, String.append_right_inj]
  obtain ⟨modules, -, kept, kept'⟩ := Proposal.exists_keepFirst_alike alike
    (q.context.registrationsAt (Recovery.awaitedPosition q.text (c.failure q.text)))
  have position := Recovery.awaitedPosition_append small fails
    (tokensOf_append_separators (.of_sound (Cursor.not_error_of_readAll read)) all)
  have separator : Recovery.separator (q.text ++ blanks) = "" := by
    simp [Recovery.separator, Text.endsBlank_append_separators some all]
  refine ⟨modules, ?_, ?_⟩
  · rw [proposalsFor_of_moduleName fails rfl expects, Recovery.ofModuleName, kept]
  · have blanked := proposalsFor_of_moduleName (q := q.followedBy blanks) fails' rfl expects
    simp only [Recovery.ofModuleName, Request.context_followedBy, Request.text_followedBy,
      Request.detail_followedBy, position, separator, String.append_empty,
      Request.moduleName_congr (q.detail_followedBy blanks)] at blanked
    rw [blanked, kept']

/-- What separators at the end of a text change. Unless a module is asked for, completion proposes
the same, except longer names for the last module, which are left out. Where a module is asked for,
it proposes the same modules with the same explanations in the same order, and without a space
before them. -/
theorem proposalsFor_append_separators (named : q.context.collaborators.catalog.Named)
    (some : blanks ≠ "") (all : ∀ c ∈ blanks.toList, isSeparator c = true)
    (small : (q.text ++ blanks).utf8ByteSize ≤ Span.limit) :
    ((∀ e, Topology.parse q.text = .error e → e.expectation ≠ .moduleName) →
      proposalsFor q.context (q.text ++ blanks) q.detail =
        (proposalsFor q.context q.text q.detail).filter fun p => p ∉ q.longerNames) ∧
    ∀ e, Topology.parse q.text = .error e → e.expectation = .moduleName →
      ∃ modules : List Registration,
        proposalsFor q.context q.text q.detail =
          modules.map (q.moduleName (q.text ++ Recovery.separator q.text) .addition) ∧
        proposalsFor q.context (q.text ++ blanks) q.detail =
          modules.map (q.moduleName (q.text ++ blanks) .addition) := by
  have smaller : q.text.utf8ByteSize ≤ Span.limit := by
    rw [String.utf8ByteSize_append] at small
    omega
  by_cases readable : ∃ c, Cursor.start.readAll (tokensOf q.text) = .ok c
  case neg =>
    have unread : ¬ ∃ c, Cursor.start.readAll (tokensOf (q.text ++ blanks)) = .ok c := by
      intro ⟨c, read⟩
      exact readable ⟨c, (Cursor.readAll_append_separators all small).mp read⟩
    have before := proposalsFor_of_unread readable
    have after := proposalsFor_of_unread (q := q.followedBy blanks) unread
    exact ⟨fun _ => by rw [before]; exact after, fun e _ _ => ⟨[], before, after⟩⟩
  case pos =>
    obtain ⟨c, read⟩ := readable
    have read' := (Cursor.readAll_append_separators all small).mpr read
    cases complete : c.state.isComplete with
    | true =>
        rw [← PartialStream.isSome_topology?, Option.isSome_iff_exists] at complete
        obtain ⟨t, topology⟩ := complete
        have parsed := topologyParse_eq_ok_iff_readAll.mpr ⟨c, read, topology⟩
        refine ⟨fun _ => proposalsFor_append_of_parse named some all parsed, ?_⟩
        intro e fails
        rw [parsed] at fails
        cases fails
    | false =>
        have fails : Topology.parse q.text = .error (c.failure q.text) :=
          parse_eq_error_of_readAll read complete
        have fails' : Topology.parse (q.text ++ blanks) = .error (c.failure (q.text ++ blanks)) :=
          parse_eq_error_of_readAll read' complete
        constructor
        · intro unasked
          have none : q.longerNames = [] := by simp only [Request.longerNames, fails]
          rw [proposalsFor_append_of_error all smaller fails fails' (unasked _ fails), none]
          simp
        · intro e fails₂ expects
          rw [fails] at fails₂
          cases fails₂
          exact exists_modules_of_append some all smaller read fails fails' expects

/-- Separators after a name, which is finished then, and after a pipe. -/
theorem proposalsFor_append_separators_time :
    proposalsFor sampleContext "ti" 1 = [⟨"time", .expanding, "source module"⟩] ∧
      proposalsFor sampleContext ("ti" ++ " \t") 1 = [] ∧
      ∃ modules : List Registration, modules.length = 1 ∧
        proposalsFor sampleContext "time |" 1 =
          modules.map (Request.moduleName ⟨sampleContext, "time |", 1⟩ "time | " .addition) ∧
        proposalsFor sampleContext ("time |" ++ "\n") 1 =
          modules.map (Request.moduleName ⟨sampleContext, "time |", 1⟩ "time |\n" .addition) := by
  obtain ⟨finished, -⟩ := proposalsFor_append_separators (q := ⟨sampleContext, "ti", 1⟩)
    named_sampleContext.modules (by decide : " \t" ≠ "") (by simp [isSeparator]) (by decide)
  obtain ⟨-, asked⟩ := proposalsFor_append_separators (q := ⟨sampleContext, "time |", 1⟩)
    named_sampleContext.modules (by decide : "\n" ≠ "") (by simp [isSeparator]) (by decide)
  refine ⟨by decide, ?_, ?_⟩
  · obtain ⟨t, parsed⟩ : ∃ t, Topology.parse "ti" = .ok t := ⟨_, rfl⟩
    refine (finished fun e fails => ?_).trans (by decide)
    rw [parsed] at fails
    cases fails
  · obtain ⟨e, fails, expects⟩ : ∃ e, Topology.parse "time |" = .error e ∧
        e.expectation = .moduleName := ⟨_, rfl, rfl⟩
    obtain ⟨modules, before, after⟩ := asked e fails expects
    have one := congrArg List.length before
    rw [List.length_map] at one
    exact ⟨modules, one.symm.trans (by decide), before, after⟩

end Answers

end StreamLang
