import StreamLang.Proofs.Completion.Acceptance

/-!
Lists of strategies.

Of the recoveries at most one handles a failure (`Recovery.select_eq_some_iff`), so it does not
matter in which order they are listed, or how often. All expansions are asked, one after the other,
and none of them looks at what the others propose (`Engine.value_expand`). Since the first proposal
of each text is kept, an expansion that is listed again adds nothing, and the order of the
expansions decides about the order of the proposals only, and which of those with equal texts is
kept.
-/

namespace StreamLang

/-! ## Choosing a recovery -/

namespace Recovery

variable {recoveries recoveries' : List Recovery} {e : ParseFailure}

/-- The recovery that is chosen is the one that handles the failure, if it is listed. -/
theorem select_eq_some_iff {r : Recovery} :
    select recoveries e = some r ↔ r ∈ recoveries ∧ r.handles = e.expectation := by
  constructor
  · intro selected
    exact ⟨List.mem_of_find?_eq_some selected, handles_of_select selected⟩
  · rintro ⟨listed, handles⟩
    have isSome : (select recoveries e).isSome = true := by
      rw [select, List.find?_isSome]
      exact ⟨r, listed, by simpa using handles⟩
    obtain ⟨r', selected⟩ := Option.isSome_iff_exists.mp isSome
    have same : r' = r := eq_of_handles_eq ((handles_of_select selected).trans handles.symm)
    rw [selected, same]

/-- Which recoveries are listed decides, and neither their order nor how often they are listed. -/
theorem select_congr (same : ∀ r, r ∈ recoveries ↔ r ∈ recoveries') :
    select recoveries e = select recoveries' e := by
  apply Option.ext
  intro r
  rw [select_eq_some_iff, select_eq_some_iff, same]

end Recovery

/-! ## Asking expansions -/

namespace Engine

variable {engine : Engine} {q : Request} {c : Collaborators} {text : String} {detail : Nat}

/-- Every expansion proposes by itself, whatever the others propose. -/
theorem value_expand (q : Request) (t : Topology) (expansions : List Expansion) :
    (expand q t expansions).value = expansions.flatMap fun x => (x.proposals q t).value := by
  induction expansions with
  | nil => rfl
  | cons x expansions ih =>
      simp only [expand, Logged.value_bind, Logged.value_pure, ih, List.flatMap_cons]

theorem value_complete_of_parse {t : Topology} (parsed : Topology.parse text = .ok t) :
    (engine.complete c text detail).value =
      Proposal.keepFirst [] (engine.expansions.flatMap fun x =>
        (x.proposals ⟨⟨c, engine.precedence⟩, text, detail⟩ t).value) := by
  simp only [complete, Logged.value_bind, Logged.value_pure, candidates, parsed, value_expand]

theorem value_complete_of_error {e : ParseFailure} (fails : Topology.parse text = .error e) :
    (engine.complete c text detail).value =
      match Recovery.select engine.recoveries e with
      | some r =>
          Proposal.keepFirst [] (r.proposals ⟨⟨c, engine.precedence⟩, text, detail⟩ e).value
      | none => [] := by
  simp only [complete, Logged.value_bind, Logged.value_pure, candidates, fails]
  cases Recovery.select engine.recoveries e <;> rfl

/-- Completion proposes no text twice. -/
theorem nodup_texts_complete :
    ((engine.complete c text detail).value.map Proposal.text).Nodup := by
  simp only [complete, Logged.value_bind, Logged.value_pure]
  rw [Proposal.texts_keepFirst_nil]
  exact nodup_eraseDups _

theorem candidates_congr_recoveries {recoveries : List Recovery}
    (same : ∀ r, r ∈ recoveries ↔ r ∈ engine.recoveries) :
    ({ engine with recoveries } : Engine).candidates q = engine.candidates q := by
  unfold candidates
  cases Topology.parse q.text with
  | ok t => rfl
  | error e => simp only [Recovery.select_congr same]

/-- A text is proposed for a stream when an expansion proposes it. -/
theorem mem_texts_complete_of_parse {t : Topology} (parsed : Topology.parse text = .ok t)
    {s : String} :
    s ∈ (engine.complete c text detail).value.map Proposal.text ↔
      ∃ x ∈ engine.expansions, ∃ p ∈ (x.proposals ⟨⟨c, engine.precedence⟩, text, detail⟩ t).value,
        p.text = s := by
  rw [value_complete_of_parse parsed, Proposal.texts_keepFirst_nil, List.mem_eraseDups,
    List.mem_map]
  simp only [List.mem_flatMap]
  constructor
  · rintro ⟨p, ⟨x, listed, proposed⟩, text⟩
    exact ⟨x, listed, p, proposed, text⟩
  · rintro ⟨x, listed, p, proposed, text⟩
    exact ⟨p, ⟨x, listed, proposed⟩, text⟩

/-- What lists of strategies decide. Whatever strategies an engine has, it proposes no text twice.
Recoveries may be listed in any order and any number of times. Expansions that are listed again
change nothing, and in any order the expansions propose the same texts. -/
theorem complete_strategies (engine : Engine) (c : Collaborators) (text : String) (detail : Nat) :
    ((engine.complete c text detail).value.map Proposal.text).Nodup ∧
    (∀ recoveries : List Recovery, (∀ r, r ∈ recoveries ↔ r ∈ engine.recoveries) →
      ({ engine with recoveries } : Engine).complete c text detail =
        engine.complete c text detail) ∧
    (({ engine with expansions := engine.expansions.eraseDups } : Engine).complete c text
        detail).value = (engine.complete c text detail).value ∧
    ∀ expansions : List Expansion, (∀ x, x ∈ expansions ↔ x ∈ engine.expansions) →
      ∀ s, s ∈ ((({ engine with expansions } : Engine).complete c text detail).value.map
          Proposal.text) ↔ s ∈ (engine.complete c text detail).value.map Proposal.text := by
  refine ⟨nodup_texts_complete, fun recoveries same => ?_, ?_, fun expansions same s => ?_⟩
  · simp only [complete, candidates_congr_recoveries same]
  · cases parsed : Topology.parse text with
    | ok t =>
        rw [value_complete_of_parse parsed, value_complete_of_parse parsed,
          Proposal.keepFirst_flatMap_eraseDups]
    | error e => rw [value_complete_of_error parsed, value_complete_of_error parsed]
  · cases parsed : Topology.parse text with
    | ok t =>
        rw [mem_texts_complete_of_parse parsed, mem_texts_complete_of_parse parsed]
        simp only [same]
    | error e => rw [value_complete_of_error parsed, value_complete_of_error parsed]

/-- Strategies that are listed twice, and in another order. -/
theorem complete_strategies_repeated :
    let c := sampleContext.collaborators
    let engine : Engine := ⟨[.pipe, .moduleOptions, .pipe], [.propertyValue, .moduleName],
      ModuleType.all⟩
    let shuffled : List Recovery := [.moduleName, .propertyValue, .moduleName]
    ({ engine with recoveries := shuffled } : Engine).complete c "time |" 1 =
        engine.complete c "time |" 1 ∧
      (({ engine with expansions := [.pipe, .moduleOptions] } : Engine).complete c "time" 1).value =
        (engine.complete c "time" 1).value ∧
      "time | log" ∈ (({ engine with expansions := [.moduleOptions, .pipe] } : Engine).complete c
        "time" 1).value.map Proposal.text := by
  intro c engine shuffled
  obtain ⟨-, recoveries, -, -⟩ := complete_strategies engine c "time |" 1
  obtain ⟨-, -, once, reordered⟩ := complete_strategies engine c "time" 1
  refine ⟨recoveries shuffled fun r => ?_, ?_, (reordered _ fun x => ?_) _ |>.mpr (by decide)⟩
  · cases r <;> decide
  · have distinct : engine.expansions.eraseDups = [.pipe, .moduleOptions] := by decide
    rw [← distinct]
    exact once
  · cases x <;> decide

end Engine

end StreamLang
