import StreamLang.Proofs.Completion.Emission

/-!
Completion appends to what has been typed.

Some proposals are written after the text, some after the text without its last name. In each case
the text without the blanks at its end stands at the start of the proposal (`Emitted.extends_base`):
what is taken away is put back, since it is the name that the proposal goes on with.
-/

namespace StreamLang

/-! ## Texts that go on -/

/-- Whether a text is another one with something written after it. -/
def Text.Extends (text base : String) : Prop :=
  ∃ added, text = base ++ added

namespace Text.Extends

variable {text base name longer : String}

theorem append (extends_ : Extends text base) (more : String) : Extends (text ++ more) base := by
  obtain ⟨added, rfl⟩ := extends_
  exact ⟨added ++ more, String.append_assoc⟩

theorem refl (text : String) : Extends text text :=
  ⟨"", String.append_empty.symm⟩

/-- A text goes on where it stops without the blanks at its end. -/
theorem trimEnd (text : String) : Extends text (Text.trimEnd text) := by
  obtain ⟨blanks, split, -⟩ := Text.exists_blanks_trimEnd text
  refine ⟨String.ofList blanks, ?_⟩
  rw [← String.toList_inj, String.toList_append, String.toList_ofList, split]

/-- A longer name goes on where the name stops that it starts with. -/
theorem of_isPrefixOf (before : String) (begun : name.toList.isPrefixOf longer.toList = true) :
    Extends (before ++ longer) (before ++ name) := by
  obtain ⟨more, whole⟩ := List.isPrefixOf_iff_prefix.mp begun
  refine ⟨String.ofList more, ?_⟩
  rw [String.append_assoc, ← String.ofList_toList (s := longer), ← whole, String.ofList_append,
    String.ofList_toList]

end Text.Extends

/-! ## Proposals -/

/-- Whatever is emitted goes on from the text without the blanks at its end. -/
theorem Emitted.extends_base {q : Request} {subject : Subject} {p : Proposal}
    (emitted : Emitted q subject p) (small : q.text.utf8ByteSize ≤ Span.limit) :
    Text.Extends p.text q.base := by
  have whole : Text.Extends q.text q.base := .trimEnd q.text
  cases emitted with
  | @afterDashDash _ _ property =>
      exact ((Text.Extends.refl q.base).append property.id).append "="
  | @unfinishedPropertyName _ typed _ property fails atEnd expects lastName _ _ begun =>
      obtain ⟨c, done, current, dashes, -, -, within_, identifier, -⟩ :=
        exists_within_of_lastName fails atEnd expects lastName
      obtain ⟨front, split, -⟩ := within_.split
      have tokens : tokensOf q.text = (front ++ [dashes]) ++ [typed] := by simp [split]
      have base : q.base = Text.upTo q.text typed.start ++ typed.text :=
        trimEnd_eq_append_of_identifier small tokens identifier
      rw [base]
      exact (Text.Extends.of_isPrefixOf _ begun).append "="
  | @value _ _ _ _ value => exact (Text.Extends.refl q.base).append (Value.render value)
  | @moduleName _ r => exact (whole.append (Recovery.separator q.text)).append r.name
  | @unfinishedModuleName _ last before r _ _ _ _ found _ begun =>
      obtain ⟨blanks, text⟩ := whole
      obtain ⟨more, longer⟩ := Text.Extends.of_isPrefixOf before begun
      refine ⟨blanks ++ more, ?_⟩
      rw [← String.append_assoc, ← text, Text.eq_append_of_beforeSuffix? found]
      exact longer
  | @moduleOptions _ _ property =>
      exact (((Text.Extends.refl q.base).append " --").append property.id).append "="
  | @pipe _ _ _ next => exact ((Text.Extends.refl q.base).append " | ").append next.name

/-- Completion never rewrites what was typed: whatever strategies an engine has and whomever it
asks, the text without the blanks at its end stands at the start of every proposal. -/
theorem complete_extends {engine : Engine} {c : Collaborators} {text : String} {detail : Nat}
    (small : text.utf8ByteSize ≤ Span.limit) {p : Proposal}
    (member : p ∈ (engine.complete c text detail).value) :
    Text.Extends p.text (Text.trimEnd text) := by
  obtain ⟨subject, emitted⟩ := Engine.exists_emitted_of_mem_complete member
  exact emitted.extends_base small

/-- A name that was typed in part stays, and the blanks after it go. -/
theorem complete_extends_part :
    ∃ p ∈ (Engine.complete ⟨[.pipe, .pipe], [.propertyValue, .unfinishedPropertyName], [.source]⟩
        sampleContext.collaborators "time --f\t" 1).value,
      p.text = "time --format=" ∧ Text.Extends p.text (Text.trimEnd "time --f\t") := by
  have member : ⟨"time --format=", .expanding, ""⟩ ∈
      (Engine.complete ⟨[.pipe, .pipe], [.propertyValue, .unfinishedPropertyName], [.source]⟩
        sampleContext.collaborators "time --f\t" 1).value := by decide
  exact ⟨_, member, rfl, complete_extends (by decide) member⟩

end StreamLang
