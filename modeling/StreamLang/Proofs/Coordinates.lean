import StreamLang.Coordinates
import StreamLang.Proofs.Text.Pieces

/-!
What texts stand for coordinates, and how coordinates are written.

A text stands for coordinates when its core, split at colons, has three to five parts, and none of
them is empty that must not be (`Coordinates.parse_eq_ok_iff`). The coordinates that are read have
no colon in any part, and no blank where trimming would take it (`Coordinates.WellFormed`). Exactly
these are read from their written form (`Coordinates.parse_render_iff`).
-/

namespace StreamLang.Coordinates

variable {input core : String} {parts : List String} {c : Coordinates}

/-! ## Parts -/

/-- The coordinates that three to five parts stand for. -/
inductive Reads : List String → Coordinates → Prop
  | short {g a v : String} : Reads [g, a, v] ⟨g, a, "jar", "", v⟩
  | extended {g a e v : String} : Reads [g, a, e, v] ⟨g, a, e, "", v⟩
  | full {g a e k v : String} : Reads [g, a, e, k, v] ⟨g, a, e, k, v⟩

theorem ofParts?_eq_some_iff : ofParts? parts = some c ↔ Reads parts c := by
  constructor
  · intro read
    unfold ofParts? at read
    split at read
    · cases read
      exact .short
    · cases read
      exact .extended
    · cases read
      exact .full
    · cases read
  · intro reads
    cases reads <;> rfl

/-- Three to five parts stand for coordinates. -/
theorem exists_reads_iff : (∃ c, Reads parts c) ↔ 3 ≤ parts.length ∧ parts.length ≤ 5 := by
  constructor
  · rintro ⟨c, reads⟩
    cases reads <;> simp
  · rintro ⟨least, most⟩
    rcases parts with _ | ⟨g, _ | ⟨a, _ | ⟨v, _ | ⟨w, _ | ⟨x, _ | ⟨y, rest⟩⟩⟩⟩⟩⟩
    · cases least
    · simp at least
    · simp at least
    · exact ⟨_, .short⟩
    · exact ⟨_, .extended⟩
    · exact ⟨_, .full⟩
    · simp only [List.length_cons] at most
      omega

/-- The parts that must not be empty, in the order in which they are checked. -/
def mandatory : List String → List (CoordinatesPart × String)
  | [g, a, v] => [(.group, g), (.artifact, a), (.version, v)]
  | [g, a, e, v] => [(.group, g), (.artifact, a), (.extension, e), (.version, v)]
  | [g, a, e, _, v] => [(.group, g), (.artifact, a), (.extension, e), (.version, v)]
  | _ => []

/-- The first of the parts that is empty. -/
def firstEmpty? (parts : List (CoordinatesPart × String)) : Option CoordinatesPart :=
  (parts.find? fun part => part.2 = "").map Prod.fst

theorem firstEmpty?_cons (part : CoordinatesPart) (text : String)
    (others : List (CoordinatesPart × String)) :
    firstEmpty? ((part, text) :: others) = if text = "" then some part else firstEmpty? others := by
  by_cases empty : text = ""
  · simp [firstEmpty?, empty]
  · simp [firstEmpty?, empty]

theorem firstEmpty?_eq_none_iff {parts : List (CoordinatesPart × String)} :
    firstEmpty? parts = none ↔ ∀ part ∈ parts, part.2 ≠ "" := by
  simp [firstEmpty?]

theorem emptyPart?_eq (reads : Reads parts c) : c.emptyPart? = firstEmpty? (mandatory parts) := by
  cases reads with
  | short =>
      simp only [emptyPart?, mandatory, firstEmpty?_cons]
      rfl
  | extended | full =>
      simp only [emptyPart?, mandatory, firstEmpty?_cons]
      rfl

/-! ## Reading -/

/-- The parts of a text are the pieces of its core between colons. -/
theorem pieces_iff (trimmed : Text.Trimmed input core) :
    Text.Pieces ':' core parts ↔ parts = partsOf input := by
  rw [Text.pieces_iff, Text.trimmed_iff.mp trimmed, partsOf]

/-- What reading a text can come to. -/
inductive Outcome (input : String) : Except CoordinatesError Coordinates → Prop
  | wrongShape : (¬ ∃ c, Reads (partsOf input) c) → Outcome input (.error (.wrongShape input))
  | emptyPart {c : Coordinates} {part : CoordinatesPart} : Reads (partsOf input) c →
    firstEmpty? (mandatory (partsOf input)) = some part →
    Outcome input (.error (.emptyPart input part))
  | read {c : Coordinates} : Reads (partsOf input) c →
    firstEmpty? (mandatory (partsOf input)) = none → Outcome input (.ok c)

theorem outcome_parse (input : String) : Outcome input (parse input) := by
  unfold parse
  split
  · next absent =>
      refine .wrongShape ?_
      rintro ⟨c, reads⟩
      rw [ofParts?_eq_some_iff.mpr reads] at absent
      cases absent
  · next c some =>
      have reads := ofParts?_eq_some_iff.mp some
      rw [emptyPart?_eq reads]
      split
      · next part empty => exact .emptyPart reads empty
      · next filled => exact .read reads filled

theorem parse_eq_ok_iff :
    parse input = .ok c ↔
      Reads (partsOf input) c ∧ ∀ part ∈ mandatory (partsOf input), part.2 ≠ "" := by
  rw [← firstEmpty?_eq_none_iff, ← ofParts?_eq_some_iff]
  have outcome := outcome_parse input
  generalize parse input = result at outcome
  cases outcome with
  | wrongShape none =>
      simp only [reduceCtorEq, false_iff, not_and]
      exact fun some => absurd ⟨c, ofParts?_eq_some_iff.mp some⟩ none
  | emptyPart reads empty => simp [empty]
  | read reads filled => simp [filled, ofParts?_eq_some_iff.mpr reads]

theorem parse_eq_wrongShape_iff {text : String} :
    parse input = .error (.wrongShape text) ↔ text = input ∧ ¬ ∃ c, Reads (partsOf input) c := by
  have outcome := outcome_parse input
  generalize parse input = result at outcome
  cases outcome with
  | wrongShape none => simp only [Except.error.injEq, CoordinatesError.wrongShape.injEq, none,
      not_false_eq_true, and_true, eq_comm]
  | emptyPart reads => simp [Exists.intro _ reads]
  | read reads => simp [Exists.intro _ reads]

theorem parse_eq_emptyPart_iff {text : String} {part : CoordinatesPart} :
    parse input = .error (.emptyPart text part) ↔
      text = input ∧ (∃ c, Reads (partsOf input) c) ∧
        firstEmpty? (mandatory (partsOf input)) = some part := by
  have outcome := outcome_parse input
  generalize parse input = result at outcome
  cases outcome with
  | wrongShape none => simp [none]
  | emptyPart reads empty => simp [Exists.intro _ reads, empty, eq_comm]
  | read reads filled => simp [filled]

/-! ## Writing -/

/-- The coordinates that can be read: no part has a colon, only the classifier may be empty, and
neither end is a blank. -/
structure WellFormed (c : Coordinates) : Prop where
  whole : ∀ part ∈ [c.group, c.artifact, c.extension, c.classifier, c.version],
    ':' ∉ part.toList
  filled : ∀ part ∈ [c.group, c.artifact, c.extension, c.version], part ≠ ""
  first : ∀ x ∈ c.group.toList.head?, isBlank x = false
  last : ∀ x ∈ c.version.toList.getLast?, isBlank x = false

/-- The ends of a core are those of its first and its last part. -/
theorem ends_of_pieces {first last : String} (inner : List String)
    (trimmed : Text.Trimmed input core)
    (pieces : Text.Pieces ':' core (first :: (inner ++ [last])))
    (filledFirst : first ≠ "") (filledLast : last ≠ "") :
    (∀ x ∈ first.toList.head?, isBlank x = false) ∧
      ∀ x ∈ last.toList.getLast?, isBlank x = false := by
  have pieces' : Text.Pieces ':' core ((first :: inner) ++ [last]) := pieces
  exact ⟨pieces.head? filledFirst ▸ trimmed.first, pieces'.getLast? filledLast ▸ trimmed.last⟩

/-- What is read is well formed. -/
theorem wellFormed_of_reads (trimmed : Text.Trimmed input core)
    (pieces : Text.Pieces ':' core parts) (reads : Reads parts c)
    (filled : ∀ part ∈ mandatory parts, part.2 ≠ "") : c.WellFormed := by
  have whole := pieces.whole
  cases reads with
  | @short g a v =>
      simp only [mandatory, List.forall_mem_cons] at filled whole
      obtain ⟨group, artifact, version, -⟩ := filled
      obtain ⟨first, last⟩ := ends_of_pieces [a] trimmed pieces group version
      constructor <;> simp_all
  | @extended g a e v =>
      simp only [mandatory, List.forall_mem_cons] at filled whole
      obtain ⟨group, artifact, extension, version, -⟩ := filled
      obtain ⟨first, last⟩ := ends_of_pieces [a, e] trimmed pieces group version
      constructor <;> simp_all
  | @full g a e k v =>
      simp only [mandatory, List.forall_mem_cons] at filled whole
      obtain ⟨group, artifact, extension, version, -⟩ := filled
      obtain ⟨first, last⟩ := ends_of_pieces [a, e, k] trimmed pieces group version
      constructor <;> simp_all

/-- The parts of the written form. An empty classifier is left out. -/
def written (c : Coordinates) : List String :=
  c.group :: ([c.artifact, c.extension] ++ (if c.classifier = "" then [] else [c.classifier]) ++
    [c.version])

theorem reads_written (c : Coordinates) : Reads c.written c := by
  unfold written
  split
  · next none =>
      obtain ⟨g, a, e, k, v⟩ := c
      cases none
      exact .extended
  · exact .full

theorem pieces_render (formed : c.WellFormed) : Text.Pieces ':' c.render c.written := by
  constructor
  case some => simp [written]
  case whole =>
    intro part member
    refine formed.whole part (List.Sublist.mem member ?_)
    unfold written
    split
    · exact ((((List.Sublist.refl [c.version]).cons c.classifier).cons_cons _).cons_cons
        _).cons_cons _
    · exact List.Sublist.refl _
  case joined =>
    unfold render written
    split <;> simp [String.toList_append, List.intercalate_cons_cons]

theorem trimmed_render (formed : c.WellFormed) : Text.Trimmed c.render c.render := by
  have pieces := pieces_render formed
  have pieces' : Text.Pieces ':' c.render ((c.group :: ([c.artifact, c.extension] ++
      (if c.classifier = "" then [] else [c.classifier]))) ++ [c.version]) := pieces
  constructor
  case around => exact ⟨[], [], by simp, by simp⟩
  case first =>
    rw [pieces.head? (formed.filled _ (by simp))]
    exact formed.first
  case last =>
    rw [pieces'.getLast? (formed.filled _ (by simp))]
    exact formed.last

theorem mandatory_of_reads (reads : Reads parts c)
    (filled : ∀ part ∈ [c.group, c.artifact, c.extension, c.version], part ≠ "") :
    ∀ part ∈ mandatory parts, part.2 ≠ "" := by
  cases reads <;> simp_all [mandatory]

/-- Well-formed coordinates are read from their written form. -/
theorem parse_render (formed : c.WellFormed) : parse c.render = .ok c := by
  rw [parse_eq_ok_iff, ← (pieces_iff (trimmed_render formed)).mp (pieces_render formed)]
  exact ⟨reads_written c, mandatory_of_reads (reads_written c) formed.filled⟩

theorem wellFormed_of_parse (read : parse input = .ok c) : c.WellFormed := by
  obtain ⟨reads, filled⟩ := parse_eq_ok_iff.mp read
  exact wellFormed_of_reads (Text.trimmed_trim input)
    ((pieces_iff (Text.trimmed_trim input)).mpr rfl) reads filled

/-- Coordinates are read exactly if they are well formed. -/
theorem exists_parse_iff : (∃ input, parse input = .ok c) ↔ c.WellFormed :=
  ⟨fun ⟨_, read⟩ => wellFormed_of_parse read, fun formed => ⟨_, parse_render formed⟩⟩

theorem parse_render_iff : parse c.render = .ok c ↔ c.WellFormed :=
  ⟨wellFormed_of_parse, parse_render⟩

/-- Reading and writing coordinates. Every text has a core and its pieces between colons. It stands
for coordinates exactly when there are three to five of them and none is empty that must not be. The
number of pieces is looked at first, and then the first empty one is named; the error carries the
whole text. What is read from any text are the well-formed coordinates, and each of these is read
from its written form. So no two of them are written alike, and what is read from a written form is
written the same. -/
theorem parse_and_render :
    (∀ input, ∃ core parts, Text.Trimmed input core ∧ Text.Pieces ':' core parts ∧
      (∀ c, parse input = .ok c ↔ Reads parts c ∧ ∀ part ∈ mandatory parts, part.2 ≠ "") ∧
      ((∃ c, parse input = .ok c) ↔
        (3 ≤ parts.length ∧ parts.length ≤ 5) ∧ ∀ part ∈ mandatory parts, part.2 ≠ "") ∧
      (∀ text, parse input = .error (.wrongShape text) ↔
        text = input ∧ ¬ (3 ≤ parts.length ∧ parts.length ≤ 5)) ∧
      ∀ text part, parse input = .error (.emptyPart text part) ↔
        text = input ∧ (3 ≤ parts.length ∧ parts.length ≤ 5) ∧
          firstEmpty? (mandatory parts) = some part) ∧
    (∀ c, (∃ input, parse input = .ok c) ↔ c.WellFormed) ∧
    (∀ c, parse c.render = .ok c ↔ c.WellFormed) ∧
    (∀ c d : Coordinates, c.WellFormed → d.WellFormed → c.render = d.render → c = d) ∧
    ∀ input c, parse input = .ok c → ∃ d, parse c.render = .ok d ∧ d.render = c.render := by
  refine ⟨fun input => ?_, fun _ => exists_parse_iff, fun _ => parse_render_iff, ?_, ?_⟩
  · have trimmed := Text.trimmed_trim input
    refine ⟨Text.trim input, partsOf input, trimmed, (pieces_iff trimmed).mpr rfl,
      fun _ => parse_eq_ok_iff, ?_, fun _ => ?_, fun _ _ => ?_⟩
    · simp only [parse_eq_ok_iff, exists_and_right, exists_reads_iff]
    · rw [parse_eq_wrongShape_iff, exists_reads_iff]
    · rw [parse_eq_emptyPart_iff, exists_reads_iff]
  · intro c d formed formed' same
    have read := parse_render formed
    rw [same, parse_render formed'] at read
    exact (Except.ok.inj read).symm
  · exact fun input c read => ⟨c, parse_render (wellFormed_of_parse read), rfl⟩

/-- An empty classifier is read, and not written. -/
theorem parse_and_render_emptyClassifier :
    ∃ c, parse " g:a:jar::1\u3000" = .ok c ∧ c.render = "g:a:jar:1" ∧
      parse c.render = .ok c ∧ c ≠ ⟨"g", "a", "jar", "x", "1"⟩ ∧
      c.render ≠ (⟨"g", "a", "jar", "x", "1"⟩ : Coordinates).render := by
  obtain ⟨-, image, again, injective, -⟩ := parse_and_render
  have read : parse " g:a:jar::1\u3000" = .ok ⟨"g", "a", "jar", "", "1"⟩ := by decide
  have formed := (image _).mp ⟨_, read⟩
  have formed' := (image ⟨"g", "a", "jar", "x", "1"⟩).mp ⟨"g:a:jar:x:1", by decide⟩
  have apart : (⟨"g", "a", "jar", "", "1"⟩ : Coordinates) ≠ ⟨"g", "a", "jar", "x", "1"⟩ := by decide
  exact ⟨_, read, by decide, (again _).mpr formed, apart,
    fun same => apart (injective _ _ formed formed' same)⟩

end StreamLang.Coordinates
