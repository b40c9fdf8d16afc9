import Mathlib.Data.List.TakeDrop
import Mathlib.Data.List.TakeWhile
import StreamLang.Text.Blank

/-!
Texts without the blanks at their ends, and texts in pieces.

Trimming takes blanks from both ends until a character is left there that is none
(`Text.trimmed_iff`). Splitting at a character gives the only pieces without that character that
make the text with it in between (`Text.pieces_iff`), and cutting where the character stands first
gives the only two parts of which the first is without it (`append_cons_inj_of_not_mem`).
-/

namespace StreamLang

namespace Text

variable {text core : String}

/-! ## Trimming -/

/-- Trimming takes away the blanks after the last other character. -/
theorem trimEnd_eq {pre post : List Char} (split : text.toList = pre ++ post)
    (visible : ∀ c ∈ pre.getLast?, isBlank c = false) (blank : ∀ c ∈ post, isBlank c = true) :
    trimEnd text = String.ofList pre := by
  have dropped : (pre ++ post).reverse.dropWhile isBlank = pre.reverse := by
    rw [List.reverse_append, List.dropWhile_append_of_pos fun c member =>
      blank c (List.mem_reverse.mp member)]
    rw [← List.head?_reverse] at visible
    cases reversed : pre.reverse with
    | nil => rfl
    | cons c cs =>
        rw [reversed] at visible
        rw [List.dropWhile_cons_of_neg (by simp [visible c rfl])]
  rw [trimEnd, split, dropped, List.reverse_reverse]

theorem trimEnd_append {blanks : String} (blank : ∀ c ∈ blanks.toList, isBlank c = true)
    (text : String) : trimEnd (text ++ blanks) = trimEnd text := by
  rw [trimEnd, trimEnd, String.toList_append, List.reverse_append,
    List.dropWhile_append_of_pos fun c member => blank c (List.mem_reverse.mp member)]

theorem trimEnd_of_not_endsBlank (visible : endsBlank text = false) : trimEnd text = text := by
  rw [endsBlank, Option.any_eq_false] at visible
  rw [trimEnd_eq (List.append_nil _).symm (by simpa using visible) (by simp),
    String.ofList_toList]

theorem not_endsBlank_trimEnd (text : String) : endsBlank (trimEnd text) = false := by
  rw [endsBlank, trimEnd, String.toList_ofList, List.getLast?_reverse, Option.any_eq_false]
  intro c first
  have stopped := List.head?_dropWhile_not isBlank text.toList.reverse
  rw [first] at stopped
  simpa using stopped

/-- What trimming takes from the end of a text are blanks. -/
theorem exists_blanks_trimEnd (text : String) :
    ∃ blanks, text.toList = (trimEnd text).toList ++ blanks ∧ ∀ c ∈ blanks, isBlank c = true := by
  refine ⟨(text.toList.reverse.takeWhile isBlank).reverse, ?_, fun c member => ?_⟩
  · have split := List.takeWhile_append_dropWhile (p := isBlank) (l := text.toList.reverse)
    rw [trimEnd, String.toList_ofList, ← List.reverse_append, split, List.reverse_reverse]
  · exact List.mem_takeWhile_imp (List.mem_reverse.mp member)

/-- The core of a text: what is left when blanks are taken from both of its ends, and no blank is
left there. -/
structure Trimmed (text core : String) : Prop where
  around : ∃ before after, text.toList = before ++ core.toList ++ after ∧
    ∀ c ∈ before ++ after, isBlank c = true
  first : ∀ c ∈ core.toList.head?, isBlank c = false
  last : ∀ c ∈ core.toList.getLast?, isBlank c = false

theorem trimmed_trim (text : String) : Trimmed text (trim text) := by
  obtain ⟨after, split, blank⟩ := exists_blanks_trimEnd text
  have visible := not_endsBlank_trimEnd text
  rw [endsBlank, Option.any_eq_false] at visible
  rw [trim, trimStart]
  generalize (trimEnd text).toList = front at split visible
  constructor
  case around =>
    refine ⟨front.takeWhile isBlank, after, ?_, fun c member => ?_⟩
    · rw [String.toList_ofList, List.takeWhile_append_dropWhile, split]
    · rcases List.mem_append.mp member with before | behind
      · exact List.mem_takeWhile_imp before
      · exact blank c behind
  case first =>
    intro c first
    rw [String.toList_ofList] at first
    have stopped := List.head?_dropWhile_not isBlank front
    rw [first] at stopped
    simpa using stopped
  case last =>
    intro c last
    rw [String.toList_ofList] at last
    have kept : front.getLast? = some c := by
      rw [← List.takeWhile_append_dropWhile (p := isBlank) (l := front),
        List.getLast?_append, last]
      rfl
    simpa using visible c kept

/-- A text has one core. -/
theorem trimmed_iff : Trimmed text core ↔ core = trim text := by
  constructor
  · rintro ⟨⟨before, after, split, blank⟩, first, last⟩
    have blankBefore : ∀ c ∈ before, isBlank c = true := fun c member =>
      blank c (List.mem_append_left _ member)
    have blankAfter : ∀ c ∈ after, isBlank c = true := fun c member =>
      blank c (List.mem_append_right _ member)
    rw [trim]
    rcases List.eq_nil_or_concat core.toList with none | ⟨front, c, some⟩
    · -- Nothing but blanks: all of them are taken from the end.
      rw [none, List.append_nil] at split
      have blanks : text.toList = [] ++ (before ++ after) := split
      rw [trimEnd_eq blanks (by simp) blank]
      rw [← String.ofList_toList (s := core), none]
      rfl
    · have ends : (before ++ core.toList).getLast? = core.toList.getLast? := by
        rw [some]
        simp
      rw [trimEnd_eq split (ends ▸ last) blankAfter, trimStart, String.toList_ofList,
        List.dropWhile_append_of_pos blankBefore]
      cases chars : core.toList with
      | nil => simp [chars] at some
      | cons d ds =>
          rw [List.dropWhile_cons_of_neg (by simp [first d (by simp [chars])]), ← chars,
            String.ofList_toList]
  · rintro rfl
    exact trimmed_trim text

/-! ## Pieces -/

/-- The pieces that make the text with a separator between any two of them. No piece holds the
separator. -/
structure Pieces (separator : Char) (text : String) (pieces : List String) : Prop where
  some : pieces ≠ []
  whole : ∀ piece ∈ pieces, separator ∉ piece.toList
  joined : text.toList = [separator].intercalate (pieces.map String.toList)

end Text

section Intercalate

variable {separator first last : List Char} {pieces : List (List Char)}

theorem head?_intercalate (some : first ≠ []) (others : List (List Char)) :
    (separator.intercalate (first :: others)).head? = first.head? := by
  cases others with
  | nil => rw [List.intercalate_singleton]
  | cons piece others =>
      rw [List.intercalate_cons_cons, List.append_assoc, List.head?_append,
        List.head?_eq_some_head some, Option.some_or]

theorem getLast?_intercalate (some : last ≠ []) (others : List (List Char)) :
    (separator.intercalate (others ++ [last])).getLast? = last.getLast? := by
  induction others with
  | nil => rw [List.nil_append, List.intercalate_singleton]
  | cons piece others ih =>
      rw [List.cons_append, List.intercalate_cons_of_ne_nil (by simp), List.getLast?_append, ih,
        List.getLast?_eq_some_getLast some, Option.some_or]

/-- What is joined has the characters of the pieces, and the separator. -/
theorem mem_intercalate_iff {c d : Char} (other : c ≠ d) :
    c ∈ [d].intercalate pieces ↔ ∃ piece ∈ pieces, c ∈ piece := by
  induction pieces with
  | nil => simp
  | cons piece pieces ih =>
      cases pieces with
      | nil => simp
      | cons next pieces =>
          rw [List.intercalate_cons_cons, List.mem_append, ih]
          simp [other]

end Intercalate

theorem not_mem_of_mem_splitOn {separator : Char} {cs piece : List Char}
    (member : piece ∈ cs.splitOn separator) : separator ∉ piece := by
  induction cs generalizing piece with
  | nil =>
      rw [List.splitOn_nil, List.mem_singleton] at member
      simp [member]
  | cons c cs ih =>
      rw [List.splitOn_cons_eq_if_modifyHead] at member
      split at member
      · rcases List.mem_cons.mp member with rfl | later
        · exact List.not_mem_nil
        · exact ih later
      · next other =>
          obtain ⟨first, others, split⟩ :=
            List.exists_cons_of_ne_nil (List.splitOn_ne_nil separator cs)
          rw [split, List.modifyHead_cons] at member
          rcases List.mem_cons.mp member with rfl | later
          · rw [List.mem_cons, not_or]
            refine ⟨fun same => other (by simp [same]), ih (split ▸ List.mem_cons_self)⟩
          · exact ih (split ▸ List.mem_cons_of_mem _ later)

/-- Splitting keeps the characters other than the separator. -/
theorem exists_mem_splitOn_iff {separator c : Char} (other : c ≠ separator) {cs : List Char} :
    (∃ piece ∈ cs.splitOn separator, c ∈ piece) ↔ c ∈ cs := by
  rw [← mem_intercalate_iff other, List.intercalate_splitOn]

section Span

variable {separator : Char} {front front' back back' : List Char}

theorem span_append_cons (free : separator ∉ front) (back : List Char) :
    (front ++ separator :: back).span (· ≠ separator) = (front, separator :: back) := by
  have before : ∀ c ∈ front, decide (c ≠ separator) = true := by
    intro c member
    exact decide_eq_true fun same => free (same ▸ member)
  rw [List.span_eq_takeWhile_dropWhile, List.takeWhile_append_of_pos before,
    List.dropWhile_append_of_pos before]
  simp

/-- A list gives what stands before its first separator, and after it. -/
theorem append_cons_inj_of_not_mem (free : separator ∉ front) (free' : separator ∉ front')
    (same : front ++ separator :: back = front' ++ separator :: back') :
    front = front' ∧ back = back' := by
  have spans := congrArg (List.span (· ≠ separator)) same
  rw [span_append_cons free, span_append_cons free'] at spans
  cases spans
  exact ⟨rfl, rfl⟩

end Span

namespace Text

variable {separator : Char} {text : String} {pieces : List String}

theorem Pieces.head? {first : String} {others : List String}
    (made : Pieces separator text (first :: others)) (some : first ≠ "") :
    text.toList.head? = first.toList.head? := by
  rw [made.joined, List.map_cons, head?_intercalate (by simpa using some)]

theorem Pieces.getLast? {last : String} {others : List String}
    (made : Pieces separator text (others ++ [last])) (some : last ≠ "") :
    text.toList.getLast? = last.toList.getLast? := by
  rw [made.joined, List.map_append, List.map_singleton,
    getLast?_intercalate (by simpa using some)]

/-- Splitting gives the pieces of a text, and there are no others. -/
theorem pieces_iff :
    Pieces separator text pieces ↔
      pieces = (text.toList.splitOn separator).map String.ofList := by
  constructor
  · intro made
    have whole : ∀ piece ∈ pieces.map String.toList, separator ∉ piece := by
      simpa using made.whole
    rw [made.joined, List.splitOn_intercalate separator whole (by simpa using made.some),
      List.map_map]
    have same : String.ofList ∘ String.toList = id := funext fun _ => String.ofList_toList
    rw [same, List.map_id]
  · rintro rfl
    constructor
    case some => simp
    case whole =>
      intro piece member
      obtain ⟨cs, split, rfl⟩ := List.mem_map.mp member
      rw [String.toList_ofList]
      exact not_mem_of_mem_splitOn split
    case joined =>
      have same : String.toList ∘ String.ofList = id := funext fun _ => String.toList_ofList
      rw [List.map_map, same, List.map_id, List.intercalate_splitOn]

end Text

end StreamLang
