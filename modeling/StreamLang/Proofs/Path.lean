import StreamLang.Proofs.Text.Pieces
import StreamLang.Repository.FileTree

/-!
Paths that go on from a root.

Pushing relative components onto a path goes on from it by their steps, one component after the
other (`Path.exists_foldl_push`). An absolute component makes the path forget where it came from
(`Path.foldl_push_of_isAbsolute`). Components that are not empty and have no slashes can be read off
the path again (`Path.exists_pieces_foldl_push`).
-/

namespace StreamLang

open FileTree (stepsOf componentsOf)

/-! ## Steps -/

namespace FileTree

variable {path step : String}

theorem stepsOf_append_slash (front back : String) :
    stepsOf (front ++ "/" ++ back) = stepsOf front ++ stepsOf back := by
  have chars : (front ++ "/" ++ back).toList = front.toList ++ '/' :: back.toList := by
    simp [String.toList_append]
  rw [stepsOf, componentsOf, chars, List.splitOn_append_cons_self, List.map_append,
    List.filter_append]
  rfl

@[simp] theorem stepsOf_empty : stepsOf "" = [] := rfl

theorem stepsOf_endingInSlash (front : String) : stepsOf (front ++ "/") = stepsOf front := by
  have split := stepsOf_append_slash front ""
  rwa [String.append_empty, stepsOf_empty, List.append_nil] at split

theorem mem_stepsOf_iff :
    step ∈ stepsOf path ↔ step.toList ∈ path.toList.splitOn '/' ∧ step ≠ "" ∧ step ≠ "." := by
  rw [stepsOf, componentsOf, List.mem_filter, List.mem_map]
  simp only [Bool.and_eq_true, bne_iff_ne]
  refine and_congr_left fun _ => ?_
  constructor
  · rintro ⟨piece, member, rfl⟩
    rwa [String.toList_ofList]
  · exact fun member => ⟨_, member, String.ofList_toList⟩

/-- The characters of a step are characters of the path. -/
theorem mem_of_mem_stepsOf (member : step ∈ stepsOf path) {c : Char} (inside : c ∈ step.toList) :
    c ∈ path.toList := by
  have piece := (mem_stepsOf_iff.mp member).1
  have other : c ≠ '/' := by
    rintro rfl
    exact not_mem_of_mem_splitOn piece inside
  exact (exists_mem_splitOn_iff other).mp ⟨_, piece, inside⟩

/-- A character that is no slash, and no dot, belongs to a step. -/
theorem exists_step_of_mem {c : Char} (member : c ∈ path.toList) (slash : c ≠ '/') (dot : c ≠ '.') :
    ∃ step ∈ stepsOf path, c ∈ step.toList := by
  obtain ⟨piece, split, inside⟩ := (exists_mem_splitOn_iff slash).mpr member
  refine ⟨String.ofList piece, mem_stepsOf_iff.mpr ⟨?_, ?_, ?_⟩, ?_⟩
  · rwa [String.toList_ofList]
  · intro empty
    have chars := congrArg String.toList empty
    rw [String.toList_ofList] at chars
    simp [chars] at inside
  · intro single
    have chars := congrArg String.toList single
    rw [String.toList_ofList] at chars
    simp [chars, dot] at inside
  · rwa [String.toList_ofList]

/-- A path without slashes is one component. -/
theorem mem_stepsOf_of_not_mem (whole : '/' ∉ path.toList) :
    step ∈ stepsOf path ↔ step = path ∧ step ≠ "" ∧ step ≠ "." := by
  rw [mem_stepsOf_iff, List.splitOn_eq_singleton whole, List.mem_singleton, String.toList_inj]

end FileTree

/-! ## Pushing components -/

namespace Path

variable {root path component : String}

/-- The path with the slash that a component is written after. -/
def opened (path : String) : String :=
  if path.toList.getLast? = some '/' then path else path ++ "/"

theorem push_of_isAbsolute (absolute : isAbsolute component = true) (path : String) :
    push path component = component := by
  rw [push, if_pos absolute]

theorem push_of_relative (some : path ≠ "") (relative : isAbsolute component = false) :
    push path component = opened path ++ component := by
  rw [push, if_neg (by simp [relative]), opened]
  simp only [some, false_or]
  split <;> rfl

theorem opened_ne_empty (path : String) : opened path ≠ "" := by
  unfold opened
  split
  · next slash =>
      rintro rfl
      cases slash
  · simp

theorem getLast?_opened (path : String) : (opened path).toList.getLast? = some '/' := by
  unfold opened
  split
  · next slash => exact slash
  · simp [String.toList_append]

theorem opened_of_getLast? (slash : path.toList.getLast? = some '/') : opened path = path := by
  rw [opened, if_pos slash]

/-- What is written after a component that was pushed is written after its steps. -/
theorem exists_opened_append (root component : String) :
    ∃ added, opened (opened root ++ component) = opened root ++ added ∧
      ∀ rest, stepsOf (added ++ rest) = stepsOf component ++ stepsOf rest := by
  by_cases slash : component.toList.getLast? = some '/'
  · obtain ⟨front, chars⟩ := List.getLast?_eq_some_iff.mp slash
    have split : component = String.ofList front ++ "/" := by
      rw [← String.toList_inj, String.toList_append, String.toList_ofList, chars]
      rfl
    refine ⟨component, opened_of_getLast? ?_, fun rest => ?_⟩
    · rw [String.toList_append, List.getLast?_append, slash, Option.some_or]
    · rw [split, FileTree.stepsOf_append_slash, FileTree.stepsOf_endingInSlash]
  · by_cases empty : component = ""
    · subst empty
      refine ⟨"", ?_, fun rest => by simp⟩
      rw [String.append_empty, opened_of_getLast? (getLast?_opened root)]
    · refine ⟨component ++ "/", ?_, FileTree.stepsOf_append_slash component⟩
      have last : (opened root ++ component).toList.getLast? = component.toList.getLast? := by
        rw [String.toList_append,
          List.getLast?_append, List.getLast?_eq_some_getLast (by simpa using empty),
          Option.some_or]
      rw [opened, if_neg (last ▸ slash), String.append_assoc]

/-- Relative components go on from a path by their steps. -/
theorem exists_foldl_push {components : List String} (some : root ≠ "") (any : components ≠ [])
    (relative : ∀ component ∈ components, isAbsolute component = false) :
    ∃ rest, components.foldl push root = opened root ++ rest ∧
      stepsOf rest = components.flatMap stepsOf := by
  induction components generalizing root with
  | nil => exact absurd rfl any
  | cons component others ih =>
      rw [List.forall_mem_cons] at relative
      rw [List.foldl_cons, push_of_relative some relative.1, List.flatMap_cons]
      cases others with
      | nil => exact ⟨component, rfl, by simp⟩
      | cons next others =>
          have nonempty : opened root ++ component ≠ "" := by
            simp [opened_ne_empty]
          obtain ⟨rest, path, steps⟩ := ih nonempty (List.cons_ne_nil _ _) relative.2
          obtain ⟨added, opens, steps'⟩ := exists_opened_append root component
          refine ⟨added ++ rest, ?_, ?_⟩
          · rw [path, opens, String.append_assoc]
          · rw [steps', steps]

/-- An absolute component makes a path forget where it came from. -/
theorem foldl_push_of_isAbsolute {components : List String} (member : component ∈ components)
    (absolute : isAbsolute component = true) (root root' : String) :
    components.foldl push root = components.foldl push root' := by
  obtain ⟨before, after, rfl⟩ := List.append_of_mem member
  simp only [List.foldl_append, List.foldl_cons, push_of_isAbsolute absolute]

/-! ### Components without slashes -/

/-- The path with what a relative component is written after. Nothing stands before the first
component of an empty path. -/
def lead (path : String) : String :=
  if path = "" then "" else opened path

theorem push_eq_append (relative : isAbsolute component = false) (path : String) :
    push path component = lead path ++ component := by
  unfold lead
  split
  · next empty => simp [push, relative, empty]
  · next some => exact push_of_relative some relative

theorem not_isAbsolute_of_not_mem (whole : '/' ∉ component.toList) :
    isAbsolute component = false := by
  rw [isAbsolute, beq_eq_false_iff_ne]
  intro slash
  exact whole (List.mem_of_mem_head? slash)

/-- A slash follows a component that has none. -/
theorem lead_append (some : component ≠ "") (whole : '/' ∉ component.toList) (front : String) :
    lead (front ++ component) = front ++ component ++ "/" := by
  have nonempty : front ++ component ≠ "" := by simp [some]
  have last : (front ++ component).toList.getLast? ≠ Option.some '/' := by
    rw [String.toList_append, List.getLast?_append,
      List.getLast?_eq_some_getLast (by simpa using some), Option.some_or]
    intro slash
    exact whole (Option.some.inj slash ▸ List.getLast_mem _)
  rw [lead, if_neg nonempty, opened, if_neg last]

/-- Components that are not empty and have no slashes are the pieces of what the path goes on
with. -/
theorem exists_pieces_foldl_push {components : List String} (any : components ≠ [])
    (some : ∀ component ∈ components, component ≠ "")
    (whole : ∀ component ∈ components, '/' ∉ component.toList) (root : String) :
    ∃ rest, components.foldl push root = lead root ++ rest ∧ Text.Pieces '/' rest components := by
  suffices joins : ∃ rest, components.foldl push root = lead root ++ rest ∧
      rest.toList = ['/'].intercalate (components.map String.toList) by
    obtain ⟨rest, path, joined⟩ := joins
    exact ⟨rest, path, any, whole, joined⟩
  induction components generalizing root with
  | nil => exact absurd rfl any
  | cons component others ih =>
      rw [List.forall_mem_cons] at some whole
      rw [List.foldl_cons, push_eq_append (not_isAbsolute_of_not_mem whole.1)]
      cases others with
      | nil => exact ⟨component, rfl, by simp⟩
      | cons next others =>
          obtain ⟨rest, path, joined⟩ :=
            ih (List.cons_ne_nil _ _) some.2 whole.2 (lead root ++ component)
          refine ⟨component ++ "/" ++ rest, ?_, ?_⟩
          · rw [path, lead_append some.1 whole.1]
            simp only [String.append_assoc]
          · rw [List.map_cons, List.map_cons, List.intercalate_cons_cons, ← List.map_cons, ← joined]
            simp [String.toList_append]

/-! ### Below a root -/

/-- The path goes on from the root, by at least one step, and by none that goes up. -/
def Below (root path : String) : Prop :=
  ∃ rest, path = opened root ++ rest ∧ stepsOf rest ≠ [] ∧ ".." ∉ stepsOf rest

theorem below_append_iff {rest : String} :
    Below root (opened root ++ rest) ↔ stepsOf rest ≠ [] ∧ ".." ∉ stepsOf rest := by
  constructor
  · rintro ⟨rest', same, steps⟩
    rwa [← (String.append_right_inj _).mp same] at steps
  · exact fun steps => ⟨rest, rfl, steps⟩

/-- No path is below itself. -/
theorem not_below_self (path : String) : ¬ Below path path := by
  rintro ⟨rest, same, steps, -⟩
  have longer : path.toList.length ≤ (opened path).toList.length := by
    unfold opened
    split <;> simp [String.toList_append]
  have lengths := congrArg (fun p => p.toList.length) same
  simp only [String.toList_append, List.length_append] at lengths
  have none : rest = "" := by
    have empty : rest.toList = [] := List.length_eq_zero_iff.mp (by omega)
    simpa using empty
  rw [none] at steps
  exact steps rfl

end Path

end StreamLang
