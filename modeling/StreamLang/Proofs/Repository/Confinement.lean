import StreamLang.Proofs.Path
import StreamLang.Repository

/-!
Which coordinates lead out of a repository.

The path of coordinates is below the root, whatever the root, exactly when no part of them that
becomes a directory is an absolute path, and neither the artifact, nor the version, nor the name of
the file has a step up (`Repository.pathOf_below`). The parts of the group never have one: they are
split at dots. An absolute part leads to one and the same path from every root.
-/

namespace StreamLang.Repository

open FileTree (stepsOf)

variable {c : Coordinates} {root : String}

/-! ## Directories -/

/-- The directories on the way to the file of an artifact, as they are pushed. -/
def directoriesOf (c : Coordinates) : List String :=
  (c.group.toList.splitOn '.').map String.ofList ++ [c.artifact, c.version]

theorem pathOf_eq (root : String) (c : Coordinates) :
    pathOf root c = (directoriesOf c ++ [c.fileName]).foldl Path.push root := by
  rw [pathOf, directoriesOf, List.append_assoc]
  rfl

theorem toList_fileName (c : Coordinates) :
    ∃ rest, c.fileName.toList = c.artifact.toList ++ '-' :: rest := by
  refine ⟨(c.version ++ (if c.classifier = "" then "" else "-" ++ c.classifier) ++ "." ++
    c.extension).toList, ?_⟩
  simp [Coordinates.fileName, String.toList_append]

theorem fileName_ne_empty (c : Coordinates) : c.fileName ≠ "" := by
  obtain ⟨rest, chars⟩ := toList_fileName c
  intro empty
  rw [empty] at chars
  simp at chars

/-- The name of the file is absolute if the artifact is. -/
theorem isAbsolute_fileName (c : Coordinates) :
    Path.isAbsolute c.fileName = Path.isAbsolute c.artifact := by
  obtain ⟨rest, chars⟩ := toList_fileName c
  rw [Path.isAbsolute, Path.isAbsolute, chars]
  cases c.artifact.toList <;> rfl

/-- The name of the file has a step: the one with the dash after the artifact. -/
theorem stepsOf_fileName_ne_nil (c : Coordinates) : stepsOf c.fileName ≠ [] := by
  obtain ⟨rest, chars⟩ := toList_fileName c
  have dash : '-' ∈ c.fileName.toList := by simp [chars]
  obtain ⟨step, member, -⟩ := FileTree.exists_step_of_mem dash (by decide) (by decide)
  exact List.ne_nil_of_mem member

/-- The parts of a group have no step up. -/
theorem not_up_of_mem_groups {part : String}
    (member : part ∈ (c.group.toList.splitOn '.').map String.ofList) : ".." ∉ stepsOf part := by
  obtain ⟨piece, split, rfl⟩ := List.mem_map.mp member
  intro up
  have dot : '.' ∈ (String.ofList piece).toList :=
    FileTree.mem_of_mem_stepsOf up (c := '.') (by decide)
  rw [String.toList_ofList] at dot
  exact not_mem_of_mem_splitOn split dot

/-! ## Below the root -/

/-- The coordinates do not lead out of a repository: no directory is an absolute path, and no step
goes up. -/
structure Confined (c : Coordinates) : Prop where
  relative : ∀ part ∈ directoriesOf c, Path.isAbsolute part = false
  level : ∀ part ∈ [c.artifact, c.version, c.fileName], ".." ∉ stepsOf part

/-- Without absolute directories the path is the root followed by the steps of all parts. -/
theorem exists_pathOf_of_relative (some : root ≠ "")
    (relative : ∀ part ∈ directoriesOf c, Path.isAbsolute part = false) :
    ∃ rest, pathOf root c = Path.opened root ++ rest ∧
      stepsOf rest = (directoriesOf c ++ [c.fileName]).flatMap stepsOf := by
  rw [pathOf_eq]
  refine Path.exists_foldl_push some (by simp) fun part member => ?_
  rcases List.mem_append.mp member with directory | file
  · exact relative part directory
  · cases List.mem_singleton.mp file
    rw [isAbsolute_fileName]
    exact relative c.artifact (by simp [directoriesOf])

/-- Without absolute directories the path is below the root exactly when no step goes up. -/
theorem below_pathOf_iff (some : root ≠ "")
    (relative : ∀ part ∈ directoriesOf c, Path.isAbsolute part = false) :
    Path.Below root (pathOf root c) ↔
      ∀ part ∈ [c.artifact, c.version, c.fileName], ".." ∉ stepsOf part := by
  obtain ⟨rest, path, steps⟩ := exists_pathOf_of_relative some relative
  have any : stepsOf rest ≠ [] := by
    rw [steps, List.flatMap_append, List.flatMap_singleton]
    simp [stepsOf_fileName_ne_nil]
  rw [path, Path.below_append_iff, steps]
  simp only [← steps, any, ne_eq, not_false_eq_true, true_and]
  rw [steps, List.mem_flatMap]
  constructor
  · intro level part member up
    refine level ⟨part, ?_, up⟩
    simp only [directoriesOf, List.append_assoc]
    exact List.mem_append_right _ member
  · rintro level ⟨part, member, up⟩
    simp only [directoriesOf, List.append_assoc] at member
    rcases List.mem_append.mp member with group | others
    · exact not_up_of_mem_groups group up
    · exact level part others up

/-- With an absolute directory the path does not depend on the root. -/
theorem pathOf_of_isAbsolute {part : String} (member : part ∈ directoriesOf c)
    (absolute : Path.isAbsolute part = true) (root root' : String) :
    pathOf root c = pathOf root' c := by
  rw [pathOf_eq, pathOf_eq]
  exact Path.foldl_push_of_isAbsolute (List.mem_append_left _ member) absolute root root'

theorem pathOf_ne_empty (root : String) (c : Coordinates) : pathOf root c ≠ "" := by
  rw [pathOf_eq, List.foldl_append, List.foldl_cons, List.foldl_nil, Path.push]
  split
  · exact fileName_ne_empty c
  · split <;> simp [fileName_ne_empty]

/-- Coordinates that are not confined lead out of some repository. -/
theorem confined_iff :
    Confined c ↔ ∀ root, root ≠ "" → Path.Below root (pathOf root c) := by
  constructor
  · exact fun confined root some => (below_pathOf_iff some confined.relative).mpr confined.level
  · intro below
    have relative : ∀ part ∈ directoriesOf c, Path.isAbsolute part = false := by
      intro part member
      cases absolute : Path.isAbsolute part with
      | false => rfl
      | true =>
          -- The path is the same from every root, and so it is not below itself.
          have same := pathOf_of_isAbsolute member absolute "/" (pathOf "/" c)
          have itself := below _ (pathOf_ne_empty "/" c)
          rw [← same] at itself
          exact absurd itself (Path.not_below_self _)
    have some : "/" ≠ "" := by decide
    exact ⟨relative, (below_pathOf_iff some relative).mp (below "/" some)⟩

/-! ## Coordinates without slashes -/

/-- No part of the coordinates has a slash. -/
def Slashless (c : Coordinates) : Prop :=
  ∀ part ∈ [c.group, c.artifact, c.extension, c.classifier, c.version], '/' ∉ part.toList

instance (c : Coordinates) : Decidable (Slashless c) :=
  inferInstanceAs (Decidable (∀ part ∈ _, '/' ∉ String.toList part))

theorem level_iff_of_not_mem {part : String} (whole : '/' ∉ part.toList) :
    ".." ∉ stepsOf part ↔ part ≠ ".." := by
  rw [FileTree.mem_stepsOf_of_not_mem whole]
  constructor
  · rintro level rfl
    exact level ⟨rfl, by decide, by decide⟩
  · exact fun different up => different up.1.symm

section Slashless

variable (slashless : Slashless c)
include slashless

theorem not_mem_directory {part : String} (member : part ∈ directoriesOf c) :
    '/' ∉ part.toList := by
  rcases List.mem_append.mp member with group | others
  · obtain ⟨piece, split, rfl⟩ := List.mem_map.mp group
    rw [String.toList_ofList]
    intro inside
    have whole := slashless c.group (by simp)
    exact whole ((exists_mem_splitOn_iff (by decide)).mp ⟨piece, split, inside⟩)
  · rcases List.mem_cons.mp others with rfl | version
    · exact slashless c.artifact (by simp)
    · cases List.mem_singleton.mp version
      exact slashless c.version (by simp)

theorem not_mem_fileName : '/' ∉ c.fileName.toList := by
  have whole := slashless
  simp only [Slashless, List.forall_mem_cons] at whole
  obtain ⟨-, artifact, extension, classifier, version, -⟩ := whole
  have dash : '/' ∉ "-".toList := by decide
  have dot : '/' ∉ ".".toList := by decide
  unfold Coordinates.fileName
  split
  · simp only [String.toList_append, List.mem_append, artifact, extension, version, dash, dot,
      or_self, not_false_eq_true, String.toList_empty, List.not_mem_nil]
  · simp only [String.toList_append, List.mem_append, artifact, extension, classifier, version,
      dash, dot, or_self, not_false_eq_true]

/-- Coordinates without slashes are confined unless the artifact or the version is a step up. -/
theorem confined_iff_of_slashless : Confined c ↔ c.artifact ≠ ".." ∧ c.version ≠ ".." := by
  have artifact := level_iff_of_not_mem (slashless c.artifact (by simp))
  have version := level_iff_of_not_mem (slashless c.version (by simp))
  constructor
  · intro confined
    exact ⟨artifact.mp (confined.level _ (by simp)), version.mp (confined.level _ (by simp))⟩
  · rintro ⟨notArtifact, notVersion⟩
    constructor
    case relative =>
      intro part member
      have whole := not_mem_directory slashless member
      cases chars : part.toList with
      | nil => simp [Path.isAbsolute, chars]
      | cons x xs =>
          rw [chars, List.mem_cons, not_or] at whole
          simp [Path.isAbsolute, chars, Ne.symm whole.1]
    case level =>
      simp only [List.forall_mem_cons]
      refine ⟨artifact.mpr notArtifact, version.mpr notVersion, ?_, by simp⟩
      rw [level_iff_of_not_mem (not_mem_fileName slashless)]
      obtain ⟨rest, chars⟩ := toList_fileName c
      intro up
      have dash : '-' ∈ "..".toList := by
        rw [← up, chars]
        simp
      simp at dash

end Slashless

/-! ## Paths of artifacts -/

/-- Where the paths of coordinates lead. They are below the root, whatever the root, exactly if the
coordinates are confined; coordinates without slashes are unless the artifact or the version is a
step up. Without absolute directories the path is below any one root exactly if no step goes up, and
with one it does not depend on the root. What is looked for and found is at this path. -/
theorem pathOf_below (c : Coordinates) :
    (Confined c ↔ ∀ root, root ≠ "" → Path.Below root (pathOf root c)) ∧
    (Slashless c → (Confined c ↔ c.artifact ≠ ".." ∧ c.version ≠ "..")) ∧
    (∀ root, root ≠ "" → (∀ part ∈ directoriesOf c, Path.isAbsolute part = false) →
      (Path.Below root (pathOf root c) ↔
        ∀ part ∈ [c.artifact, c.version, c.fileName], ".." ∉ stepsOf part)) ∧
    (∀ part ∈ directoriesOf c, Path.isAbsolute part = true →
      ∀ root root', pathOf root c = pathOf root' c) ∧
    ∀ tree root,
      (∀ a, resolve tree root c = .ok a → a.location = pathOf root c) ∧
      ∀ c' path, resolve tree root c = .error (.notFound c' path) → path = pathOf root c := by
  refine ⟨confined_iff, confined_iff_of_slashless, fun _ => below_pathOf_iff,
    fun _ => pathOf_of_isAbsolute, fun tree root => ⟨?_, ?_⟩⟩
  · intro a found
    simp only [resolve] at found
    split at found
    · cases found
      rfl
    · cases found
    · cases found
    · cases found
  · intro c' path absent
    simp only [resolve] at absent
    split at absent
    · cases absent
    · cases absent
      rfl
    · cases absent
      rfl
    · cases absent

/-- An artifact with a dash and a version with dots stay in the repository. -/
theorem pathOf_below_logSink :
    ∃ c, Coordinates.parse "org.example:log-sink:1.0" = .ok c ∧
      pathOf "/repo" c = "/repo/org/example/log-sink/1.0/log-sink-1.0.jar" ∧
      Path.Below "/repo" (pathOf "/repo" c) := by
  obtain ⟨below, slashless, -⟩ :=
    pathOf_below ⟨"org.example", "log-sink", "jar", "", "1.0"⟩
  have confined := (slashless (by decide)).mpr (by decide)
  exact ⟨_, by decide, by decide, below.mp confined "/repo" (by decide)⟩

/-- An absolute artifact, and steps up in place of artifact and version, lead out of the
repository. -/
theorem pathOf_leaves_repository :
    (∃ c, Coordinates.parse "g:/etc/x:1" = .ok c ∧ pathOf "repo" c = "/etc/x-1.jar" ∧
      ¬ Path.Below "repo" (pathOf "repo" c)) ∧
    ∃ c, Coordinates.parse "g:..:.." = .ok c ∧ pathOf "repo" c = "repo/g/../../..-...jar" ∧
      ¬ Path.Below "repo" (pathOf "repo" c) := by
  refine ⟨⟨⟨"g", "/etc/x", "jar", "", "1"⟩, by decide, by decide, ?_⟩,
    ⟨⟨"g", "..", "jar", "", ".."⟩, by decide, by decide, ?_⟩⟩
  · rintro ⟨rest, same, -⟩
    have path : pathOf "repo" ⟨"g", "/etc/x", "jar", "", "1"⟩ = "/etc/x-1.jar" := by decide
    have heads := congrArg (fun p => p.toList.head?) (path.symm.trans same)
    simp [Path.opened] at heads
  · rw [below_pathOf_iff (by decide) (by decide)]
    exact fun level => level ".." (by decide) (by decide)

end StreamLang.Repository
