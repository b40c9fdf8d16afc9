import StreamLang.Proofs.Coordinates
import StreamLang.Proofs.Repository.Confinement

/-!
Distinct artifacts have distinct files.

The path of coordinates without slashes and without empty directories has its components as pieces
(`Repository.exists_pieces_pathOf`). Its last three pieces are the artifact, the version and the name
of the file, and the others are the group. In the name of the file, after artifact and version, the
first dot stands before the extension, if the classifier has none. So the coordinates can be read off
the path, below any root (`Repository.pathOf_injective`).
-/

namespace StreamLang.Repository

variable {c d : Coordinates} {root input input' : String}

/-! ## Names of files -/

/-- What the name of the file has after the version and before the dot. -/
def classifierMark (c : Coordinates) : List Char :=
  if c.classifier = "" then [] else '-' :: c.classifier.toList

theorem toList_fileName_eq (c : Coordinates) :
    c.fileName.toList =
      c.artifact.toList ++ '-' :: c.version.toList ++
        (classifierMark c ++ '.' :: c.extension.toList) := by
  unfold Coordinates.fileName classifierMark
  split <;> simp [String.toList_append]

theorem not_mem_classifierMark (undotted : '.' ∉ c.classifier.toList) :
    '.' ∉ classifierMark c := by
  unfold classifierMark
  split
  · exact List.not_mem_nil
  · simp [undotted]

theorem classifier_eq_of_mark (same : classifierMark c = classifierMark d) :
    c.classifier = d.classifier := by
  unfold classifierMark at same
  split at same <;> split at same
  · next none none' => rw [none, none']
  · cases same
  · cases same
  · rw [← String.toList_inj]
    exact (List.cons.inj same).2

/-- With the artifact and the version, the name of the file gives the classifier and the
extension. -/
theorem eq_of_fileName (artifact : c.artifact = d.artifact) (version : c.version = d.version)
    (undotted : '.' ∉ c.classifier.toList) (undotted' : '.' ∉ d.classifier.toList)
    (same : c.fileName = d.fileName) :
    c.classifier = d.classifier ∧ c.extension = d.extension := by
  have chars := congrArg String.toList same
  rw [toList_fileName_eq, toList_fileName_eq, artifact, version] at chars
  obtain ⟨mark, extension⟩ := append_cons_inj_of_not_mem (not_mem_classifierMark undotted)
    (not_mem_classifierMark undotted') (List.append_cancel_left chars)
  exact ⟨classifier_eq_of_mark mark, String.toList_inj.mp extension⟩

/-! ## Paths -/

/-- Coordinates that can be read off their path: no part has a slash, no directory of the group is
empty, and the classifier has no dot. -/
structure Legible (c : Coordinates) : Prop where
  slashless : Slashless c
  groups : [] ∉ c.group.toList.splitOn '.'
  undotted : '.' ∉ c.classifier.toList

/-- The components of a path, as they are pushed onto the root. -/
def componentsOf (c : Coordinates) : List String :=
  directoriesOf c ++ [c.fileName]

/-- The components are the pieces of what the path goes on with after its root. -/
theorem exists_pieces_pathOf (formed : c.WellFormed) (legible : Legible c) (root : String) :
    ∃ rest, pathOf root c = Path.lead root ++ rest ∧ Text.Pieces '/' rest (componentsOf c) := by
  rw [pathOf_eq]
  refine Path.exists_pieces_foldl_push (by simp) (fun part member => ?_) (fun part member => ?_)
    root
  · rcases List.mem_append.mp member with directory | file
    · rcases List.mem_append.mp directory with group | others
      · obtain ⟨piece, split, rfl⟩ := List.mem_map.mp group
        intro empty
        have none : piece = [] := by simpa using congrArg String.toList empty
        exact legible.groups (none ▸ split)
      · refine formed.filled part ?_
        simp only [List.mem_cons, List.not_mem_nil, or_false] at others ⊢
        rcases others with artifact | version
        · exact Or.inr (Or.inl artifact)
        · exact Or.inr (Or.inr (Or.inr version))
    · cases List.mem_singleton.mp file
      exact fileName_ne_empty c
  · rcases List.mem_append.mp member with directory | file
    · exact not_mem_directory legible.slashless directory
    · cases List.mem_singleton.mp file
      exact not_mem_fileName legible.slashless

/-- The components give the group, the artifact, the version and the name of the file. -/
theorem eq_of_componentsOf (same : componentsOf c = componentsOf d) :
    c.group = d.group ∧ c.artifact = d.artifact ∧ c.version = d.version ∧
      c.fileName = d.fileName := by
  simp only [componentsOf, directoriesOf, List.append_assoc] at same
  obtain ⟨groups, others⟩ := List.append_inj' same rfl
  simp only [List.cons_append, List.nil_append, List.cons.injEq, and_true] at others
  refine ⟨?_, others⟩
  -- The pieces of a group, joined again, are the group.
  have pieces : c.group.toList.splitOn '.' = d.group.toList.splitOn '.' :=
    (List.map_inj_right fun _ _ => String.ofList_injective).mp groups
  have joined := congrArg (List.intercalate ['.']) pieces
  rw [List.intercalate_splitOn, List.intercalate_splitOn] at joined
  exact String.toList_inj.mp joined

/-- Distinct artifacts live in distinct files. Coordinates that are read from texts, have no slash
in any part, no empty directory in their group and no dot in their classifier, are the same if their
paths are, whatever the root. -/
theorem pathOf_injective (read : Coordinates.parse input = .ok c)
    (read' : Coordinates.parse input' = .ok d) (legible : Legible c) (legible' : Legible d)
    (same : pathOf root c = pathOf root d) : c = d := by
  obtain ⟨rest, path, pieces⟩ :=
    exists_pieces_pathOf (Coordinates.wellFormed_of_parse read) legible root
  obtain ⟨rest', path', pieces'⟩ :=
    exists_pieces_pathOf (Coordinates.wellFormed_of_parse read') legible' root
  rw [path, path', String.append_right_inj] at same
  subst same
  have components : componentsOf c = componentsOf d :=
    (Text.pieces_iff.mp pieces).trans (Text.pieces_iff.mp pieces').symm
  obtain ⟨group, artifact, version, file⟩ := eq_of_componentsOf components
  obtain ⟨classifier, extension⟩ :=
    eq_of_fileName artifact version legible.undotted legible'.undotted file
  obtain ⟨g, a, e, k, v⟩ := c
  obtain ⟨g', a', e', k', v'⟩ := d
  cases group
  cases artifact
  cases version
  cases classifier
  cases extension
  rfl

/-- The short form of coordinates and the one that writes the extension have one path, and are the
same coordinates. -/
theorem pathOf_injective_explicitExtension :
    ∃ c d, Coordinates.parse "org.example:log-sink:1.0" = .ok c ∧
      Coordinates.parse " org.example:log-sink:jar:1.0" = .ok d ∧
      pathOf "/repo" c = "/repo/org/example/log-sink/1.0/log-sink-1.0.jar" ∧ c = d := by
  have read : Coordinates.parse "org.example:log-sink:1.0" =
      .ok ⟨"org.example", "log-sink", "jar", "", "1.0"⟩ := by decide
  have read' : Coordinates.parse " org.example:log-sink:jar:1.0" =
      .ok ⟨"org.example", "log-sink", "jar", "", "1.0"⟩ := by decide
  have legible : Legible ⟨"org.example", "log-sink", "jar", "", "1.0"⟩ :=
    ⟨by decide, by decide, by decide⟩
  have path : pathOf "/repo" ⟨"org.example", "log-sink", "jar", "", "1.0"⟩ =
      "/repo/org/example/log-sink/1.0/log-sink-1.0.jar" := by decide
  exact ⟨_, _, read, read', path,
    pathOf_injective read read' legible legible (path.trans path.symm)⟩

/-- With a dot in the classifier the name of the file can be split at another dot. -/
example :
    pathOf "repo" ⟨"g", "a", "gz", "src.tar", "1"⟩ =
      pathOf "repo" ⟨"g", "a", "tar.gz", "src", "1"⟩ := by
  decide

end StreamLang.Repository
