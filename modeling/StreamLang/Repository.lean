import StreamLang.Artifact
import StreamLang.Repository.FileTree

/-!
Repositories of artifacts: files below a root, in one directory for each component of the group,
then one for the artifact and one for the version.
-/

namespace StreamLang.Repository

/-- The path of an artifact below a root, whether or not there is a file. -/
def pathOf (root : String) (c : Coordinates) : String :=
  let groups := (c.group.toList.splitOn '.').map String.ofList
  (groups ++ [c.artifact, c.version, c.fileName]).foldl Path.push root

/-- The artifact below a root, when there is a file at its path. -/
def resolve (tree : FileTree) (root : String) (c : Coordinates) :
    Except ResolutionError Artifact :=
  let path := pathOf root c
  match tree.lookup path with
  | .ok (.file _) => .ok ⟨c, path⟩
  | .ok .directory => .error (.notFound c path)
  | .error .missing => .error (.notFound c path)
  | .error _ => .error (.io c)

end StreamLang.Repository
