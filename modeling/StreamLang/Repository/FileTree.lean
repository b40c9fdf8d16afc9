import StreamLang.Path
import StreamLang.Text.Bytes

/-!
A tree of files, and what a path leads to in it.

A path is walked one component after the other, from the directory where relative paths start.
Every step needs a directory to step from, so a path that goes on after a file is an obstacle of its
own, unlike a path whose next component is missing.

A place is named by the names on the way to it. Above the starting directory there are directories
too, whose names are not known: the way to them is `..`, or `/` for the topmost.
-/

namespace StreamLang

/-- What a path can lead to. -/
inductive FileEntry where
  | directory
  | file (contents : ByteArray)

/-- Why a path leads to nothing. -/
inductive PathObstacle where
  /-- A component is missing. -/
  | missing
  /-- The path goes on after a file. -/
  | notDirectory
  /-- The path or a component is too long. -/
  | tooLong
  /-- The path holds a NUL character. -/
  | unusable
  deriving DecidableEq, Repr

/-- Files and directories by the names on the way to them. The starting directory and those above it
are always there. -/
structure FileTree where
  entries : List (List String × FileEntry)

namespace FileTree

/-- The tree without files. -/
def empty : FileTree := ⟨[]⟩

/-- The components of a path, empty ones included. -/
def componentsOf (path : String) : List String :=
  (path.toList.splitOn '/').map String.ofList

/-- The components that lead somewhere: neither empty nor a single dot. -/
def stepsOf (path : String) : List String :=
  (componentsOf path).filter fun c => c != "" && c != "."

/-- Where a path starts. -/
def startOf (path : String) : List String :=
  if Path.isAbsolute path then ["/"] else []

/-- The directory above a place. The topmost is above itself. -/
def above (here : List String) : List String :=
  if here = ["/"] then here
  else
    match here.getLast? with
    | none | some ".." => here ++ [".."]
    | some _ => here.dropLast

/-- The entry with these names on its way. -/
def entry? (tree : FileTree) (names : List String) : Option FileEntry :=
  if names.all (· == "..") || names == ["/"] then some .directory else tree.entries.lookup names

/-- Whether there is a directory. -/
def isDirectory (tree : FileTree) (names : List String) : Bool :=
  match tree.entry? names with
  | some .directory => true
  | _ => false

/-- Puts an entry in place. -/
def put (tree : FileTree) (names : List String) (e : FileEntry) : FileTree :=
  ⟨(names, e) :: tree.entries.filter fun old => old.1 != names⟩

/-- Goes on from the directory `here` by steps, creating directories that are missing, and tells
where it arrives. -/
def enter (tree : FileTree) (here : List String) : List String → FileTree × List String
  | [] => (tree, here)
  | step :: rest =>
      if step = ".." then tree.enter (above here) rest
      else
        let next := here ++ [step]
        let tree := if (tree.entry? next).isSome then tree else tree.put next .directory
        tree.enter next rest

/-- The tree with a directory at a path, and those on the way to it. -/
def withDirectory (tree : FileTree) (path : String) : FileTree :=
  (tree.enter (startOf path) (stepsOf path)).1

/-- The tree with a file at a path, and the directories on the way to it. A directory stays one. -/
def withFile (tree : FileTree) (path : String) (contents : ByteArray) : FileTree :=
  let steps := stepsOf path
  match steps.getLast? with
  | none => tree
  | some name =>
      let (tree, here) := tree.enter (startOf path) steps.dropLast
      let names := here ++ [name]
      if tree.isDirectory names then tree else tree.put names (.file contents)

/-- The tree without the file at a path. A directory stays. -/
def withoutFile (tree : FileTree) (path : String) : FileTree :=
  let steps := stepsOf path
  match steps.getLast? with
  | none => tree
  | some name =>
      let names := (tree.enter (startOf path) steps.dropLast).2 ++ [name]
      if tree.isDirectory names then tree else ⟨tree.entries.filter fun old => old.1 != names⟩

/-! ## Walking -/

/-- The longest path that can be walked, in bytes. -/
def maxPathLength : Nat := 4095

/-- The longest name of an entry, in bytes. -/
def maxNameLength : Nat := 255

/-- Walks the components from `here`, which leads to an entry. -/
def walk (tree : FileTree) (here : List String) : List String → Except PathObstacle FileEntry
  | [] =>
      match tree.entry? here with
      | some e => .ok e
      | none => .error .missing
  | component :: rest =>
      if !tree.isDirectory here then .error .notDirectory
      else if component = "" ∨ component = "." then tree.walk here rest
      else if component = ".." then tree.walk (above here) rest
      else if maxNameLength < component.utf8ByteSize then .error .tooLong
      else if (tree.entry? (here ++ [component])).isNone then .error .missing
      else tree.walk (here ++ [component]) rest

/-- What a path leads to. -/
def lookup (tree : FileTree) (path : String) : Except PathObstacle FileEntry :=
  if path = "" then .error .missing
  else if path.toList.contains '\x00' then .error .unusable
  else if maxPathLength < path.utf8ByteSize then .error .tooLong
  else tree.walk (startOf path) (componentsOf path)

end FileTree

end StreamLang
