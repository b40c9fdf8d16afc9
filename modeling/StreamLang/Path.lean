/-!
Paths with slashes between their components. Nothing is normalised: empty components, `.` and `..`
stay as they are written.
-/

namespace StreamLang.Path

/-- Whether the path starts at the root of all paths. -/
def isAbsolute (path : String) : Bool := path.toList.head? == some '/'

/-- The path followed by one more component. An absolute component replaces the path, and a slash is
put in between only where the path is not empty and does not end in one. -/
def push (path component : String) : String :=
  if isAbsolute component then component
  else if path = "" ∨ path.toList.getLast? = some '/' then path ++ component
  else path ++ "/" ++ component

end StreamLang.Path
