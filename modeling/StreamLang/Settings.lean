import StreamLang.Completion.Engine

/-!
Settings: the modules to register, under keys of the form `type:name`, and the order in which module
types are tried.
-/

namespace StreamLang

/-- Why settings cannot be used. -/
inductive SettingsError where
  /-- The file of the settings cannot be read. -/
  | io (path : String)
  /-- The text is no settings document. -/
  | malformed
  /-- A key names no module type and module. -/
  | invalidRegistryKey (key : String)
  /-- The value of a key is no coordinates. -/
  | coordinates (key : String) (cause : CoordinatesError)
  /-- The order of types is empty or repeats a type. -/
  | invalidTypePrecedence
  deriving DecidableEq, Repr

/-- What is wrong. -/
def SettingsError.message : SettingsError → String
  | .io path => "failed to read settings from " ++ path
  | .malformed => "invalid settings"
  | .invalidRegistryKey key => "invalid registry key '" ++ key ++ "': expected 'type:name'"
  | .coordinates key _ => "invalid coordinates for registry key '" ++ key ++ "'"
  | .invalidTypePrecedence =>
      "type precedence must list each module type at most once and not be empty"

/-- Settings of the registry and of completion. -/
structure Settings where
  /-- The coordinates of the modules to register, by key. -/
  contents : OrderedMap String String
  /-- The order in which module types are tried. -/
  precedence : List ModuleType
  deriving DecidableEq, Repr

/-- The settings of an empty document. -/
def Settings.default : Settings := ⟨.empty, ModuleType.all⟩

/-! ## Registered modules -/

namespace Registration

/-- The type and name that a key stands for. Spaces in keys mean nothing. -/
def ofKey? (key : String) : Option (ModuleType × String) :=
  let compact := key.toList.filter (· ≠ ' ')
  match compact.span (· ≠ ':') with
  | (type, ':' :: name) =>
      match ModuleType.ofName? (String.ofList type) with
      | some type => if name.isEmpty then none else some (type, String.ofList name)
      | none => none
  | _ => none

/-- The registration that an entry of the settings stands for. -/
def ofEntry (key value : String) : Except SettingsError Registration :=
  match ofKey? key with
  | none => .error (.invalidRegistryKey key)
  | some (type, name) =>
      match Coordinates.parse value with
      | .error cause => .error (.coordinates key cause)
      | .ok coordinates => .ok ⟨type, name, coordinates⟩

end Registration

namespace Registry

/-- Registers the entries in order, up to the first that is wrong. -/
def addEntries (r : Registry) : List (String × String) → Logged (Except SettingsError Registry)
  | [] => pure (.ok r)
  | (key, value) :: rest =>
      match Registration.ofEntry key value with
      | .error e => pure (.error e)
      | .ok m => do
          let (r, _) ← r.register m
          r.addEntries rest

/-- The registry of the modules in settings. -/
def ofContents (contents : OrderedMap String String) : Logged (Except SettingsError Registry) :=
  addEntries .empty contents.entries

end Registry

/-! ## Order of types -/

/-- Whether the list can order types: it has one, and none twice. -/
def ModuleType.isPrecedence (types : List ModuleType) : Bool :=
  !types.isEmpty && decide types.Nodup

/-- The engine with the usual strategies that tries types in this order. -/
def Engine.ofPrecedence (types : List ModuleType) : Except SettingsError Engine :=
  if ModuleType.isPrecedence types then .ok (.standard types) else .error .invalidTypePrecedence

end StreamLang
