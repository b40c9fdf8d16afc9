import StreamLang.OrderedMap
import StreamLang.Warning

/-!
Registered modules. A module is known by its type and its name together, so that one name can stand
for modules of several types. Registering a known pair again replaces its coordinates and keeps its
place.
-/

namespace StreamLang

/-- A module with the coordinates of its artifact. -/
structure Registration where
  type : ModuleType
  name : String
  coordinates : Coordinates
  deriving DecidableEq, Repr

/-- The modules registered so far. -/
structure Registry where
  modules : OrderedMap (ModuleType × String) Coordinates
  deriving DecidableEq, Repr

namespace Registry

/-- The registry without modules. -/
def empty : Registry := ⟨.empty⟩

instance : Inhabited Registry := ⟨empty⟩

/-- The registration of a module, by name and type. -/
def find? (r : Registry) (name : String) (type : ModuleType) : Option Registration :=
  (r.modules.get? (type, name)).map fun coordinates => ⟨type, name, coordinates⟩

/-- All registrations, in the order in which their modules were first registered. -/
def all (r : Registry) : List Registration :=
  r.modules.entries.map fun e => ⟨e.1.1, e.1.2, e.2⟩

/-- The number of registered modules. -/
def size (r : Registry) : Nat := r.modules.size

/-- Whether no module is registered. -/
def isEmpty (r : Registry) : Bool := r.modules.isEmpty

/-- The registry after a registration, with the coordinates it replaced. Replacing coordinates, even
by equal ones, gives a warning. -/
def register (r : Registry) (m : Registration) : Logged (Registry × Option Coordinates) :=
  let before := r.modules.get? (m.type, m.name)
  ⟨(⟨r.modules.insert (m.type, m.name) m.coordinates⟩, before),
    match before with
    | some coordinates => [.duplicate m.type m.name coordinates m.coordinates]
    | none => []⟩

/-- The registry after registrations one by one. -/
def registerAll (r : Registry) : List Registration → Logged Registry
  | [] => pure r
  | m :: ms => do
      let (r, _) ← r.register m
      r.registerAll ms

end Registry

/-! ## Looking modules up -/

/-- What completion needs to know about registered modules. -/
structure Catalog where
  /-- The registration of a module, by name and type. -/
  find? : String → ModuleType → Option Registration
  /-- Every registration, in order. -/
  all : List Registration

/-- The catalog of a registry. -/
def Registry.catalog (r : Registry) : Catalog := ⟨r.find?, r.all⟩

end StreamLang
