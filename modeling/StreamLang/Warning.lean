import StreamLang.Artifact
import StreamLang.ModuleType

/-!
Warnings, and answers that come with them. A warning never changes an answer: it reports something
that was passed over on the way to it.
-/

namespace StreamLang

/-- Something that was passed over. -/
inductive Warning where
  /-- A module was registered again, and its earlier coordinates were forgotten. -/
  | duplicate (type : ModuleType) (name : String) (before after : Coordinates)
  /-- The artifact of a module was not found, and nothing was proposed from it. -/
  | unresolved (name : String) (cause : ResolutionError)
  /-- The properties of a module could not be listed, and nothing was proposed from them. -/
  | unlisted (name : String) (cause : MetadataError)
  deriving DecidableEq, Repr

/-- What was passed over. -/
def Warning.message : Warning → String
  | .duplicate type name before after =>
      "duplicate mapping for module '" ++ type.name ++ ":" ++ name ++ "': both " ++
        before.render ++ " and " ++ after.render ++ " registered"
  | .unresolved _ _ => "failed to resolve module artifact, no proposals"
  | .unlisted _ _ => "failed to list module properties, no proposals"

/-- An answer with the warnings given on the way to it, in order. -/
structure Logged (α : Type) where
  value : α
  warnings : List Warning
  deriving DecidableEq, Repr

namespace Logged

/-- An answer without warnings. -/
def quiet {α : Type} (value : α) : Logged α := ⟨value, []⟩

/-- Goes on from an answer, keeping its warnings before the later ones. -/
def andThen {α β : Type} (x : Logged α) (f : α → Logged β) : Logged β :=
  ⟨(f x.value).value, x.warnings ++ (f x.value).warnings⟩

instance : Monad Logged where
  pure := quiet
  bind := andThen

@[simp] theorem value_pure {α : Type} (a : α) : (pure a : Logged α).value = a := rfl

@[simp] theorem warnings_pure {α : Type} (a : α) : (pure a : Logged α).warnings = [] := rfl

@[simp] theorem value_bind {α β : Type} (x : Logged α) (f : α → Logged β) :
    (x >>= f).value = (f x.value).value := rfl

@[simp] theorem warnings_bind {α β : Type} (x : Logged α) (f : α → Logged β) :
    (x >>= f).warnings = x.warnings ++ (f x.value).warnings := rfl

end Logged

end StreamLang
