import StreamLang.Artifact

/-!
Properties in structured documents.

A property is a record whose fields may be left out, or a list of its fields in order, of which the
last may be left out. Fields of other names are ignored, and a field of the wrong shape spoils the
property.
-/

namespace StreamLang

/-- A structured document. Numbers carry no value, because no property holds one. -/
inductive Document where
  | null
  | boolean
  | number
  | text (value : String)
  | list (items : List Document)
  | record (fields : List (String × Document))

namespace Document

instance : Inhabited Document := ⟨.null⟩

/-- The text, when the document is one. -/
def text? : Document → Option String
  | .text value => some value
  | _ => none

/-- The text or its absence, when the document is a text or null. -/
def optionalText? : Document → Option (Option String)
  | .null => some none
  | .text value => some (some value)
  | _ => none

/-- The texts, when the document is a list of them. -/
def texts? : Document → Option (List String)
  | .list items => items.mapM text?
  | _ => none

/-- Reads a field that may be left out. -/
def field {α : Type} (read : Document → Option α) (fallback : α) : Option Document → Option α
  | none => some fallback
  | some d => read d

end Document

namespace Property

/-- The property with these fields. -/
def ofFields (id short description default hints : Option Document) : Option Property := do
  let id ← Document.field Document.text? "" id
  let short ← Document.field Document.text? "" short
  let description ← Document.field Document.text? "" description
  let default ← Document.field Document.optionalText? none default
  let hints ← Document.field Document.texts? [] hints
  pure ⟨id, short, description, default, hints⟩

/-- The property that a document stands for. -/
def ofDocument : Document → Option Property
  | .record fields =>
      ofFields (fields.lookup "id") (fields.lookup "short-description")
        (fields.lookup "description") (fields.lookup "default-value")
        (fields.lookup "value-hints")
  | .list items =>
      if items.length ≤ 5 then ofFields items[0]? items[1]? items[2]? items[3]? items[4]?
      else none
  | _ => none

end Property

end StreamLang
