/-!
Text measured in UTF-8 bytes: the length of a list of characters, and the part of a text that ends
at a byte offset. `byteLength_toList` says that the characters of a text have its bytes, and
`takeBytes_append` that cutting at the length of the first part of a text gives back that part.
-/

namespace StreamLang

/-- The number of UTF-8 bytes of the characters. -/
def byteLength (cs : List Char) : Nat :=
  cs.foldr (fun c n => c.utf8Size + n) 0

@[simp] theorem byteLength_nil : byteLength [] = 0 := rfl

@[simp] theorem byteLength_cons (c : Char) (cs : List Char) :
    byteLength (c :: cs) = c.utf8Size + byteLength cs := rfl

@[simp] theorem byteLength_append (cs ds : List Char) :
    byteLength (cs ++ ds) = byteLength cs + byteLength ds := by
  induction cs with
  | nil => simp
  | cons c cs ih => simp [ih, Nat.add_assoc]

/-- The characters of a text have the bytes of the text. -/
@[simp] theorem byteLength_toList (text : String) : byteLength text.toList = text.utf8ByteSize := by
  have ofChars : ∀ cs : List Char, byteLength cs = (String.ofList cs).utf8ByteSize := by
    intro cs
    induction cs with
    | nil => simp
    | cons c cs ih =>
        have split : String.ofList (c :: cs) = String.ofList [c] ++ String.ofList cs := by
          rw [← String.ofList_append]
          rfl
        have one : (String.ofList [c]).utf8ByteSize = c.utf8Size := by
          rw [← String.singleton_eq_ofList, String.utf8ByteSize_singleton]
        rw [byteLength_cons, ih, split, String.utf8ByteSize_append, one]
  rw [ofChars, String.ofList_toList]

/-- The longest start of the text that has at most the given number of bytes. -/
def takeBytes : Nat → List Char → List Char
  | _, [] => []
  | n, c :: cs => if c.utf8Size ≤ n then c :: takeBytes (n - c.utf8Size) cs else []

@[simp] theorem takeBytes_append (cs ds : List Char) :
    takeBytes (byteLength cs) (cs ++ ds) = cs := by
  induction cs with
  | nil =>
      cases ds with
      | nil => rfl
      | cons d ds =>
          have := d.utf8Size_pos
          simp [takeBytes]
          omega
  | cons c cs ih => simp [takeBytes, ih]

/-- The part of the text before a byte offset. -/
def Text.upTo (text : String) (offset : Nat) : String :=
  String.ofList (takeBytes offset text.toList)

/-- The byte offsets at which a character starts, and the end of the text. -/
def Text.boundaries (text : String) : List Nat :=
  go 0 text.toList
where
  /-- The boundaries of the characters from a byte offset on. -/
  go (offset : Nat) : List Char → List Nat
    | [] => [offset]
    | c :: cs => offset :: go (offset + c.utf8Size) cs

end StreamLang
