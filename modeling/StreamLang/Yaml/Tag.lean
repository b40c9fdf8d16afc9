import StreamLang.Yaml.Character

/-!
Tags of YAML texts. A tag is written as a handle and an ending, and the handle stands for the
beginning that a directive gives it. A tag consists of octets, which need not be those of a text,
and what follows a zero octet does not count.
-/

namespace StreamLang.Yaml

/-- A tag as it is written. A tag without handle stands for itself. -/
structure Tag where
  handle : String
  ending : List UInt8
  deriving DecidableEq, Repr

namespace Tag

/-! ## Octets -/

/-- The octets before the first zero. -/
def beforeZero (octets : List UInt8) : List UInt8 := octets.takeWhile (· != 0)

/-- The octets of ASCII characters. -/
def octetsOf (cs : List Char) : List UInt8 := cs.map Char.toUInt8

/-- The number of octets of a character whose first octet is this one. -/
def octetCount? (octet : UInt8) : Option Nat :=
  if octet < 0x80 then some 1
  else if octet < 0xC0 then none
  else if octet < 0xE0 then some 2
  else if octet < 0xF0 then some 3
  else if octet < 0xF8 then some 4
  else none

/-- The octet written as a percent sign and two hexadecimal digits, and what follows it. -/
def octet? : List Placed → Option (UInt8 × List Placed)
  | p :: q :: r :: rest =>
      if p.char == '%' then (hexNumber? [q.char, r.char]).map (·.toUInt8, rest) else none
  | _ => none

/-- This many octets that may follow the first of a character. -/
def moreOctets? : Nat → List Placed → Option (List UInt8)
  | 0, _ => some []
  | n + 1, ps => do
      let (octet, rest) ← octet? ps
      if 0x80 ≤ octet ∧ octet < 0xC0 then (octet :: ·) <$> moreOctets? n rest else none

/-- The octets of an escaped character, and the number of characters they take. Whether they are
the octets of a character is not looked at beyond their number. -/
def escaped? (ps : List Placed) : Option (List UInt8 × Nat) := do
  let (first, rest) ← octet? ps
  let count ← octetCount? first
  let more ← moreOctets? (count - 1) rest
  pure (first :: more, 3 * count)

/-! ## Written tags -/

/-- A character of a tag. Flow indicators belong only to tags in angle brackets. -/
def isTagChar (verbatim : Bool) (c : Char) : Bool :=
  isWordChar c || ";/?:@&=+$.%!~*'()".toList.contains c ||
    (verbatim && (c == ',' || c == '[' || c == ']'))

/-- The octets of the characters of a tag, escapes decoded, and what follows them. The first `skip`
characters belong to an escape that has been read. -/
def tagText? (verbatim : Bool) : (skip : Nat) → List Placed → Option (List UInt8 × List Placed)
  | _, [] => some ([], [])
  | n + 1, _ :: ps => tagText? verbatim n ps
  | 0, p :: ps =>
      if !isTagChar verbatim p.char then some ([], p :: ps)
      else if p.char == '%' then
        match escaped? (p :: ps) with
        | none => none
        | some (octets, n) =>
            (tagText? verbatim (n - 1) ps).map fun (more, rest) => (octets ++ more, rest)
      else (tagText? verbatim 0 ps).map fun (more, rest) => (p.char.toUInt8 :: more, rest)

/-- What `tagText?` finds, up to a zero, when there is at least one octet. -/
def someTagText? (verbatim : Bool) (ps : List Placed) : Option (List UInt8 × List Placed) :=
  match tagText? verbatim 0 ps with
  | some ([], _) => none
  | found => found.map fun (octets, rest) => (beforeZero octets, rest)

/-- The handle after its exclamation mark, or the characters that could have been one, and what
follows. -/
def opening (ps : List Placed) : List Char × List Placed :=
  let word := chars (ps.takeWhile fun p => isWordChar p.char)
  match ps.dropWhile fun p => isWordChar p.char with
  | p :: rest => if p.char == '!' then ('!' :: word ++ ['!'], rest) else ('!' :: word, p :: rest)
  | [] => ('!' :: word, [])

/-- Whether the characters of a handle have an exclamation mark at either end. -/
def isHandle (cs : List Char) : Bool :=
  1 < cs.length && cs.getLast? == some '!'

/-- The tag after its exclamation mark, and what follows it. -/
def ofPlaced? (inFlow : Bool) (ps : List Placed) : Option (Tag × List Placed) := do
  let (tag, rest) ←
    if startsWith '<' ps then do
      let (ending, rest) ← someTagText? true ps.tail
      if startsWith '>' rest then some (⟨"", ending⟩, rest.tail) else none
    else do
      let (start, rest) := opening ps
      if isHandle start then do
        let (ending, rest) ← someTagText? false rest
        some (⟨String.ofList start, ending⟩, rest)
      else do
        let (more, rest) ← tagText? false 0 rest
        let ending := beforeZero (octetsOf start.tail ++ more)
        if ending.isEmpty then some (⟨"", octetsOf ['!']⟩, rest) else some (⟨"!", ending⟩, rest)
  if atBlank rest || (inFlow && startsWith ',' rest) then some (tag, rest) else none

/-! ## Meaning -/

/-- The octets of the whole tag, when its handle is known. -/
def resolve? (handles : List (String × List UInt8)) (t : Tag) : Option (List UInt8) :=
  if t.handle = "" then some t.ending
  else (handles.lookup t.handle).map fun start => start ++ t.ending

/-- The handles that need no directive. -/
def defaultHandles : List (String × List UInt8) :=
  [("!", octetsOf ['!']), ("!!", octetsOf "tag:yaml.org,2002:".toList)]

/-- The name of a whole tag that starts with an exclamation mark. Tags of other octets than those of
a text have none. -/
def localName? : List UInt8 → Option String
  | octet :: name => if octet = '!'.toUInt8 then String.fromUTF8? name.toByteArray else none
  | [] => none

end Tag

end StreamLang.Yaml
