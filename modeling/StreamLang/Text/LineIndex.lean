import StreamLang.Text.Bytes

/-!
Lines and columns of byte offsets. A line ends with a line feed; a column counts bytes. Positions
are 32-bit words, counted from zero and shown counted from one.
-/

namespace StreamLang

/-- A line and a column, both counted from zero. -/
structure LineColumn where
  line : UInt32
  column : UInt32
  deriving DecidableEq, Repr

namespace LineColumn

/-- The line counted from one. -/
def lineNumber (p : LineColumn) : UInt32 := p.line + 1

/-- The column counted from one. -/
def columnNumber (p : LineColumn) : UInt32 := p.column + 1

/-- The position as messages show it. -/
def render (p : LineColumn) : String :=
  toString p.lineNumber.toNat ++ ":" ++ toString p.columnNumber.toNat

end LineColumn

/-- The offsets at which the lines of a text start, in order. -/
structure LineIndex where
  starts : List UInt32
  deriving DecidableEq, Repr

namespace LineIndex

/-- The offsets after each line feed of a text that starts at `offset`. -/
def afterLineFeeds (offset : Nat) : List Char → List UInt32
  | [] => []
  | c :: cs =>
      if c = '\n' then UInt32.ofNat (offset + 1) :: afterLineFeeds (offset + 1) cs
      else afterLineFeeds (offset + c.utf8Size) cs

/-- The index of a text: its first line starts at zero, and every other after a line feed. -/
def ofText (text : String) : LineIndex :=
  ⟨0 :: afterLineFeeds 0 text.toList⟩

/-- The number of lines. -/
def size (index : LineIndex) : Nat := index.starts.length

/-- Whether the index has no line. -/
def isEmpty (index : LineIndex) : Bool := index.starts.isEmpty

/-- The position of a byte offset: the last line that starts at or before it, and the distance
from that start. Offsets past the end of the text count on in its last line. -/
def locate (index : LineIndex) (offset : UInt32) : LineColumn :=
  let line := index.starts.countP (· ≤ offset) - 1
  ⟨UInt32.ofNat line, offset - index.starts.getD line 0⟩

/-- Every text has a first line. -/
theorem size_ofText_pos (text : String) : 0 < (ofText text).size := by
  simp [ofText, size]

end LineIndex

end StreamLang
