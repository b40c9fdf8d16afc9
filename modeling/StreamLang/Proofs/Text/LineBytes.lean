import StreamLang.Proofs.Text.LineIndex

/-!
Positions counted in bytes.

A line feed is one byte, and no other character has that byte (`count_utf8Bytes`). So the position
of a byte offset, also of one within a character, counts the line feed bytes before the offset and
the bytes after the last of them (`LineColumn.CountsIn`). Nothing else decides it, and positions
grow with their offsets (`LineColumn.CountsIn.precedes`).
-/

namespace StreamLang

/-- The byte of a line feed. -/
def lineFeed : UInt8 := 10

/-- The bytes of a text. -/
def Text.bytes (text : String) : List UInt8 := text.toByteArray.data.toList

/-! ## Bytes of characters -/

/-- The bytes of the characters, one character after the other. -/
def utf8Bytes (cs : List Char) : List UInt8 := cs.flatMap String.utf8EncodeChar

theorem utf8Bytes_cons (c : Char) (cs : List Char) :
    utf8Bytes (c :: cs) = String.utf8EncodeChar c ++ utf8Bytes cs := List.flatMap_cons

theorem utf8Bytes_append (cs ds : List Char) :
    utf8Bytes (cs ++ ds) = utf8Bytes cs ++ utf8Bytes ds := List.flatMap_append

theorem Text.bytes_eq (text : String) : Text.bytes text = utf8Bytes text.toList := by
  rw [Text.bytes, ← String.utf8Encode_toList, List.utf8Encode, List.toList_data_toByteArray,
    utf8Bytes]

theorem length_utf8Bytes (cs : List Char) : (utf8Bytes cs).length = byteLength cs := by
  induction cs with
  | nil => rfl
  | cons c cs ih =>
      rw [utf8Bytes_cons, List.length_append, String.length_utf8EncodeChar, ih, byteLength_cons]

/-- The bytes of a character outside ASCII are 128 or more, and so no other character has the byte
of a line feed. -/
theorem lineFeed_not_mem_utf8EncodeChar {c : Char} (visible : c ≠ '\n') :
    lineFeed ∉ String.utf8EncodeChar c := by
  have code : c.val.toNat ≠ 10 := fun same => visible (Char.ext (UInt32.toNat_inj.mp same))
  have other : ∀ n : Nat, n < 256 → n ≠ 10 → lineFeed ≠ UInt8.ofNat n := by
    intro n byte different same
    have value := congrArg UInt8.toNat same
    rw [UInt8.toNat_ofNat_of_lt' byte] at value
    exact different value.symm
  simp only [String.utf8EncodeChar]
  split
  · simpa using other c.val.toNat (by omega) code
  · split
    · simp only [List.mem_cons, List.not_mem_nil, or_false, not_or]
      exact ⟨other _ (by omega) (by omega), other _ (by omega) (by omega)⟩
    · split
      · simp only [List.mem_cons, List.not_mem_nil, or_false, not_or]
        exact ⟨other _ (by omega) (by omega), other _ (by omega) (by omega),
          other _ (by omega) (by omega)⟩
      · simp only [List.mem_cons, List.not_mem_nil, or_false, not_or]
        exact ⟨other _ (by omega) (by omega), other _ (by omega) (by omega),
          other _ (by omega) (by omega), other _ (by omega) (by omega)⟩

/-- Line feeds are counted by their bytes. -/
theorem count_utf8Bytes (cs : List Char) : (utf8Bytes cs).count lineFeed = cs.count '\n' := by
  induction cs with
  | nil => rfl
  | cons c cs ih =>
      rw [utf8Bytes_cons, List.count_append, ih]
      by_cases feed : c = '\n'
      · subst feed
        have one : (String.utf8EncodeChar '\n').count lineFeed = 1 := rfl
        rw [one, List.count_cons_self, Nat.add_comm]
      · rw [List.count_eq_zero.mpr (lineFeed_not_mem_utf8EncodeChar feed),
          List.count_cons_of_ne feed, Nat.zero_add]

theorem lineFeed_not_mem_utf8Bytes {cs : List Char} (whole : '\n' ∉ cs) :
    lineFeed ∉ utf8Bytes cs := by
  rw [← List.count_eq_zero, count_utf8Bytes, List.count_eq_zero]
  exact whole

/-- Lines that end in line feeds end in the byte of one. -/
theorem getLast?_utf8Bytes {lines : List Char} (ends : ∀ c ∈ lines.getLast?, c = '\n') :
    ∀ b ∈ (utf8Bytes lines).getLast?, b = lineFeed := by
  rcases List.eq_nil_or_concat lines with rfl | ⟨front, c, rfl⟩
  · simp [utf8Bytes]
  · rw [List.concat_eq_append] at ends ⊢
    cases ends c List.getLast?_concat
    have feed : utf8Bytes ['\n'] = [lineFeed] := rfl
    rw [utf8Bytes_append, feed, List.getLast?_concat]
    simp

section Cut

variable {before after cs : List Char} {offset : Nat}

/-- Every byte offset of a text is before a character or within it, or at the end. -/
theorem exists_cut_at (inside : offset ≤ byteLength cs) :
    ∃ before after, cs = before ++ after ∧ byteLength before ≤ offset ∧
      ∀ c ∈ after.head?, offset < byteLength before + c.utf8Size := by
  induction cs generalizing offset with
  | nil => exact ⟨[], [], rfl, Nat.zero_le _, by simp⟩
  | cons c cs ih =>
      rw [byteLength_cons] at inside
      rcases Nat.lt_or_ge offset c.utf8Size with within | past
      · exact ⟨[], c :: cs, rfl, Nat.zero_le _, by simpa using within⟩
      · obtain ⟨before, after, rfl, reached, next⟩ := @ih (offset - c.utf8Size) (by omega)
        refine ⟨c :: before, after, rfl, by rw [byteLength_cons]; omega, ?_⟩
        intro d head
        have bound := next d head
        rw [byteLength_cons]
        omega

/-- The bytes up to an offset are those of the characters before it, and part of one more character,
which has no line feed there. -/
theorem exists_take_utf8Bytes (reached : byteLength before ≤ offset)
    (next : ∀ c ∈ after.head?, offset < byteLength before + c.utf8Size) :
    ∃ part, (utf8Bytes (before ++ after)).take offset = utf8Bytes before ++ part ∧
      lineFeed ∉ part := by
  refine ⟨(utf8Bytes after).take (offset - byteLength before), ?_, ?_⟩
  · rw [utf8Bytes_append, List.take_append, length_utf8Bytes,
      List.take_of_length_le (by rwa [length_utf8Bytes])]
  · cases after with
    | nil => simp [utf8Bytes]
    | cons c after =>
        have bound := next c rfl
        have within : offset - byteLength before ≤ (String.utf8EncodeChar c).length := by
          rw [String.length_utf8EncodeChar]
          omega
        rw [utf8Bytes_cons, List.take_append_of_le_length within]
        intro member
        by_cases feed : c = '\n'
        · subst feed
          have one : '\n'.utf8Size = 1 := rfl
          have none : offset - byteLength before = 0 := by omega
          rw [none] at member
          cases member
        · exact lineFeed_not_mem_utf8EncodeChar feed (List.mem_of_mem_take member)

end Cut

/-! ## Positions that count bytes -/

/-- The line of a byte offset starts right after the last line feed before the offset, or at zero
when there is none. -/
structure IsLineStart (bytes : List UInt8) (offset start : Nat) : Prop where
  reached : start ≤ offset
  opened : start = 0 ∨ bytes[start - 1]? = some lineFeed
  last : ∀ i, start ≤ i → i < offset → bytes[i]? ≠ some lineFeed

namespace IsLineStart

variable {bytes lines rest : List UInt8} {offset start n : Nat}

/-- A line starts after lines that end in line feeds. -/
theorem of_take (taken : bytes.take offset = lines ++ rest) (inside : offset ≤ bytes.length)
    (ends : ∀ b ∈ lines.getLast?, b = lineFeed) (whole : lineFeed ∉ rest) :
    IsLineStart bytes offset lines.length := by
  have size := congrArg List.length taken
  rw [List.length_take, List.length_append] at size
  have same : ∀ i, i < offset → bytes[i]? = (lines ++ rest)[i]? := by
    intro i early
    rw [← taken, List.getElem?_take_of_lt early]
  refine ⟨by omega, ?_, ?_⟩
  · rcases List.eq_nil_or_concat lines with rfl | ⟨front, b, rfl⟩
    · exact Or.inl rfl
    · rw [List.concat_eq_append] at ends same size ⊢
      cases ends b List.getLast?_concat
      rw [List.length_append, List.length_singleton] at size ⊢
      refine Or.inr ?_
      rw [Nat.add_sub_cancel, same _ (by omega), List.append_assoc, List.getElem?_append_right
        (Nat.le_refl _), Nat.sub_self]
      rfl
  · intro i late early feed
    rw [same i early, List.getElem?_append_right late] at feed
    exact whole (List.mem_of_getElem? feed)

/-- A line starts no later than a place after which there is no line feed. -/
theorem le_of_none (starts : IsLineStart bytes offset start)
    (none : ∀ i, n ≤ i → i < start → bytes[i]? ≠ some lineFeed) : start ≤ n := by
  by_contra late
  rcases starts.opened with zero | feed
  · omega
  · exact none (start - 1) (by omega) (by omega) feed

end IsLineStart

namespace LineColumn

variable {p q : LineColumn} {bytes : List UInt8} {before after : List Char} {offset a b : Nat}

/-- The line counts the line feed bytes before a byte offset, and the column is the distance of the
offset from where its line starts. -/
structure CountsIn (p : LineColumn) (bytes : List UInt8) (offset : Nat) : Prop where
  line : p.line.toNat = (bytes.take offset).count lineFeed
  column : ∃ start, IsLineStart bytes offset start ∧ p.column.toNat = offset - start

/-- One position precedes another: it is in an earlier line, or earlier in the same line. -/
def Precedes (p q : LineColumn) : Prop :=
  p.line < q.line ∨ p.line = q.line ∧ p.column < q.column

theorem not_precedes_self (p : LineColumn) : ¬ p.Precedes p := by
  simp [Precedes]

/-- Counting line feeds among the characters before an offset counts bytes. -/
theorem IsAfter.countsIn (isAfter : p.IsAfter before offset) (reached : byteLength before ≤ offset)
    (next : ∀ c ∈ after.head?, offset < byteLength before + c.utf8Size)
    (inside : offset ≤ byteLength (before ++ after)) :
    p.CountsIn (utf8Bytes (before ++ after)) offset := by
  obtain ⟨part, taken, unfed⟩ := exists_take_utf8Bytes reached next
  obtain ⟨lines, last, rfl, ends, whole, place⟩ := isAfter.column
  rw [← length_utf8Bytes] at inside
  refine ⟨?_, byteLength lines, ?_, by omega⟩
  · rw [taken, List.count_append, List.count_eq_zero.mpr unfed, count_utf8Bytes, isAfter.line,
      Nat.add_zero]
  · rw [utf8Bytes_append lines last, List.append_assoc (utf8Bytes lines)] at taken
    rw [← length_utf8Bytes]
    refine .of_take taken inside (getLast?_utf8Bytes ends) ?_
    rw [List.mem_append, not_or]
    exact ⟨lineFeed_not_mem_utf8Bytes whole, unfed⟩

theorem CountsIn.le_offset (counts : p.CountsIn bytes offset) :
    p.line.toNat ≤ offset ∧ p.column.toNat ≤ offset := by
  obtain ⟨start, -, column⟩ := counts.column
  have line := counts.line
  have most := List.count_le_length (a := lineFeed) (l := bytes.take offset)
  rw [List.length_take] at most
  omega

/-- Positions grow with their offsets. -/
theorem CountsIn.precedes (left : p.CountsIn bytes a) (right : q.CountsIn bytes b) (less : a < b) :
    p.Precedes q := by
  obtain ⟨start, first, column⟩ := left.column
  obtain ⟨start', second, column'⟩ := right.column
  have split : bytes.take b = bytes.take a ++ (bytes.drop a).take (b - a) := by
    rw [← List.take_add, Nat.add_sub_cancel' (Nat.le_of_lt less)]
  have counts : (bytes.take b).count lineFeed =
      (bytes.take a).count lineFeed + ((bytes.drop a).take (b - a)).count lineFeed := by
    rw [split, List.count_append]
  by_cases feeds : ((bytes.drop a).take (b - a)).count lineFeed = 0
  · -- No line starts between the offsets, so both are in the line of the first.
    have none : ∀ i, a ≤ i → i < b → bytes[i]? ≠ some lineFeed := by
      intro i late early feed
      refine List.count_eq_zero.mp feeds (List.mem_of_getElem? (i := i - a) ?_)
      rw [List.getElem?_take_of_lt (by omega), List.getElem?_drop, Nat.add_sub_cancel' late, feed]
    have reached : start' ≤ a := second.le_of_none fun i late early =>
      none i late (Nat.lt_of_lt_of_le early second.reached)
    have earlier : start' ≤ start := second.le_of_none fun i late early =>
      first.last i late (Nat.lt_of_lt_of_le early reached)
    refine Or.inr ⟨UInt32.toNat_inj.mp ?_, ?_⟩
    · rw [left.line, right.line, counts, feeds, Nat.add_zero]
    · have := first.reached
      rw [UInt32.lt_iff_toNat_lt, column, column']
      omega
  · refine Or.inl ?_
    rw [UInt32.lt_iff_toNat_lt, left.line, right.line, counts]
    omega

end LineColumn

/-! ## Positions of a text -/

namespace LineIndex

variable {text : String} {offset : UInt32}

/-- The position of an offset is found without a wrap. The lines up to that of the position are
those that start at the offset or before it; that line is in the table, and its start can be taken
from the offset; and line and column can be counted from one. -/
structure Finds (index : LineIndex) (offset : UInt32) (p : LineColumn) : Prop where
  inTable : p.line.toNat < index.size
  starts : ∀ i start, index.starts[i]? = some start → (start ≤ offset ↔ i ≤ p.line.toNat)
  column : ∀ start, index.starts[p.line.toNat]? = some start →
    start ≤ offset ∧ p.column.toNat = offset.toNat - start.toNat
  lineNumber : p.lineNumber.toNat = p.line.toNat + 1
  columnNumber : p.columnNumber.toNat = p.column.toNat + 1

theorem countsIn_locate (small : text.utf8ByteSize ≤ Span.limit)
    (inside : offset.toNat ≤ text.utf8ByteSize) :
    ((ofText text).locate offset).CountsIn (Text.bytes text) offset.toNat := by
  have within : offset.toNat ≤ byteLength text.toList := by rwa [byteLength_toList]
  obtain ⟨before, after, split, reached, next⟩ := exists_cut_at within
  have position := locate_ofText small split reached next inside
  rw [UInt32.ofNat_toNat] at position
  rw [split] at within
  rw [Text.bytes_eq, split]
  exact position.countsIn reached next within

/-- The lines of a text up to that of a position start at its offset or before it, and the others
start after it. -/
theorem exists_starts_eq_append (small : text.utf8ByteSize ≤ Span.limit)
    (inside : offset.toNat ≤ text.utf8ByteSize) :
    ∃ early late, (ofText text).starts = early ++ late ∧
      early.length = ((ofText text).locate offset).line.toNat + 1 ∧
      (∀ start ∈ early, start ≤ offset) ∧ ∀ start ∈ late, offset < start := by
  have within : offset.toNat ≤ byteLength text.toList := by rwa [byteLength_toList]
  obtain ⟨before, after, split, reached, next⟩ := exists_cut_at within
  have position := locate_ofText small split reached next inside
  have cut := cut_starts small split reached next inside
  rw [UInt32.ofNat_toNat] at position cut
  refine ⟨0 :: afterLineFeeds 0 before, afterLineFeeds (byteLength before) after,
    starts_ofText split, ?_, cut⟩
  rw [List.length_cons, length_afterLineFeeds, position.line]

/-- A word below the limit of spans can be counted from one. -/
theorem toNat_add_one {w : UInt32} (small : w.toNat < Span.limit) :
    (w + 1).toNat = w.toNat + 1 := by
  simp only [Span.limit, UInt32.size] at small
  rw [UInt32.toNat_add, UInt32.toNat_one, Nat.mod_eq_of_lt (by omega)]

theorem finds_locate (small : text.utf8ByteSize < Span.limit)
    (inside : offset.toNat ≤ text.utf8ByteSize) :
    (ofText text).Finds offset ((ofText text).locate offset) := by
  obtain ⟨early, late, table, length, reached, past⟩ :=
    exists_starts_eq_append (Nat.le_of_lt small) inside
  have bound := (countsIn_locate (Nat.le_of_lt small) inside).le_offset
  have starts : ∀ i start, (ofText text).starts[i]? = some start →
      (start ≤ offset ↔ i ≤ ((ofText text).locate offset).line.toNat) := by
    intro i start entry
    rw [table] at entry
    rcases Nat.lt_or_ge i early.length with first | second
    · rw [List.getElem?_append_left first] at entry
      exact iff_of_true (reached start (List.mem_of_getElem? entry)) (by omega)
    · rw [List.getElem?_append_right second] at entry
      exact iff_of_false (UInt32.not_le.mpr (past start (List.mem_of_getElem? entry))) (by omega)
  have count : (ofText text).starts.countP (· ≤ offset) =
      ((ofText text).locate offset).line.toNat + 1 := by
    rw [table, countP_append_of_cut reached past, length]
  refine ⟨?_, starts, ?_, toNat_add_one (by omega), toNat_add_one (by omega)⟩
  · rw [size, table, List.length_append]
    omega
  · intro start entry
    have first := (starts _ start entry).mpr (Nat.le_refl _)
    have column : ((ofText text).locate offset).column =
        offset - (ofText text).starts.getD ((ofText text).starts.countP (· ≤ offset) - 1) 0 := rfl
    rw [count, Nat.add_sub_cancel, List.getD_eq_getElem?_getD, entry, Option.getD_some] at column
    exact ⟨first, by rw [column, UInt32.toNat_sub_of_le _ _ first]⟩

end LineIndex

/-- Positions in a text count bytes. The line of a byte offset is the number of line feed bytes
before it, and its column the distance from the byte after the last of them, or from zero. Finding
it takes a line of the table and wraps nowhere, and line and column can be counted from one. So
positions grow with their offsets, first by line and then by column, and no two offsets have the
same position. -/
theorem locate_counts_bytes (text : String) (small : text.utf8ByteSize < Span.limit) :
    (∀ offset : UInt32, offset.toNat ≤ text.utf8ByteSize →
      ((LineIndex.ofText text).locate offset).CountsIn (Text.bytes text) offset.toNat ∧
        (LineIndex.ofText text).Finds offset ((LineIndex.ofText text).locate offset)) ∧
    (∀ a b : UInt32, a < b → b.toNat ≤ text.utf8ByteSize →
      ((LineIndex.ofText text).locate a).Precedes ((LineIndex.ofText text).locate b)) ∧
    ∀ a b : UInt32, a.toNat ≤ text.utf8ByteSize → b.toNat ≤ text.utf8ByteSize →
      (LineIndex.ofText text).locate a = (LineIndex.ofText text).locate b → a = b := by
  have counts : ∀ offset : UInt32, offset.toNat ≤ text.utf8ByteSize →
      ((LineIndex.ofText text).locate offset).CountsIn (Text.bytes text) offset.toNat :=
    fun offset inside => LineIndex.countsIn_locate (Nat.le_of_lt small) inside
  have grows : ∀ a b : UInt32, a < b → b.toNat ≤ text.utf8ByteSize →
      ((LineIndex.ofText text).locate a).Precedes ((LineIndex.ofText text).locate b) := by
    intro a b less inside
    rw [UInt32.lt_iff_toNat_lt] at less
    exact (counts a (by omega)).precedes (counts b inside) less
  refine ⟨?_, grows, ?_⟩
  · exact fun offset inside => ⟨counts offset inside, LineIndex.finds_locate small inside⟩
  intro a b insideA insideB same
  by_contra different
  rcases UInt32.lt_or_lt_of_ne different with less | less
  · have before := grows a b less insideB
    rw [same] at before
    exact LineColumn.not_precedes_self _ before
  · have before := grows b a less insideA
    rw [same] at before
    exact LineColumn.not_precedes_self _ before

/-- An offset within a character, two that an empty line tells apart, and the end of the text. -/
theorem locate_counts_bytes_emptyLine :
    ((LineIndex.ofText "é\n\nb").locate 1).CountsIn (Text.bytes "é\n\nb") 1 ∧
      (LineIndex.ofText "é\n\nb").Finds 5 ⟨2, 1⟩ ∧
      ((LineIndex.ofText "é\n\nb").locate 1).Precedes ((LineIndex.ofText "é\n\nb").locate 5) ∧
      (LineIndex.ofText "é\n\nb").locate 3 ≠ (LineIndex.ofText "é\n\nb").locate 4 := by
  obtain ⟨counts, grows, distinct⟩ := locate_counts_bytes "é\n\nb" (by decide)
  refine ⟨(counts 1 (by decide)).1, (counts 5 (by decide)).2, grows 1 5 (by decide) (by decide), ?_⟩
  intro same
  exact absurd (distinct 3 4 (by decide) (by decide) same) (by decide)

end StreamLang
