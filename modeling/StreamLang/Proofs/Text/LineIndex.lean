import Mathlib.Data.List.Induction
import StreamLang.Span
import StreamLang.Text.LineIndex

/-!
Positions in a text.

The lines that start in the first part of a text come before those that start in the second
(`LineIndex.afterLineFeeds_append`), and each starts right after a line feed
(`LineIndex.exists_lineFeed_of_mem`). So the position of an offset counts the line feeds before it,
and its column is the distance from the last of them (`LineIndex.locate_ofText`).
-/

namespace StreamLang

theorem length_le_byteLength (cs : List Char) : cs.length ≤ byteLength cs := by
  induction cs with
  | nil => exact Nat.le_refl _
  | cons c cs ih =>
      have size := c.utf8Size_pos
      simp only [List.length_cons, byteLength_cons]
      omega

/-- The position counts the line feeds among the characters before an offset, and its column is the
distance of the offset from the last of them, or from the start. -/
structure LineColumn.IsAfter (p : LineColumn) (before : List Char) (offset : Nat) : Prop where
  line : p.line.toNat = before.count '\n'
  column : ∃ lines last, before = lines ++ last ∧ (∀ c ∈ lines.getLast?, c = '\n') ∧ '\n' ∉ last ∧
    offset = byteLength lines + p.column.toNat

namespace LineIndex

variable {offset : Nat} {cs : List Char} {start : UInt32}

/-! ## Starts of lines -/

/-- Offsets within the limit of spans are words. -/
theorem toNat_ofNat_of_le (small : offset ≤ Span.limit) : (UInt32.ofNat offset).toNat = offset := by
  apply UInt32.toNat_ofNat_of_lt'
  simp only [Span.limit, UInt32.size] at small ⊢
  omega

theorem afterLineFeeds_append (offset : Nat) (cs ds : List Char) :
    afterLineFeeds offset (cs ++ ds) =
      afterLineFeeds offset cs ++ afterLineFeeds (offset + byteLength cs) ds := by
  induction cs generalizing offset with
  | nil => rfl
  | cons c cs ih =>
      simp only [List.cons_append, afterLineFeeds, byteLength_cons]
      split
      · next feed =>
          subst feed
          rw [ih, List.cons_append, Nat.add_assoc]
          rfl
      · rw [ih, Nat.add_assoc]

/-- There is one line start for each line feed. -/
theorem length_afterLineFeeds (offset : Nat) (cs : List Char) :
    (afterLineFeeds offset cs).length = cs.count '\n' := by
  induction cs generalizing offset with
  | nil => rfl
  | cons c cs ih =>
      simp only [afterLineFeeds]
      split
      · next feed => rw [feed, List.length_cons, ih, List.count_cons_self]
      · next visible => rw [ih, List.count_cons_of_ne visible]

/-- Every line but the first starts right after a line feed. -/
theorem exists_lineFeed_of_mem (small : offset + byteLength cs ≤ Span.limit)
    (member : start ∈ afterLineFeeds offset cs) :
    ∃ before after, cs = before ++ '\n' :: after ∧
      start.toNat = offset + byteLength (before ++ ['\n']) := by
  induction cs generalizing offset with
  | nil => cases member
  | cons c cs ih =>
      rw [byteLength_cons, ← Nat.add_assoc] at small
      simp only [afterLineFeeds] at member
      split at member
      · next feed =>
          subst feed
          have one : '\n'.utf8Size = 1 := rfl
          rcases List.mem_cons.mp member with rfl | later
          · exact ⟨[], cs, rfl, toNat_ofNat_of_le (by omega)⟩
          · obtain ⟨before, after, rfl, place⟩ := ih small later
            exact ⟨'\n' :: before, after, rfl, by simp [place, one]; omega⟩
      · obtain ⟨before, after, rfl, place⟩ := ih small member
        exact ⟨c :: before, after, rfl, by simp [place]; omega⟩

/-- The last line that starts in lines starts where they end. -/
theorem getLast?_starts {lines : List Char} (ends : ∀ c ∈ lines.getLast?, c = '\n') :
    (0 :: afterLineFeeds 0 lines).getLast? = some (UInt32.ofNat (byteLength lines)) := by
  rcases List.eq_nil_or_concat lines with rfl | ⟨front, c, rfl⟩
  · rfl
  · rw [List.concat_eq_append] at ends ⊢
    cases ends c List.getLast?_concat
    have feed : afterLineFeeds (0 + byteLength front) ['\n'] =
        [UInt32.ofNat (byteLength (front ++ ['\n']))] := by
      rw [byteLength_append, Nat.zero_add]
      rfl
    rw [afterLineFeeds_append, feed, ← List.cons_append, List.getLast?_concat]

/-! ## Positions of offsets -/

/-- Characters are lines that end in line feeds, and a last one without. -/
theorem exists_lastLine (before : List Char) :
    ∃ lines last, before = lines ++ last ∧ (∀ c ∈ lines.getLast?, c = '\n') ∧ '\n' ∉ last := by
  induction before using List.reverseRecOn with
  | nil => exact ⟨[], [], rfl, by simp, by simp⟩
  | append_singleton before c ih =>
      by_cases feed : c = '\n'
      · exact ⟨before ++ [c], [], by simp, by simp [feed], by simp⟩
      · obtain ⟨lines, last, rfl, ends, whole⟩ := ih
        exact ⟨lines, last ++ [c], by simp, ends, by simp [whole, Ne.symm feed]⟩

section Locate

variable {before after : List Char} {text : String}

/-- The lines up to an offset start there or earlier. -/
theorem toNat_le_of_mem_starts (small : byteLength before ≤ Span.limit)
    (member : start ∈ 0 :: afterLineFeeds 0 before) : start.toNat ≤ byteLength before := by
  rcases List.mem_cons.mp member with rfl | feed
  · exact Nat.zero_le _
  · obtain ⟨pre, post, rfl, place⟩ := exists_lineFeed_of_mem (by rwa [Nat.zero_add]) feed
    simp only [byteLength_append, byteLength_cons, byteLength_nil] at place ⊢
    omega

/-- The lines after the character at an offset start later. -/
theorem lt_toNat_of_mem_starts (small : byteLength (before ++ after) ≤ Span.limit)
    (next : ∀ c ∈ after.head?, offset < byteLength before + c.utf8Size)
    (member : start ∈ afterLineFeeds (byteLength before) after) : offset < start.toNat := by
  rw [byteLength_append] at small
  obtain ⟨pre, post, rfl, place⟩ := exists_lineFeed_of_mem small member
  rw [place]
  cases pre with
  | nil => exact next '\n' rfl
  | cons c pre =>
      have first := next c rfl
      simp only [List.cons_append, byteLength_cons]
      omega

theorem starts_ofText (split : text.toList = before ++ after) :
    (ofText text).starts =
      0 :: afterLineFeeds 0 before ++ afterLineFeeds (byteLength before) after := by
  rw [ofText, split, afterLineFeeds_append, Nat.zero_add, List.cons_append]

/-- An offset cuts the lines of a text in two: those up to it start there or earlier, and the others
start later. -/
theorem cut_starts (small : text.utf8ByteSize ≤ Span.limit)
    (split : text.toList = before ++ after) (reached : byteLength before ≤ offset)
    (next : ∀ c ∈ after.head?, offset < byteLength before + c.utf8Size)
    (inside : offset ≤ text.utf8ByteSize) :
    (∀ start ∈ 0 :: afterLineFeeds 0 before, start ≤ UInt32.ofNat offset) ∧
      ∀ start ∈ afterLineFeeds (byteLength before) after, UInt32.ofNat offset < start := by
  have size : byteLength (before ++ after) ≤ Span.limit := by rwa [← split, byteLength_toList]
  have word : (UInt32.ofNat offset).toNat = offset := toNat_ofNat_of_le (Nat.le_trans inside small)
  constructor
  · intro start member
    rw [byteLength_append] at size
    have := toNat_le_of_mem_starts (by omega) member
    rw [UInt32.le_iff_toNat_le, word]
    omega
  · intro start member
    rw [UInt32.lt_iff_toNat_lt, word]
    exact lt_toNat_of_mem_starts size next member

theorem countP_append_of_cut {early late : List UInt32} {w : UInt32}
    (reached : ∀ start ∈ early, start ≤ w) (past : ∀ start ∈ late, w < start) :
    (early ++ late).countP (· ≤ w) = early.length := by
  have all : early.countP (· ≤ w) = early.length :=
    List.countP_eq_length.mpr fun start member => decide_eq_true (reached start member)
  have none : late.countP (· ≤ w) = 0 :=
    List.countP_eq_zero.mpr fun start member => by
      simpa using UInt32.not_le.mpr (past start member)
  rw [List.countP_append, all, none, Nat.add_zero]

/-- Of the lines of a text those up to an offset start there or earlier. -/
theorem countP_starts (small : text.utf8ByteSize ≤ Span.limit)
    (split : text.toList = before ++ after) (reached : byteLength before ≤ offset)
    (next : ∀ c ∈ after.head?, offset < byteLength before + c.utf8Size)
    (inside : offset ≤ text.utf8ByteSize) :
    (ofText text).starts.countP (· ≤ UInt32.ofNat offset) = before.count '\n' + 1 := by
  obtain ⟨early, late⟩ := cut_starts small split reached next inside
  rw [starts_ofText split, countP_append_of_cut early late, List.length_cons, length_afterLineFeeds]

/-- After lines that end in line feeds the next line starts where they end. -/
theorem getD_starts (split : text.toList = before ++ after)
    (ends : ∀ c ∈ before.getLast?, c = '\n') :
    (ofText text).starts.getD (before.count '\n') 0 = UInt32.ofNat (byteLength before) := by
  have latest := getLast?_starts ends
  rw [List.getLast?_eq_getElem?, List.length_cons, Nat.add_sub_cancel, length_afterLineFeeds]
    at latest
  have early : before.count '\n' < (0 :: afterLineFeeds 0 before).length := by
    rw [List.length_cons, length_afterLineFeeds]
    exact Nat.lt_succ_self _
  rw [starts_ofText split, List.getD_eq_getElem?_getD, List.getElem?_append_left early, latest,
    Option.getD_some]

/-- The position of an offset, before a character or within it, counts the line feeds before it. -/
theorem locate_ofText (small : text.utf8ByteSize ≤ Span.limit)
    (split : text.toList = before ++ after) (reached : byteLength before ≤ offset)
    (next : ∀ c ∈ after.head?, offset < byteLength before + c.utf8Size)
    (inside : offset ≤ text.utf8ByteSize) :
    ((ofText text).locate (UInt32.ofNat offset)).IsAfter before offset := by
  have line := countP_starts small split reached next inside
  obtain ⟨lines, last, rfl, ends, whole⟩ := exists_lastLine before
  have feeds : (lines ++ last).count '\n' = lines.count '\n' := by
    rw [List.count_append, List.count_eq_zero.mpr whole, Nat.add_zero]
  have start : (ofText text).starts.getD ((lines ++ last).count '\n') 0 =
      UInt32.ofNat (byteLength lines) := by
    rw [feeds]
    exact getD_starts (split.trans (List.append_assoc ..)) ends
  have word : (UInt32.ofNat offset).toNat = offset := toNat_ofNat_of_le (Nat.le_trans inside small)
  have count : (lines ++ last).count '\n' ≤ byteLength (lines ++ last) :=
    Nat.le_trans List.count_le_length (length_le_byteLength _)
  have startWord : (UInt32.ofNat (byteLength lines)).toNat = byteLength lines := by
    rw [byteLength_append] at reached
    exact toNat_ofNat_of_le (by omega)
  rw [locate, line, Nat.add_sub_cancel, start]
  refine ⟨toNat_ofNat_of_le (by omega), lines, last, rfl, ends, whole, ?_⟩
  rw [byteLength_append] at reached
  rw [UInt32.toNat_sub_of_le _ _ (by rw [UInt32.le_iff_toNat_le, startWord, word]; omega),
    startWord, word]
  omega

end Locate

end LineIndex

end StreamLang
