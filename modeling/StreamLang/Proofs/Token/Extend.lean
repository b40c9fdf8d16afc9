import Mathlib.Data.List.Basic
import StreamLang.Proofs.Text.Pieces
import StreamLang.Proofs.Token.LongestMatch

/-!
Texts that go on, and texts that stop early.

What follows the dashes or the equals sign of a parameter leaves the tokens before it as they are
(`tokensFrom_append_joint`). A text can be cut where a token ends (`exists_cut_after_token`), and
the blanks at its end can go when none of its tokens is an error (`tokensOf_trimEnd`).
-/

namespace StreamLang

/-! ## After an operator -/

/-- The dashes and the equals sign of a parameter, which the next token has to touch. -/
def TokenKind.IsJoint (k : TokenKind) : Prop := k = .doubleDash ∨ k = .equals

namespace Lexeme

variable {c : Char} {w rest : List Char}

theorem read_of_isJoint (visible : isSeparator c = false)
    (covered : (read c (w ++ rest)).length = w.length + 1)
    (joint : (read c (w ++ rest)).kind.IsJoint) (ds : List Char) :
    read c (w ++ ds) = read c (w ++ rest) := by
  have lexes := lexes_read visible covered
  generalize made : read c (w ++ rest) = x at lexes joint
  generalize shown : c :: w = v at lexes
  obtain ⟨kind, text, length⟩ := x
  cases lexes with
  | rule wins =>
      have fits := wins.fits
      cases fits with
      | doubleDash =>
          cases shown
          exact made
      | equals =>
          cases shown
          exact made
      | _ => rcases joint with kind | kind <;> cases kind
  | _ => rcases joint with kind | kind <;> cases kind

end Lexeme

variable {offset : Nat} {cs ds : List Char}

/-- After the dashes or the equals sign of a parameter anything may follow. -/
theorem tokensFrom_append_joint
    (joint : ∀ t ∈ (tokensFrom offset 0 cs).getLast?, t.kind.IsJoint) :
    tokensFrom offset 0 (cs ++ ds) =
      tokensFrom offset 0 cs ++ tokensFrom (offset + byteLength cs) 0 ds := by
  induction cs using lexemeInduction generalizing offset with
  | nil => simp [tokensFrom]
  | separator c cs separator ih =>
      rw [tokensFrom_separator separator] at joint
      rw [List.cons_append, tokensFrom_separator separator, tokensFrom_separator separator,
        ih joint, byteLength_cons, Nat.add_assoc]
  | lexeme c w rest visible covered ih =>
      rw [tokensFrom_lexeme visible offset covered] at joint ⊢
      have same : Lexeme.read c (w ++ (rest ++ ds)) = Lexeme.read c (w ++ rest) := by
        cases rest with
        | nil =>
            exact Lexeme.read_of_isJoint visible covered (joint _ rfl) ds
        | cons d rest => exact Lexeme.read_congr covered rfl
      have others : ∀ t ∈ (tokensFrom (offset + byteLength (c :: w)) 0 rest).getLast?,
          t.kind.IsJoint := by
        intro t last
        refine joint t ?_
        rw [List.getLast?_cons, last]
        rfl
      rw [List.cons_append, List.append_assoc, tokensFrom_lexeme visible offset (same ▸ covered),
        same, ih others]
      simp [Nat.add_assoc]

theorem tokensOf_append_joint {text rest : String}
    (joint : ∀ t ∈ (tokensOf text).getLast?, t.kind.IsJoint) :
    tokensOf (text ++ rest) =
      tokensOf text ++ tokensFrom (byteLength text.toList) 0 rest.toList := by
  rw [tokensOf, String.toList_append, tokensFrom_append_joint joint, Nat.zero_add]
  rfl

/-! ## Cutting after a token -/

/-- A lexeme at a boundary ends at a boundary. -/
theorem Boundary.concat {pre : List Char} {c : Char} {w rest : List Char}
    (visible : isSeparator c = false) (covered : (Lexeme.read c (w ++ rest)).length = w.length + 1)
    (boundary : Boundary pre (c :: (w ++ rest))) : Boundary (pre ++ c :: w) rest := by
  generalize whole : c :: (w ++ rest) = post at boundary
  induction boundary with
  | start =>
      have one : Boundary (c :: (w ++ [])) rest := .lexeme visible covered .start
      simpa using one
  | separator separator _ ih => exact .separator separator (ih whole)
  | @lexeme d v pre post visible' covered' _ ih =>
      subst whole
      have longer := Boundary.lexeme (w := v) visible' (by simpa using covered') (ih rfl)
      simpa using longer

/-- What follows a boundary may be replaced by a text that starts with the same character. -/
theorem Boundary.tokensFrom_congr {pre post post' : List Char} (boundary : Boundary pre post)
    (head : post.head? = post'.head?) (offset : Nat) :
    ∃ before,
      tokensFrom offset 0 (pre ++ post) =
        before ++ tokensFrom (offset + byteLength pre) 0 post ∧
      tokensFrom offset 0 (pre ++ post') =
        before ++ tokensFrom (offset + byteLength pre) 0 post' := by
  induction boundary generalizing offset with
  | start => exact ⟨[], by simp, by simp⟩
  | @separator c pre post separator _ ih =>
      obtain ⟨before, whole, whole'⟩ := ih head (offset + c.utf8Size)
      refine ⟨before, ?_, ?_⟩
      · rw [List.cons_append, tokensFrom_separator separator, whole, byteLength_cons, Nat.add_assoc]
      · rw [List.cons_append, tokensFrom_separator separator, whole', byteLength_cons,
          Nat.add_assoc]
  | @lexeme c w pre post visible covered _ ih =>
      obtain ⟨before, whole, whole'⟩ := ih head (offset + byteLength (c :: w))
      have same : Lexeme.read c (w ++ (pre ++ post')) = Lexeme.read c (w ++ (pre ++ post)) := by
        refine Lexeme.read_congr covered ?_
        cases pre with
        | nil => exact head
        | cons d pre => rfl
      refine ⟨(Lexeme.read c (w ++ (pre ++ post))).place offset (c :: w) :: before, ?_, ?_⟩
      · rw [List.cons_append, List.append_assoc, tokensFrom_lexeme visible offset covered, whole]
        simp [Nat.add_assoc]
      · rw [List.cons_append, List.append_assoc,
          tokensFrom_lexeme visible offset (same ▸ covered), same, whole']
        simp [Nat.add_assoc]

/-! ## Ends of tokens -/

namespace Token

/-- Tokens that do not end in a name that keeps its colon are the same when the text ends after
them. -/
theorem endAlone_eq_self {ts : List Token} (whole : ∀ t ∈ ts.getLast?, t.isHalfLabel = false) :
    endAlone ts = ts := by
  rcases List.eq_nil_or_concat ts with rfl | ⟨front, t, rfl⟩
  · rfl
  · rw [List.concat_eq_append] at whole ⊢
    rw [endAlone_concat, alone_of_isHalfLabel (whole t List.getLast?_concat)]

end Token

/-- Only an error stands after a name that keeps its colon. -/
theorem whole_of_tokensFrom {before after : List Token}
    (tokens : tokensFrom offset 0 cs = before ++ after)
    (sound : ∀ t ∈ after.head?, ∀ cause, t.kind ≠ .error cause) :
    ∀ t ∈ before.getLast?, t.isHalfLabel = false := by
  intro t latest
  cases half : t.isHalfLabel with
  | false => rfl
  | true =>
      obtain ⟨front, rfl⟩ := List.getLast?_eq_some_iff.mp latest
      rw [List.append_assoc] at tokens
      obtain ⟨e, others, rfl, error, -⟩ := exists_error_of_tokensFrom tokens half
      exact absurd error (sound e rfl _)

namespace Lexeme

theorem Inside.getLast?_take {q : Char} {cs value : List Char} {n : Nat}
    (inside : Inside q cs value n) : (cs.take n).getLast? = some q := by
  induction inside with
  | close => rfl
  | doubled inside ih | escaped _ inside ih | backslash _ inside ih | plain _ _ inside ih =>
      simp [List.take_succ_cons, List.getLast?_cons, ih]

/-- No token ends in a blank. -/
theorem Lexes.not_isBlank_getLast {w rest : List Char} {kind : TokenKind} {text : String}
    (lexes : Lexes w rest kind text) (sound : ∀ cause, kind ≠ .error cause) :
    ∀ c ∈ w.getLast?, isBlank c = false := by
  have ofBare : ∀ {c : Char}, isBare c = true → isBlank c = false := by
    intro c bare
    simp only [isBare, Bool.not_eq_true', Bool.or_eq_false_iff] at bare
    exact bare.1
  have ofName : ∀ {v : List Char}, isName v = true → ∀ c ∈ v.getLast?, isBlank c = false :=
    fun name c last =>
      ofBare (isBare_of_isNameChar (isNameChar_of_isName name c (List.mem_of_getLast? last)))
  have ofMatch : ∀ {r : Rule} {text : String}, r.Matches w rest text →
      ∀ c ∈ w.getLast?, isBlank c = false := by
    intro r text fits c last
    cases fits with
    | pipe | doubleDash | equals | gt =>
        cases last
        rfl
    | @quoted q w rest value quote inside =>
        have closing := inside.getLast?_take
        rw [List.take_left] at closing
        rw [List.getLast?_cons, closing] at last
        cases last
        rcases quote with rfl | rfl <;> rfl
    | identifier name => exact ofName name c last
    | label =>
        rw [List.getLast?_concat] at last
        cases last
        rfl
    | @destination w rest name =>
        cases w with
        | nil => cases name
        | cons d w => exact ofName name c (by simpa using last)
    | bare _ _ all => exact ofBare (all c (List.mem_of_getLast? last))
  cases lexes with
  | rule wins => exact ofMatch wins.fits
  | halfLabel wins => exact ofMatch wins.fits
  | unterminated => exact absurd rfl (sound _)
  | unexpected => exact absurd rfl (sound _)

/-- The text of an identifier is what it covers. -/
theorem Lexes.text_of_identifier {w rest : List Char} {kind : TokenKind} {text : String}
    (lexes : Lexes w rest kind text) (identifier : kind = .identifier) :
    text = String.ofList w := by
  cases lexes with
  | rule wins =>
      have fits := wins.fits
      cases fits with
      | identifier => rfl
      | _ => cases identifier
  | halfLabel => rfl
  | _ => cases identifier

end Lexeme

variable {text : String} {before after : List Token} {t : Token}

theorem kind_ne_eof_of_mem_tokensFrom (member : t ∈ tokensFrom offset 0 cs) : t.kind ≠ .eof := by
  obtain ⟨before, after, tokens⟩ := List.append_of_mem member
  obtain ⟨pre, c, post, rfl, -, visible, -, right⟩ := exists_boundary_of_tokensFrom tokens
  obtain ⟨w, rest, rfl, covered, rfl, -⟩ := exists_lexeme_of_tokensFrom visible right
  exact (Lexeme.lexes_read visible covered).kind_ne_eof

/-- A text can be cut where a token ends. The text up to there has the tokens up to it, of which the
last may be a label there, and does not end in a blank. -/
theorem exists_cut_after_token (small : text.utf8ByteSize ≤ Span.limit)
    (tokens : tokensOf text = before ++ t :: after) :
    ∃ pre post, text.toList = pre ++ post ∧ t.stop = byteLength pre ∧
      tokensOf (String.ofList pre) = Token.endAlone (before ++ [t]) ∧
      tokensFrom (byteLength pre) 0 post = after ∧
      ((∀ cause, t.kind ≠ .error cause) → ∀ c ∈ pre.getLast?, isBlank c = false) := by
  obtain ⟨pre, c, post, split, boundary, visible, -, right⟩ := exists_boundary_of_tokensFrom tokens
  obtain ⟨w, rest, rfl, covered, made, others⟩ := exists_lexeme_of_tokensFrom visible right
  have longer := boundary.concat visible covered
  have split' : text.toList = pre ++ c :: w ++ rest := by simp [split]
  have place : 0 + byteLength (pre ++ c :: w) = 0 + byteLength pre + byteLength (c :: w) := by
    rw [byteLength_append, Nat.add_assoc]
  rw [← byteLength_toList, split', byteLength_append, byteLength_append] at small
  rw [← place] at others
  refine ⟨pre ++ c :: w, rest, split', ?_, ?_, by rw [others, Nat.zero_add], fun sound d last => ?_⟩
  · rw [made, byteLength_append]
    simp only [Lexeme.place, Token.stop, Span.ofOffsets, covered]
    rw [List.take_of_length_le (by simp)]
    omega
  · obtain ⟨before', whole, left⟩ := longer.tokensFrom_left 0
    rw [← others, ← split', show tokensFrom 0 0 text.toList = tokensOf text from rfl,
      tokens, List.append_cons] at whole
    rw [tokensOf, String.toList_ofList, left, List.append_cancel_right whole]
  · rw [made] at sound
    rw [List.getLast?_append_of_ne_nil _ (List.cons_ne_nil c w)] at last
    exact (Lexeme.lexes_read visible covered).not_isBlank_getLast sound d last

/-! ## Blanks at the end -/

theorem isSeparator_of_tokensFrom_eq_nil (none : tokensFrom offset 0 cs = []) :
    ∀ c ∈ cs, isSeparator c = true := by
  induction cs generalizing offset with
  | nil => simp
  | cons c cs ih =>
      cases visible : isSeparator c with
      | true =>
          rw [tokensFrom_separator visible] at none
          exact List.forall_mem_cons.mpr ⟨visible, ih none⟩
      | false => exact absurd none (tokensFrom_ne_nil visible offset cs)

/-- Without the blanks at its end a text without errors has the same tokens, and ends with the last
of them. All these blanks are separators. -/
theorem tokensOf_trimEnd (small : text.utf8ByteSize ≤ Span.limit)
    (sound : ∀ t ∈ tokensOf text, ∀ cause, t.kind ≠ .error cause) :
    tokensOf (Text.trimEnd text) = tokensOf text ∧
      (∀ t ∈ (tokensOf text).getLast?, t.stop = byteLength (Text.trimEnd text).toList) ∧
      ∃ blanks, text.toList = (Text.trimEnd text).toList ++ blanks ∧
        ∀ c ∈ blanks, isSeparator c = true := by
  rcases List.eq_nil_or_concat (tokensOf text) with none | ⟨front, t, split⟩
  · have separators := isSeparator_of_tokensFrom_eq_nil none
    have empty : Text.trimEnd text = String.ofList [] :=
      Text.trimEnd_eq (List.nil_append _).symm (by simp) fun c member =>
        isBlank_of_isSeparator (separators c member)
    rw [none, empty]
    exact ⟨rfl, by simp, text.toList, rfl, separators⟩
  · rw [List.concat_eq_append] at split
    obtain ⟨pre, post, parts, stop, left, right, visible⟩ := exists_cut_after_token small split
    have separators := isSeparator_of_tokensFrom_eq_nil right
    have trimmed : Text.trimEnd text = String.ofList pre :=
      Text.trimEnd_eq parts (visible (sound t (by simp [split]))) fun c member =>
        isBlank_of_isSeparator (separators c member)
    have ended : tokensFrom 0 0 text.toList = (front ++ [t]) ++ [] := by
      rw [List.append_nil]
      exact split
    have whole : ∀ u ∈ (front ++ [t]).getLast?, u.isHalfLabel = false :=
      whole_of_tokensFrom ended (by simp)
    rw [trimmed, left, Token.endAlone_eq_self whole, split, String.toList_ofList]
    refine ⟨rfl, fun u last => ?_, post, parts, separators⟩
    rw [List.getLast?_concat] at last
    cases last
    exact stop

/-! ## After separators -/

theorem tokensFrom_separators {blanks : List Char} (all : ∀ c ∈ blanks, isSeparator c = true) :
    tokensFrom offset 0 (blanks ++ cs) = tokensFrom (offset + byteLength blanks) 0 cs := by
  induction blanks generalizing offset with
  | nil => simp
  | cons c blanks ih =>
      obtain ⟨separator, others⟩ := List.forall_mem_cons.mp all
      rw [List.cons_append, tokensFrom_separator separator, ih others, byteLength_cons,
        Nat.add_assoc]

/-- Texts with separators between them have the tokens of both. -/
theorem tokensFrom_append_separators {blanks : List Char} (closed : Closed (tokensFrom offset 0 cs))
    (some : blanks ≠ []) (all : ∀ c ∈ blanks, isSeparator c = true) :
    tokensFrom offset 0 (cs ++ (blanks ++ ds)) =
      tokensFrom offset 0 cs ++ tokensFrom (offset + byteLength (cs ++ blanks)) 0 ds := by
  have next : StartsBreak (blanks ++ ds) := by
    cases blanks with
    | nil => exact absurd rfl some
    | cons c blanks => exact startsBreak_cons.mpr (by simp [isBreak, all c List.mem_cons_self])
  rw [tokensFrom_append closed next, tokensFrom_separators all, byteLength_append, Nat.add_assoc]

/-- Separators at the end add no token. -/
theorem tokensOf_append_separators {blanks : String} (closed : Closed (tokensOf text))
    (all : ∀ c ∈ blanks.toList, isSeparator c = true) :
    tokensOf (text ++ blanks) = tokensOf text := by
  have next : StartsBreak blanks.toList := by
    intro c first
    simp [isBreak, all c (List.mem_of_mem_head? first)]
  have none : tokensFrom (byteLength text.toList) 0 (blanks.toList ++ []) =
      tokensFrom (byteLength text.toList + byteLength blanks.toList) 0 [] :=
    tokensFrom_separators all
  rw [List.append_nil] at none
  rw [tokensOf_append closed next, none, tokensFrom, List.append_nil]

/-- Without errors there are no other tokens before separators at the end. -/
theorem tokensOf_append_separators_of_sound {blanks : String}
    (small : (text ++ blanks).utf8ByteSize ≤ Span.limit)
    (all : ∀ c ∈ blanks.toList, isSeparator c = true)
    (sound : ∀ t ∈ tokensOf (text ++ blanks), ∀ cause, t.kind ≠ .error cause) :
    tokensOf (text ++ blanks) = tokensOf text := by
  -- Both texts are one trimmed text with separators after it.
  have trimmed : Text.trimEnd (text ++ blanks) = Text.trimEnd text :=
    Text.trimEnd_append (fun c member => isBlank_of_isSeparator (all c member)) text
  obtain ⟨tokens, -, after, whole, separators⟩ := tokensOf_trimEnd small sound
  obtain ⟨between, parts, -⟩ := Text.exists_blanks_trimEnd text
  rw [trimmed, String.toList_append, parts, List.append_assoc] at whole
  rw [trimmed] at tokens
  have closed : Closed (tokensOf (Text.trimEnd text)) := by
    rw [tokens]
    exact .of_sound sound
  have inner : ∀ c ∈ (String.ofList between).toList, isSeparator c = true := by
    intro c member
    rw [String.toList_ofList] at member
    refine separators c ?_
    rw [← List.append_cancel_left whole]
    exact List.mem_append_left _ member
  have joined : text = Text.trimEnd text ++ String.ofList between := by
    rw [← String.toList_inj, String.toList_append, String.toList_ofList]
    exact parts
  rw [← tokens, ← tokensOf_append_separators closed inner, ← joined]

end StreamLang
