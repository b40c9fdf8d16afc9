import StreamLang.Proofs.Token.Lexeme

/-!
Tokens of texts that are put together and of texts that are cut.

Putting a text before a break keeps the tokens of both (`tokensFrom_append`). A text can be cut
where no lexeme lies across the cut, a `Boundary`; its first part has the tokens before the cut,
of which the last may turn into a label (`Boundary.tokensFrom_left`).
-/

namespace StreamLang

/-! ## One lexeme after the other -/

namespace Lexeme

@[simp] theorem kind_place (x : Lexeme) (offset : Nat) (cs : List Char) :
    (x.place offset cs).kind = x.kind := rfl

end Lexeme

/-- Characters that belong to a token that has been read are passed over. -/
theorem tokensFrom_covered {offset n : Nat} {cs : List Char} (inside : n ≤ cs.length) :
    tokensFrom offset n cs = tokensFrom (offset + byteLength (cs.take n)) 0 (cs.drop n) := by
  induction cs generalizing offset n with
  | nil =>
      cases Nat.le_zero.mp inside
      rfl
  | cons c cs ih =>
      cases n with
      | zero => simp
      | succ n =>
          rw [tokensFrom, ih (Nat.le_of_succ_le_succ inside)]
          simp [Nat.add_assoc]

theorem tokensFrom_separator {c : Char} (separator : isSeparator c = true) (offset : Nat)
    (cs : List Char) :
    tokensFrom offset 0 (c :: cs) = tokensFrom (offset + c.utf8Size) 0 cs := by
  rw [tokensFrom, if_pos separator]

/-- The first token of a text that starts with no separator, and the tokens after it. -/
theorem tokensFrom_lexeme {c : Char} (visible : isSeparator c = false) (offset : Nat)
    {w rest : List Char} (covered : (Lexeme.read c (w ++ rest)).length = w.length + 1) :
    tokensFrom offset 0 (c :: (w ++ rest)) =
      (Lexeme.read c (w ++ rest)).place offset (c :: w) ::
        tokensFrom (offset + byteLength (c :: w)) 0 rest := by
  have same : (Lexeme.read c (w ++ rest)).place offset (c :: (w ++ rest)) =
      (Lexeme.read c (w ++ rest)).place offset (c :: w) := by
    simp [Lexeme.place, covered]
  rw [tokensFrom, if_neg (by simp [visible])]
  simp only [same, covered, Nat.add_sub_cancel]
  rw [tokensFrom_covered (by simp)]
  simp [Nat.add_assoc]

/-- Every text that starts with no separator starts with a lexeme. -/
theorem Lexeme.exists_covered (c : Char) (cs : List Char) :
    ∃ w rest, cs = w ++ rest ∧ (read c (w ++ rest)).length = w.length + 1 := by
  obtain ⟨positive, bounded⟩ := length_read c cs
  refine ⟨cs.take ((read c cs).length - 1), cs.drop ((read c cs).length - 1), by simp, ?_⟩
  rw [List.take_append_drop, List.length_take]
  omega

theorem tokensFrom_ne_nil {c : Char} (visible : isSeparator c = false) (offset : Nat)
    (cs : List Char) : tokensFrom offset 0 (c :: cs) ≠ [] := by
  obtain ⟨w, rest, rfl, covered⟩ := Lexeme.exists_covered c cs
  rw [tokensFrom_lexeme visible offset covered]
  exact List.cons_ne_nil _ _

/-- Induction over a text by separators and lexemes. -/
theorem lexemeInduction {motive : List Char → Prop} (nil : motive [])
    (separator : ∀ c cs, isSeparator c = true → motive cs → motive (c :: cs))
    (lexeme : ∀ c w rest, isSeparator c = false →
      (Lexeme.read c (w ++ rest)).length = w.length + 1 → motive rest → motive (c :: (w ++ rest)))
    (cs : List Char) : motive cs := by
  match cs with
  | [] => exact nil
  | c :: cs =>
      cases visible : isSeparator c with
      | true => exact separator c cs visible (lexemeInduction nil separator lexeme cs)
      | false =>
          obtain ⟨w, rest, rfl, covered⟩ := Lexeme.exists_covered c cs
          exact lexeme c w rest visible covered (lexemeInduction nil separator lexeme rest)
termination_by cs.length

/-! ## Putting texts together -/

/-- Whether a text has no literal that is left open. -/
def Closed (tokens : List Token) : Prop :=
  ∀ t ∈ tokens, t.kind ≠ .error .unterminatedLiteral

instance (tokens : List Token) : Decidable (Closed tokens) :=
  inferInstanceAs (Decidable (∀ t ∈ tokens, t.kind ≠ .error .unterminatedLiteral))

theorem Closed.of_sound {tokens : List Token}
    (sound : ∀ t ∈ tokens, ∀ cause, t.kind ≠ .error cause) : Closed tokens :=
  fun t member => sound t member _

/-- The tokens of a text before a break are the tokens of both parts. -/
theorem tokensFrom_append {offset : Nat} {cs ds : List Char}
    (closed : Closed (tokensFrom offset 0 cs)) (next : StartsBreak ds) :
    tokensFrom offset 0 (cs ++ ds) =
      tokensFrom offset 0 cs ++ tokensFrom (offset + byteLength cs) 0 ds := by
  induction cs using lexemeInduction generalizing offset with
  | nil => simp [tokensFrom]
  | separator c cs separator ih =>
      rw [tokensFrom_separator separator] at closed
      rw [List.cons_append, tokensFrom_separator separator, tokensFrom_separator separator,
        ih closed, byteLength_cons, Nat.add_assoc]
  | lexeme c w rest visible covered ih =>
      rw [tokensFrom_lexeme visible offset covered] at closed ⊢
      have shut : (Lexeme.read c (w ++ rest)).kind ≠ .error .unterminatedLiteral :=
        closed _ List.mem_cons_self
      have same := Lexeme.read_append shut next
      rw [List.append_assoc] at same
      rw [List.cons_append, List.append_assoc, tokensFrom_lexeme visible offset (same ▸ covered),
        same, ih fun t member => closed t (List.mem_cons_of_mem _ member)]
      simp [Nat.add_assoc]

/-- A text of one token, before a break. -/
theorem tokensFrom_one_append {offset : Nat} {cs ds : List Char} {t : Token}
    (tokens : tokensFrom offset 0 cs = [t]) (closed : t.kind ≠ .error .unterminatedLiteral)
    (next : StartsBreak ds) :
    tokensFrom offset 0 (cs ++ ds) = t :: tokensFrom (offset + byteLength cs) 0 ds := by
  have shut : Closed (tokensFrom offset 0 cs) := by
    rw [tokens]
    rintro u member
    cases List.mem_singleton.mp member
    exact closed
  rw [tokensFrom_append shut next, tokens, List.singleton_append]

theorem tokensOf_append {text rest : String} (closed : Closed (tokensOf text))
    (next : StartsBreak rest.toList) :
    tokensOf (text ++ rest) =
      tokensOf text ++ tokensFrom (byteLength text.toList) 0 rest.toList := by
  rw [tokensOf, String.toList_append, tokensFrom_append closed next, Nat.zero_add]
  rfl

/-! ## Cutting a text -/

namespace Token

/-- Whether the token is an identifier and no name: a name that keeps its colon. -/
def isHalfLabel (t : Token) : Bool :=
  t.kind == .identifier && !isName t.text.toList

/-- What a token becomes when the text ends after it. -/
def alone (t : Token) : Token :=
  if t.isHalfLabel then ⟨.label, String.ofList t.text.toList.dropLast, t.span⟩ else t

theorem alone_of_isHalfLabel {t : Token} (whole : t.isHalfLabel = false) : t.alone = t := by
  simp [alone, whole]

theorem kind_alone_of_isHalfLabel {t : Token} (half : t.isHalfLabel = true) :
    t.alone.kind = .label := by
  simp [alone, half]

/-- The tokens of a text that ends after them. -/
def endAlone : List Token → List Token
  | [] => []
  | [t] => [t.alone]
  | t :: u :: ts => t :: endAlone (u :: ts)

theorem endAlone_concat (ts : List Token) (t : Token) : endAlone (ts ++ [t]) = ts ++ [t.alone] := by
  induction ts with
  | nil => rfl
  | cons u ts ih =>
      cases ts with
      | nil => rfl
      | cons v ts => exact congrArg (u :: ·) ih

theorem endAlone_eq_nil {ts : List Token} : endAlone ts = [] ↔ ts = [] := by
  constructor
  · intro none
    cases ts with
    | nil => rfl
    | cons t ts => cases ts <;> cases none
  · rintro rfl
    rfl

end Token

namespace Lexeme

theorem isHalfLabel_place (x : Lexeme) (offset : Nat) (cs : List Char) :
    (x.place offset cs).isHalfLabel = x.isHalfLabel := rfl

/-- What the characters of a lexeme are by themselves. -/
theorem read_alone {c : Char} {w rest : List Char}
    (covered : (read c (w ++ rest)).length = w.length + 1) :
    read c w = (read c (w ++ rest)).alone := by
  have taken := read_take c (w ++ rest)
  rwa [covered, Nat.add_sub_cancel, List.take_left] at taken

/-- A lexeme that is a name with its colon stands before a character that starts an error. -/
theorem exists_error_of_isHalfLabel {c : Char} {w rest : List Char}
    (covered : (read c (w ++ rest)).length = w.length + 1)
    (half : (read c (w ++ rest)).isHalfLabel = true) :
    ∃ d ds, rest = d :: ds ∧ isSeparator d = false ∧ read d ds = unexpected d := by
  obtain ⟨d, ds, after, blank, wide⟩ := exists_wideBlank_of_isHalfLabel half
  rw [covered, Nat.add_sub_cancel, List.drop_left] at after
  refine ⟨d, ds, after, ?_, read_blank blank ds⟩
  cases separator : isSeparator d with
  | false => rfl
  | true =>
      have narrow := toNat_of_isBreak (c := d) (by simp [isBreak, separator])
      omega

theorem place_alone (x : Lexeme) (offset : Nat) (cs : List Char) :
    x.alone.place offset cs = (x.place offset cs).alone := by
  rw [Token.alone, isHalfLabel_place]
  cases half : x.isHalfLabel with
  | true => simp [alone, half, place]
  | false => simp [alone, half]

end Lexeme

/-- A text in two parts, with no lexeme across the cut. -/
inductive Boundary : List Char → List Char → Prop
  | start {post : List Char} : Boundary [] post
  | separator {c : Char} {pre post : List Char} :
    isSeparator c = true → Boundary pre post → Boundary (c :: pre) post
  | lexeme {c : Char} {w pre post : List Char} :
    isSeparator c = false → (Lexeme.read c (w ++ (pre ++ post))).length = w.length + 1 →
    Boundary pre post → Boundary (c :: (w ++ pre)) post

namespace Boundary

/-- The tokens of a text at a boundary: those before it, of which the last may be a label when the
text ends there, and those after it. -/
theorem tokensFrom_left {pre post : List Char} (boundary : Boundary pre post) (offset : Nat) :
    ∃ before, tokensFrom offset 0 (pre ++ post) =
        before ++ tokensFrom (offset + byteLength pre) 0 post ∧
      tokensFrom offset 0 pre = Token.endAlone before := by
  induction boundary generalizing offset with
  | start => exact ⟨[], by simp [tokensFrom, Token.endAlone]⟩
  | @separator c pre post separator _ ih =>
      obtain ⟨before, whole, left⟩ := ih (offset + c.utf8Size)
      refine ⟨before, ?_, ?_⟩
      · rw [List.cons_append, tokensFrom_separator separator, whole, byteLength_cons,
          Nat.add_assoc]
      · rw [tokensFrom_separator separator, left]
  | @lexeme c w pre post visible covered _ ih =>
      obtain ⟨before, whole, left⟩ := ih (offset + byteLength (c :: w))
      refine ⟨(Lexeme.read c (w ++ (pre ++ post))).place offset (c :: w) :: before, ?_, ?_⟩
      · rw [List.cons_append, List.append_assoc, tokensFrom_lexeme visible offset covered, whole]
        simp [Nat.add_assoc]
      · cases pre with
        | nil =>
            have none : before = [] := Token.endAlone_eq_nil.mp (by simp [← left, tokensFrom])
            subst none
            have itself := Lexeme.read_alone covered
            have covered' : (Lexeme.read c (w ++ [])).length = w.length + 1 := by
              rw [List.append_nil, itself, Lexeme.length_alone, covered]
            rw [tokensFrom_lexeme visible offset covered', List.append_nil, itself,
              Lexeme.place_alone, left]
            rfl
        | cons p pre =>
            have same : Lexeme.read c (w ++ p :: pre) = Lexeme.read c (w ++ (p :: pre ++ post)) :=
              Lexeme.read_congr covered rfl
            have covered' := same ▸ covered
            rw [tokensFrom_lexeme visible offset covered', same, left]
            cases before with
            | cons u us => rfl
            | nil =>
                have whole : (Lexeme.read c (w ++ p :: pre)).isHalfLabel = false := by
                  cases half : (Lexeme.read c (w ++ p :: pre)).isHalfLabel with
                  | false => rfl
                  | true =>
                      obtain ⟨d, ds, rest, visible', -⟩ :=
                        Lexeme.exists_error_of_isHalfLabel covered' half
                      rw [rest] at left
                      exact absurd left (tokensFrom_ne_nil visible' _ ds)
                rw [same, ← Lexeme.isHalfLabel_place _ offset (c :: w)] at whole
                rw [Token.endAlone, Token.endAlone, Token.alone_of_isHalfLabel whole]

end Boundary

/-- The token that a text starts with, and the tokens after it. -/
theorem exists_lexeme_of_tokensFrom {offset : Nat} {c : Char} {cs : List Char} {t : Token}
    {after : List Token} (visible : isSeparator c = false)
    (tokens : tokensFrom offset 0 (c :: cs) = t :: after) :
    ∃ w rest, cs = w ++ rest ∧ (Lexeme.read c (w ++ rest)).length = w.length + 1 ∧
      t = (Lexeme.read c (w ++ rest)).place offset (c :: w) ∧
      after = tokensFrom (offset + byteLength (c :: w)) 0 rest := by
  obtain ⟨w, rest, rfl, covered⟩ := Lexeme.exists_covered c cs
  rw [tokensFrom_lexeme visible offset covered] at tokens
  obtain ⟨first, others⟩ := List.cons.inj tokens
  exact ⟨w, rest, rfl, covered, first.symm, others.symm⟩

/-- Every token starts at a boundary. -/
theorem exists_boundary_of_tokensFrom {offset : Nat} {cs : List Char} {before after : List Token}
    {t : Token} (tokens : tokensFrom offset 0 cs = before ++ t :: after) :
    ∃ pre c post, cs = pre ++ c :: post ∧ Boundary pre (c :: post) ∧ isSeparator c = false ∧
      tokensFrom offset 0 pre = Token.endAlone before ∧
      tokensFrom (offset + byteLength pre) 0 (c :: post) = t :: after := by
  have located : ∃ pre c post, cs = pre ++ c :: post ∧ Boundary pre (c :: post) ∧
      isSeparator c = false ∧
      tokensFrom (offset + byteLength pre) 0 (c :: post) = t :: after := by
    induction cs using lexemeInduction generalizing offset before with
    | nil => simp [tokensFrom] at tokens
    | separator c cs separator ih =>
        rw [tokensFrom_separator separator] at tokens
        obtain ⟨pre, d, post, rfl, boundary, visible, rest⟩ := ih tokens
        exact ⟨c :: pre, d, post, rfl, .separator separator boundary, visible, by
          rw [byteLength_cons, ← Nat.add_assoc, rest]⟩
    | lexeme c w rest visible covered ih =>
        cases before with
        | nil => exact ⟨[], c, w ++ rest, rfl, .start, visible, tokens⟩
        | cons u before =>
            rw [tokensFrom_lexeme visible offset covered] at tokens
            obtain ⟨pre, d, post, rfl, boundary, visible', others⟩ := ih (List.cons.inj tokens).2
            refine ⟨c :: (w ++ pre), d, post, by simp, .lexeme visible covered boundary,
              visible', ?_⟩
            rw [← others]
            simp [Nat.add_assoc]
  obtain ⟨pre, c, post, rfl, boundary, visible, rest⟩ := located
  obtain ⟨before', whole, left⟩ := boundary.tokensFrom_left offset
  rw [rest, tokens] at whole
  cases List.append_cancel_right whole
  exact ⟨pre, c, post, rfl, boundary, visible, left, rest⟩

/-- A name that keeps its colon touches an error. -/
theorem exists_error_of_tokensFrom {offset : Nat} {cs : List Char} {before after : List Token}
    {t : Token} (tokens : tokensFrom offset 0 cs = before ++ t :: after)
    (half : t.isHalfLabel = true) :
    ∃ e others, after = e :: others ∧ e.kind = .error .unexpectedCharacter ∧ e.start = t.stop := by
  obtain ⟨pre, c, post, rfl, -, visible, -, rest⟩ := exists_boundary_of_tokensFrom tokens
  obtain ⟨w, rest, rfl, covered, rfl, rfl⟩ := exists_lexeme_of_tokensFrom visible rest
  obtain ⟨d, ds, rfl, visible', error⟩ := Lexeme.exists_error_of_isHalfLabel covered half
  obtain ⟨w', rest', rfl, covered'⟩ := Lexeme.exists_covered d ds
  refine ⟨_, _, tokensFrom_lexeme visible' _ covered', ?_, ?_⟩
  · rw [Lexeme.kind_place, error]
    rfl
  · simp only [Lexeme.place, Token.start, Token.stop, Span.ofOffsets, covered]
    rw [List.take_of_length_le (by simp)]
    omega

/-! ## Facts of single tokens -/

/-- The text of a label or a destination is a name. -/
theorem isName_of_mem_tokensFrom {offset : Nat} {cs : List Char} {t : Token}
    (member : t ∈ tokensFrom offset 0 cs) (named : t.kind = .label ∨ t.kind = .destination) :
    isName t.text.toList = true := by
  obtain ⟨before, after, tokens⟩ := List.append_of_mem member
  obtain ⟨pre, c, post, rfl, -, visible, -, rest⟩ := exists_boundary_of_tokensFrom tokens
  obtain ⟨w, rest, rfl, -, rfl, -⟩ := exists_lexeme_of_tokensFrom visible rest
  exact Lexeme.isName_text_read named

/-- Within the limit of spans every token covers at least one byte of the text. -/
theorem span_of_mem_tokensFrom {offset : Nat} {cs : List Char} {t : Token}
    (small : offset + byteLength cs ≤ Span.limit) (member : t ∈ tokensFrom offset 0 cs) :
    offset ≤ t.start ∧ t.start < t.stop ∧ t.stop ≤ offset + byteLength cs := by
  obtain ⟨before, after, tokens⟩ := List.append_of_mem member
  obtain ⟨pre, c, post, rfl, -, visible, -, rest⟩ := exists_boundary_of_tokensFrom tokens
  obtain ⟨w, rest, rfl, covered, rfl, -⟩ := exists_lexeme_of_tokensFrom visible rest
  have size := c.utf8Size_pos
  simp only [byteLength_append, byteLength_cons] at small ⊢
  simp only [Lexeme.place, Token.start, Token.stop, Span.ofOffsets, covered]
  rw [List.take_of_length_le (by simp)]
  simp only [byteLength_cons]
  omega

/-- The first token of a text that starts with no separator starts where the text does. -/
theorem start_of_tokensFrom {offset : Nat} {c : Char} {cs : List Char} {t : Token}
    {after : List Token} (small : offset + byteLength (c :: cs) ≤ Span.limit)
    (visible : isSeparator c = false) (tokens : tokensFrom offset 0 (c :: cs) = t :: after) :
    t.start = offset := by
  obtain ⟨w, rest, rfl, -, rfl, -⟩ := exists_lexeme_of_tokensFrom visible tokens
  simp only [Lexeme.place, Token.start, Span.ofOffsets]
  omega

/-- Within the limit of spans tokens stand one after the other. -/
theorem pairwise_tokensFrom {offset : Nat} {cs : List Char}
    (small : offset + byteLength cs ≤ Span.limit) :
    (tokensFrom offset 0 cs).Pairwise fun a b => a.stop ≤ b.start := by
  induction cs using lexemeInduction generalizing offset with
  | nil => exact .nil
  | separator c cs separator ih =>
      rw [tokensFrom_separator separator]
      exact ih (by rwa [byteLength_cons, ← Nat.add_assoc] at small)
  | lexeme c w rest visible covered ih =>
      have small' : offset + byteLength (c :: w) + byteLength rest ≤ Span.limit := by
        rwa [← List.cons_append, byteLength_append, ← Nat.add_assoc] at small
      rw [tokensFrom_lexeme visible offset covered]
      refine .cons (fun b member => ?_) (ih small')
      have after := (span_of_mem_tokensFrom small' member).1
      simp only [Lexeme.place, Token.stop, Span.ofOffsets, covered]
      rw [List.take_of_length_le (by simp)]
      omega

/-- Within the limit of spans a later token starts later. -/
theorem start_lt_of_length_lt {offset : Nat} {cs : List Char} {vs us before after : List Token}
    {u t : Token} (small : offset + byteLength cs ≤ Span.limit)
    (tokens : tokensFrom offset 0 cs = vs ++ u :: us)
    (tokens' : tokensFrom offset 0 cs = before ++ t :: after)
    (shorter : vs.length < before.length) : u.start < t.start := by
  have ordered := pairwise_tokensFrom small
  have covers := (span_of_mem_tokensFrom small (tokens ▸ by simp : u ∈ tokensFrom offset 0 cs)).2.1
  obtain ⟨middle, rfl⟩ : ∃ middle, before = vs ++ u :: middle := by
    rw [tokens] at tokens'
    rcases List.append_eq_append_iff.mp tokens' with ⟨middle, rfl, rest⟩ | ⟨middle, rfl, -⟩
    · cases middle with
      | nil => simp at shorter
      | cons v middle =>
          cases (List.cons.inj rest).1
          exact ⟨middle, rfl⟩
    · have bound := shorter
      rw [List.length_append] at bound
      omega
  rw [tokens', List.append_assoc, List.pairwise_append] at ordered
  have apart := List.rel_of_pairwise_cons ordered.2.1 (by simp : t ∈ middle ++ t :: after)
  omega

end StreamLang
