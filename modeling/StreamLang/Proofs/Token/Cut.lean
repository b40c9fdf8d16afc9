import StreamLang.Proofs.Token.Extend

/-!
Tokens of texts that are cut, and of texts with separators between them.

A text can be cut at an `Edge`, where a token starts or ends. Its first part has the tokens before
the edge (`Edge.exists_cut`), and these are the tokens that end there or earlier
(`Edge.filter_stop`). One token may change: a name that keeps its colon is a label when the text
ends after it, and a cut keeps all tokens exactly when it is not made there
(`Edge.endAlone_eq_self_iff`). From the end of one token to the start of the next there are
separators only (`exists_gap_of_tokenize`).

Two texts with separators between them have the tokens of both, those of the second text moved to
where it starts (`tokenize_append_separators`).
-/

namespace StreamLang

variable {text : String} {before after : List Token} {t : Token} {b : Nat}

/-! ## Offsets -/

/-- The starts of the characters of a text, and its end, are its boundaries. -/
theorem Text.mem_boundaries {pre post : List Char} (split : text.toList = pre ++ post) :
    byteLength pre ∈ Text.boundaries text := by
  have walks : ∀ offset, offset + byteLength pre ∈ boundaries.go offset (pre ++ post) := by
    clear split
    induction pre with
    | nil => intro offset; cases post <;> simp [boundaries.go]
    | cons c pre ih =>
        intro offset
        have later := ih (offset + c.utf8Size)
        rw [Nat.add_assoc, ← byteLength_cons] at later
        exact List.mem_cons_of_mem _ later
  rw [boundaries, split]
  simpa using walks 0

theorem Text.upTo_byteLength {pre post : List Char} (split : text.toList = pre ++ post) :
    Text.upTo text (byteLength pre) = String.ofList pre := by
  rw [upTo, split, takeBytes_append]

/-! ## Edges -/

/-- Every token starts at a character of the text, and the text before it has the tokens before it.
The last of them may be a label there. -/
theorem exists_cut_of_tokensOf (small : text.utf8ByteSize ≤ Span.limit)
    (tokens : tokensOf text = before ++ t :: after) :
    ∃ pre post, text.toList = pre ++ post ∧ t.start = byteLength pre ∧
      tokensOf (String.ofList pre) = Token.endAlone before := by
  obtain ⟨pre, c, post, split, -, visible, left, right⟩ := exists_boundary_of_tokensFrom tokens
  rw [← byteLength_toList, split, byteLength_append] at small
  refine ⟨pre, c :: post, split, ?_, by rw [tokensOf, String.toList_ofList, left]⟩
  have start := start_of_tokensFrom (by omega) visible right
  omega

/-- A byte offset at which a token starts or ends, the one for the end of the text included, and the
tokens before it. -/
inductive Edge (text : String) : List Token → Nat → Prop
  | start {before after : List Token} {t : Token} : tokensOf text = before ++ t :: after →
    Edge text before t.start
  | stop {before after : List Token} {t : Token} : tokensOf text = before ++ t :: after →
    Edge text (before ++ [t]) t.stop
  | finish : Edge text (tokensOf text) text.utf8ByteSize

theorem exists_edge (small : text.utf8ByteSize ≤ Span.limit) (member : t ∈ tokenize text)
    (edge : b = t.start ∨ b = t.stop) : ∃ before, Edge text before b := by
  rcases List.mem_append.mp member with inside | last
  · obtain ⟨before, after, tokens⟩ := List.append_of_mem inside
    rcases edge with rfl | rfl
    · exact ⟨before, .start tokens⟩
    · exact ⟨before ++ [t], .stop tokens⟩
  · cases List.mem_singleton.mp last
    have place : b = text.utf8ByteSize := by
      rw [endOf_eq small] at edge
      rcases edge with start | stop
      · exact start
      · exact stop
    rw [place]
    exact ⟨tokensOf text, .finish⟩

/-- Whether a name that keeps its colon ends at the offset. -/
def Text.HalfLabelAt (text : String) (offset : Nat) : Prop :=
  ∃ t ∈ tokenize text, t.isHalfLabel = true ∧ t.stop = offset

instance (text : String) (offset : Nat) : Decidable (Text.HalfLabelAt text offset) :=
  inferInstanceAs (Decidable (∃ t ∈ tokenize text, t.isHalfLabel = true ∧ t.stop = offset))

theorem Text.HalfLabelAt.exists_mem_tokensOf (half : Text.HalfLabelAt text b) :
    ∃ t ∈ tokensOf text, t.isHalfLabel = true ∧ t.stop = b := by
  obtain ⟨t, member, isHalf, stop⟩ := half
  rcases List.mem_append.mp member with inside | last
  · exact ⟨t, inside, isHalf, stop⟩
  · cases List.mem_singleton.mp last
    simp [Token.isHalfLabel, endOf, Token.endOfText] at isHalf

namespace Edge

variable (small : text.utf8ByteSize ≤ Span.limit) (edge : Edge text before b)

include small edge

/-- A text can be cut at an edge, and its first part has the tokens before the edge. -/
theorem exists_cut : ∃ pre post, text.toList = pre ++ post ∧ b = byteLength pre ∧
    tokensOf (String.ofList pre) = Token.endAlone before := by
  cases edge with
  | start tokens => exact exists_cut_of_tokensOf small tokens
  | stop tokens =>
      obtain ⟨pre, post, split, stop, left, -⟩ := exists_cut_after_token small tokens
      exact ⟨pre, post, split, stop, left⟩
  | finish =>
      have whole : ∀ u ∈ (tokensOf text).getLast?, u.isHalfLabel = false :=
        whole_of_tokensFrom (List.append_nil _).symm (by simp)
      refine ⟨text.toList, [], (List.append_nil _).symm, (byteLength_toList text).symm, ?_⟩
      rw [String.ofList_toList, Token.endAlone_eq_self whole]

/-- The tokens of the text are those before the edge, which end there or earlier, and others, which
end later. -/
theorem exists_after : ∃ after, tokensOf text = before ++ after ∧
    (∀ u ∈ before, u.stop ≤ b) ∧ ∀ u ∈ after, b < u.stop := by
  have ordered := pairwise_tokensOf small
  have covers : ∀ u ∈ tokensOf text, u.start < u.stop ∧ u.stop ≤ text.utf8ByteSize :=
    fun u member => span_of_mem_tokensOf small member
  cases edge with
  | @start _ after t tokens =>
      rw [tokens] at ordered covers
      obtain ⟨-, rest, apart⟩ := List.pairwise_append.mp ordered
      have later := (List.pairwise_cons.mp rest).1
      have first := (covers t (by simp)).1
      refine ⟨t :: after, tokens, fun u member => apart u member t List.mem_cons_self, ?_⟩
      intro u member
      rcases List.mem_cons.mp member with rfl | inside
      · exact first
      · have next := later u inside
        have last := (covers u (by simp [inside])).1
        omega
  | @stop front after t tokens =>
      rw [tokens] at ordered covers
      obtain ⟨-, rest, apart⟩ := List.pairwise_append.mp ordered
      have later := (List.pairwise_cons.mp rest).1
      refine ⟨after, by rw [tokens, List.append_assoc]; rfl, ?_, ?_⟩
      · intro u member
        rcases List.mem_append.mp member with inside | last
        · have next := apart u inside t List.mem_cons_self
          have last := (covers t (by simp)).1
          omega
        · cases List.mem_singleton.mp last
          exact Nat.le_refl _
      · intro u member
        have next := later u member
        have last := (covers u (by simp [member])).1
        omega
  | finish => exact ⟨[], (List.append_nil _).symm, fun u member => (covers u member).2, by simp⟩

theorem filter_stop : (tokensOf text).filter (fun u => u.stop ≤ b) = before := by
  obtain ⟨after, tokens, early, late⟩ := edge.exists_after small
  have kept : before.filter (fun u => u.stop ≤ b) = before :=
    List.filter_eq_self.mpr fun u member => decide_eq_true (early u member)
  have dropped : after.filter (fun u => u.stop ≤ b) = [] :=
    List.filter_eq_nil_iff.mpr fun u member => by
      have := late u member
      simpa using this
  rw [tokens, List.filter_append, kept, dropped, List.append_nil]

/-- A name that keeps its colon ends at an edge exactly when it is the token before it. -/
theorem halfLabelAt_iff :
    Text.HalfLabelAt text b ↔ ∃ u ∈ before.getLast?, u.isHalfLabel = true := by
  constructor
  · intro half
    obtain ⟨u, member, isHalf, stop⟩ := half.exists_mem_tokensOf
    obtain ⟨front, rest, tokens⟩ := List.append_of_mem member
    -- The tokens before an edge are those that end there or earlier, however the edge is found.
    have same := (Edge.stop tokens).filter_stop small
    rw [stop, edge.filter_stop small] at same
    exact ⟨u, by simp [same], isHalf⟩
  · rintro ⟨u, last, isHalf⟩
    have touches : ∀ {after : List Token}, tokensOf text = before ++ after →
        ∃ e others, after = e :: others ∧ e.start = u.stop := by
      intro after tokens
      obtain ⟨front, rfl⟩ := List.getLast?_eq_some_iff.mp last
      rw [List.append_assoc] at tokens
      obtain ⟨e, others, rest, -, place⟩ := exists_error_of_tokensFrom tokens isHalf
      exact ⟨e, others, rest, place⟩
    have inside : u ∈ tokensOf text := by
      obtain ⟨after, tokens, -⟩ := edge.exists_after small
      rw [tokens]
      exact List.mem_append_left after (List.mem_of_getLast? last)
    refine ⟨u, List.mem_append_left _ inside, isHalf, ?_⟩
    cases edge with
    | start tokens =>
        obtain ⟨e, others, rest, place⟩ := touches tokens
        cases rest
        exact place.symm
    | stop =>
        rw [List.getLast?_concat] at last
        cases last
        rfl
    | finish =>
        obtain ⟨e, others, rest, -⟩ := touches (List.append_nil _).symm
        cases rest

/-- A cut keeps the tokens before it exactly when no name that keeps its colon ends there. -/
theorem endAlone_eq_self_iff :
    Token.endAlone before = before ↔ ¬ Text.HalfLabelAt text b := by
  rw [edge.halfLabelAt_iff small]
  constructor
  · rintro kept ⟨u, last, isHalf⟩
    obtain ⟨front, rfl⟩ := List.getLast?_eq_some_iff.mp last
    rw [Token.endAlone_concat] at kept
    have same := (List.append_inj' kept rfl).2
    have label := Token.kind_alone_of_isHalfLabel isHalf
    rw [(List.cons.inj same).1] at label
    simp [Token.isHalfLabel, label] at isHalf
  · intro whole
    apply Token.endAlone_eq_self
    intro u last
    apply Bool.eq_false_iff.mpr
    exact fun isHalf => whole ⟨u, last, isHalf⟩

end Edge

/-- A text whose last token is an identifier ends with it, apart from blanks. -/
theorem trimEnd_eq_append_of_identifier (small : text.utf8ByteSize ≤ Span.limit)
    (tokens : tokensOf text = before ++ [t]) (identifier : t.kind = .identifier) :
    Text.trimEnd text = Text.upTo text t.start ++ t.text := by
  obtain ⟨pre, c, post, split, -, visible, -, right⟩ := exists_boundary_of_tokensFrom tokens
  obtain ⟨w, rest, rfl, covered, made, others⟩ := exists_lexeme_of_tokensFrom visible right
  have lexes := Lexeme.lexes_read visible covered
  rw [made] at identifier
  have shown : t.text = String.ofList (c :: w) := by
    rw [made]
    exact lexes.text_of_identifier identifier
  have sound : ∀ cause, (Lexeme.read c (w ++ rest)).kind ≠ .error cause := by
    intro cause error
    rw [Lexeme.kind_place, error] at identifier
    cases identifier
  have start : t.start = byteLength pre := by
    rw [← byteLength_toList, split, byteLength_append] at small
    have place := start_of_tokensFrom (by omega) visible right
    omega
  have separators := isSeparator_of_tokensFrom_eq_nil others.symm
  have split' : text.toList = (pre ++ c :: w) ++ rest := by simp [split]
  rw [start, Text.upTo_byteLength split, shown, ← String.ofList_append]
  apply Text.trimEnd_eq split'
  · intro d last
    rw [List.getLast?_append_of_ne_nil _ (List.cons_ne_nil c w)] at last
    exact lexes.not_isBlank_getLast sound d last
  · exact fun d member => isBlank_of_isSeparator (separators d member)

/-! ## Between tokens -/

/-- The tokens before one of a text stand in the text. -/
theorem tokensOf_eq_append (tokens : tokenize text = before ++ t :: after) :
    tokensOf text = before ++ (t :: after).dropLast := by
  rw [← List.dropLast_append_cons, ← tokens, tokenize, List.dropLast_concat]

theorem eq_endOf_of_tokenize (tokens : tokenize text = before ++ [t]) : t = endOf text :=
  (List.cons.inj (List.append_inj' tokens.symm rfl).2).1

/-- Between the end of a token and the start of the next there are separators only. -/
theorem exists_gap_of_tokenize {u : Token} (small : text.utf8ByteSize ≤ Span.limit)
    (tokens : tokenize text = before ++ t :: u :: after) :
    ∃ pre gap post, text.toList = pre ++ gap ++ post ∧ t.stop = byteLength pre ∧
      u.start = byteLength (pre ++ gap) ∧ ∀ c ∈ gap, isSeparator c = true := by
  obtain ⟨pre, post, split, stop, -, right, -⟩ :=
    exists_cut_after_token small (tokensOf_eq_append tokens)
  cases after with
  | nil =>
      refine ⟨pre, post, [], by rw [split, List.append_nil], stop, ?_,
        isSeparator_of_tokensFrom_eq_nil right⟩
      have last : tokenize text = (before ++ [t]) ++ [u] := by simp [tokens]
      rw [eq_endOf_of_tokenize last, ← split, byteLength_toList, endOf_eq small]
      rfl
  | cons v after =>
      have next : tokensFrom (byteLength pre) 0 post = [] ++ u :: (v :: after).dropLast := right
      obtain ⟨gap, c, rest, rfl, -, visible, left, right'⟩ := exists_boundary_of_tokensFrom next
      refine ⟨pre, gap, c :: rest, by rw [split, List.append_assoc], stop, ?_,
        isSeparator_of_tokensFrom_eq_nil left⟩
      rw [← byteLength_toList, split, byteLength_append, byteLength_append, ← Nat.add_assoc] at small
      rw [start_of_tokensFrom small visible right', byteLength_append]

/-! ## Texts with separators between them -/

namespace Token

/-- The token, moved on by a number of bytes. -/
def shift (n : Nat) (t : Token) : Token :=
  { t with span := ⟨n + t.span.start, n + t.span.stop⟩ }

end Token

theorem Span.ofOffsets_add {n start stop : Nat} (ordered : start ≤ stop)
    (small : n + stop ≤ limit) :
    ofOffsets (n + start) (n + stop) =
      ⟨n + (ofOffsets start stop).start, n + (ofOffsets start stop).stop⟩ := by
  rw [ofOffsets_of_le (by omega) small, ofOffsets_of_le ordered (by omega)]

/-- The tokens of a text do not depend on where it starts, apart from their places. -/
theorem tokensFrom_add {n offset : Nat} {cs : List Char}
    (small : n + (offset + byteLength cs) ≤ Span.limit) :
    tokensFrom (n + offset) 0 cs = (tokensFrom offset 0 cs).map (Token.shift n) := by
  induction cs using lexemeInduction generalizing offset with
  | nil => rfl
  | separator c cs separator ih =>
      rw [byteLength_cons, ← Nat.add_assoc offset] at small
      rw [tokensFrom_separator separator, tokensFrom_separator separator, Nat.add_assoc, ih small]
  | lexeme c w rest visible covered ih =>
      rw [← List.cons_append, byteLength_append, ← Nat.add_assoc offset] at small
      have moved : (Lexeme.read c (w ++ rest)).place (n + offset) (c :: w) =
          ((Lexeme.read c (w ++ rest)).place offset (c :: w)).shift n := by
        simp only [Lexeme.place, Token.shift, covered]
        rw [List.take_of_length_le (by simp), Nat.add_assoc,
          Span.ofOffsets_add (Nat.le_add_right _ _) (by omega)]
      rw [tokensFrom_lexeme visible _ covered, tokensFrom_lexeme visible _ covered, List.map_cons,
        moved, Nat.add_assoc, ih small]

/-- Texts with separators between them have the tokens of both. -/
theorem tokenize_append_separators {first blanks second : String}
    (closed : Closed (tokensOf first)) (some : blanks ≠ "")
    (all : ∀ c ∈ blanks.toList, isSeparator c = true)
    (small : (first ++ blanks ++ second).utf8ByteSize ≤ Span.limit) :
    tokenize (first ++ blanks ++ second) =
      tokensOf first ++ (tokenize second).map (Token.shift (first ++ blanks).utf8ByteSize) := by
  generalize place : (first ++ blanks).utf8ByteSize = n
  have split : (first ++ blanks ++ second).utf8ByteSize = n + second.utf8ByteSize := by
    rw [String.utf8ByteSize_append, place]
  have some' : blanks.toList ≠ [] := by simpa using some
  have chars : (first ++ blanks ++ second).toList =
      first.toList ++ (blanks.toList ++ second.toList) := by simp
  have moved : tokensFrom (0 + n) 0 second.toList = (tokensOf second).map (Token.shift n) := by
    rw [split] at small
    rw [Nat.zero_add]
    exact @tokensFrom_add _ 0 _ (by simpa using small)
  have tokens : tokensOf (first ++ blanks ++ second) =
      tokensOf first ++ (tokensOf second).map (Token.shift n) := by
    rw [← moved, ← place, ← byteLength_toList, String.toList_append, tokensOf, chars]
    exact tokensFrom_append_separators closed some' all
  have ended : endOf (first ++ blanks ++ second) = (endOf second).shift n := by
    have small' : second.utf8ByteSize ≤ Span.limit := by omega
    rw [endOf_eq small, endOf_eq small', split]
    rfl
  rw [tokenize, tokens, ended, tokenize, List.map_append, List.append_assoc]
  rfl

/-! ## Both together -/

/-- Splitting into tokens is compositional. A text may be cut where a token starts or ends: its
first part has the tokens that end there or earlier, and a new end. Only a name that keeps its colon
changes when the text ends after it, so that the tokens are the same exactly when none ends there.
And texts with separators between them have the tokens of both, as long as the first leaves no
literal open. -/
theorem tokenize_compositional (text : String) :
    (text.utf8ByteSize ≤ Span.limit → ∀ t ∈ tokenize text, ∀ b, b = t.start ∨ b = t.stop →
      b ∈ Text.boundaries text ∧
      tokenize (Text.upTo text b) =
        Token.endAlone ((tokensOf text).filter fun u => u.stop ≤ b) ++ [⟨.eof, "", b, b⟩] ∧
      (tokenize (Text.upTo text b) =
          ((tokensOf text).filter fun u => u.stop ≤ b) ++ [⟨.eof, "", b, b⟩] ↔
        ¬ Text.HalfLabelAt text b)) ∧
    (Closed (tokenize text) → ∀ blanks other : String, blanks ≠ "" →
      (∀ c ∈ blanks.toList, isSeparator c = true) →
      (text ++ blanks ++ other).utf8ByteSize ≤ Span.limit →
      tokenize (text ++ blanks ++ other) =
        tokensOf text ++ (tokenize other).map (Token.shift (text ++ blanks).utf8ByteSize)) := by
  constructor
  · intro small t member b place
    obtain ⟨before, edge⟩ := exists_edge small member place
    obtain ⟨pre, post, split, start, left⟩ := edge.exists_cut small
    have cut : Text.upTo text b = String.ofList pre := by rw [start, Text.upTo_byteLength split]
    have bound : b ≤ text.utf8ByteSize := by
      rw [start, ← byteLength_toList, split, byteLength_append]
      exact Nat.le_add_right _ _
    have size : (String.ofList pre).utf8ByteSize = b := by
      rw [← byteLength_toList, String.toList_ofList, start]
    have tokens : tokenize (Text.upTo text b) = Token.endAlone before ++ [⟨.eof, "", b, b⟩] := by
      rw [cut, tokenize, left, endOf_eq (by omega), size]
    rw [edge.filter_stop small]
    refine ⟨start ▸ Text.mem_boundaries split, tokens, ?_⟩
    rw [tokens, List.append_cancel_right_eq]
    exact edge.endAlone_eq_self_iff small
  · intro closed blanks other some all small
    exact tokenize_append_separators
      (fun t member => closed t (List.mem_append_left _ member)) some all small

/-- A cut between a literal and what it touches, and a text after a label. -/
theorem tokenize_compositional_literal :
    tokenize (Text.upTo "k: 'it''s'\u00a0" 10) =
        [⟨.label, "k", 0, 2⟩, ⟨.literal, "it's", 3, 10⟩, ⟨.eof, "", 10, 10⟩] ∧
      tokenize ("k:" ++ "\t" ++ "'x'") =
        [⟨.label, "k", 0, 2⟩, ⟨.literal, "x", 3, 6⟩, ⟨.eof, "", 6, 6⟩] := by
  obtain ⟨cuts, -⟩ := tokenize_compositional "k: 'it''s'\u00a0"
  obtain ⟨-, tokens, -⟩ := cuts (by decide) ⟨.literal, "it's", 3, 10⟩ (by decide) 10 (Or.inr rfl)
  obtain ⟨-, joins⟩ := tokenize_compositional "k:"
  have joined := joins (by decide) "\t" "'x'" (by decide) (by simp [isSeparator]) (by decide)
  exact ⟨tokens, joined⟩

/-- The text before the end of a name that keeps its colon has another token in its place. -/
theorem cut_after_halfLabel :
    ∃ t ∈ tokenize "a:\u00a0", tokenize (Text.upTo "a:\u00a0" t.stop) ≠
      ((tokensOf "a:\u00a0").filter fun u => u.stop ≤ t.stop) ++ [⟨.eof, "", t.stop, t.stop⟩] :=
  ⟨⟨.identifier, "a:", 0, 2⟩, by decide, by decide⟩

end StreamLang
