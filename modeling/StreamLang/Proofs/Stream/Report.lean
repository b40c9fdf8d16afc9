import StreamLang.Proofs.Stream.Checkpoint
import StreamLang.Proofs.Text.LineIndex

/-!
What a failure reports.

The checkpoint divides the tokens that were read: it is zero while all of them are pending, and else
the start of the first token after those before it (`Cursor.exists_kept_of_readAll`). The token that
did not fit is of a kind that was announced only within a parameter, when separators stand before it
(`PartialStream.not_touching_of_announced`), and then the message says so.
-/

namespace StreamLang

/-! ## Kinds that are announced -/

/-- Only the parts of a parameter have to touch each other. -/
theorem Expectation.eq_of_isAdjacent {x : Expectation} (adjacent : x.isAdjacent = true) :
    x = .propertyName ∨ x = .equals ∨ x = .value := by
  cases x with
  | propertyName | equals | value => simp
  | _ => cases adjacent

namespace PartialStream

variable {p : PartialStream} {t : Token} {touching : Bool}

/-- The end of the text is announced only where the stream may end. -/
theorem isComplete_of_eof (announced : .eof ∈ p.expected) : p.isComplete = true := by
  cases p with
  | stage | closed => rfl
  | _ => simp [expected] at announced

/-- A token of an announced kind fits when it touches the one before it. -/
theorem exists_next_of_announced (announced : t.kind ∈ p.expected) (inside : t.kind ≠ .eof) :
    ∃ q, p.next true t = some q := by
  cases p with
  | start | stageStart | equals =>
      simp only [expected, List.mem_cons, List.not_mem_nil, or_false] at announced
      rcases announced with kind | kind <;> simp [next, kind]
  | stage =>
      simp only [expected, List.mem_cons, List.not_mem_nil, or_false, inside] at announced
      rcases announced with kind | kind | kind <;> simp [next, kind]
  | closed => simp [expected, inside] at announced
  | _ =>
      simp only [expected, List.mem_singleton] at announced
      simp [next, announced]

/-- A token of an announced kind that does not fit is within a parameter, and does not touch the
token before it. -/
theorem not_touching_of_announced (announced : t.kind ∈ p.expected) (inside : t.kind ≠ .eof)
    (stuck : p.next touching t = none) :
    p.expectation.isAdjacent = true ∧ touching = false := by
  obtain ⟨q, fits⟩ := exists_next_of_announced announced inside
  constructor
  · by_contra loose
    rw [next_of_not_adjacent (Bool.eq_false_iff.mpr loose) touching true, fits] at stuck
    cases stuck
  · by_contra touches
    rw [Bool.not_eq_false] at touches
    rw [touches, fits] at stuck
    cases stuck

/-- No error is announced. -/
theorem not_error_of_announced {k : TokenKind} (announced : k ∈ p.expected) (cause : LexError) :
    k ≠ .error cause := by
  rintro rfl
  cases p <;> simp [expected] at announced

theorem not_isComplete_of_isAdjacent (adjacent : p.expectation.isAdjacent = true) :
    p.isComplete = false := by
  cases p with
  | dashes | key | equals => rfl
  | _ => cases adjacent

end PartialStream

/-! ## Signs -/

/-- The sign that the tokens of a kind are written with. -/
def TokenKind.sign? : TokenKind → Option String
  | .pipe => some "|"
  | .doubleDash => some "--"
  | .equals => some "="
  | .gt => some ">"
  | _ => none

namespace TokenKind

variable {k k' : TokenKind} {shown : String}

theorem eq_of_sign? (sign : k.sign? = some shown) (sign' : k'.sign? = some shown) : k = k' := by
  cases k <;> cases sign <;> cases k' <;> simp [sign?] at sign' <;> rfl

/-- No sign starts like a name. -/
theorem not_isLetter_of_sign? (sign : k.sign? = some shown) :
    ∀ c ∈ shown.toList.head?, isLetter c = false := by
  intro c head
  cases k <;> cases sign <;> cases head <;> rfl

/-- A kind is spelled in quotes exactly when it has a sign. -/
theorem description_eq_quoted_iff :
    k.description = "'" ++ shown ++ "'" ↔ k.sign? = some shown := by
  constructor
  · intro same
    have chars := congrArg String.toList same
    simp only [String.toList_append] at chars
    have quoted : ∀ sign, k.description.toList = "'".toList ++ String.toList sign ++ "'".toList →
        some sign = some shown := by
      intro sign spelled
      rw [spelled] at chars
      have inner := List.append_cancel_left (List.append_cancel_right chars)
      rw [String.toList_inj.mp inner]
    cases k with
    | pipe | doubleDash | equals | gt => exact quoted _ rfl
    | error cause => cases cause <;> simp [description, LexError.description] at chars
    | _ => simp [description] at chars
  · intro sign
    cases k <;> cases sign <;> rfl

end TokenKind

/-- A token with the text of a sign is that sign, or a literal. -/
theorem Lexeme.Lexes.kind_of_sign? {w rest : List Char} {kind k : TokenKind} {text : String}
    (lexes : Lexeme.Lexes w rest kind text) (sound : ∀ cause, kind ≠ .error cause)
    (sign : k.sign? = some text) : kind = k ∨ kind = .literal := by
  have unnamed : ∀ name more, isName name = true → text.toList ≠ name ++ more := by
    intro name more isName whole
    cases name with
    | nil => cases isName
    | cons d ds =>
        have first := TokenKind.not_isLetter_of_sign? sign d (by rw [whole]; rfl)
        rw [(isName_cons.mp isName).1] at first
        cases first
  cases lexes with
  | rule wins =>
      have fits := wins.fits
      cases fits with
      | pipe | doubleDash | equals | gt => exact Or.inl (TokenKind.eq_of_sign? rfl sign)
      | quoted | bare => exact Or.inr rfl
      | identifier name | label name | destination name =>
          exact absurd (by simp) (unnamed _ [] name)
  | halfLabel wins =>
      have fits := wins.fits
      cases fits with
      | label name => exact absurd String.toList_ofList (unnamed _ [':'] name)
  | unterminated | unexpected => exact absurd rfl (sound _)

/-! ## The checkpoint among the tokens -/

namespace Cursor

/-- The checkpoint between tokens: zero when there are none before it, and else the start of the
first of the others. -/
inductive Divides (kept others : List Token) : Nat → Prop
  | none : kept = [] → Divides kept others 0
  | some {t : Token} : kept ≠ [] → others.head? = some t → Divides kept others t.start

theorem Divides.append {kept others : List Token} {n : Nat} (divides : Divides kept others n)
    (more : List Token) : Divides kept (others ++ more) n := by
  cases divides with
  | none empty => exact .none empty
  | some nonempty first => exact .some nonempty (by simp [first])

/-- Between tokens that stand one after the other the checkpoint is not before any of the first
tokens, and it is zero only when there are none. -/
theorem Divides.checkpoint {kept others : List Token} {n : Nat} (divides : Divides kept others n)
    (ordered : ∀ a ∈ kept, ∀ b ∈ others, a.stop ≤ b.start)
    (visible : ∀ a ∈ kept, a.start < a.stop) :
    (∀ a ∈ kept, a.stop ≤ n) ∧ (kept = [] ↔ n = 0) ∧
      (n ≠ 0 → ∀ t ∈ others.head?, t.start = n) := by
  cases divides with
  | none empty => simp [empty]
  | @some t nonempty first =>
      have early : ∀ a ∈ kept, a.stop ≤ t.start := fun a member =>
        ordered a member t (List.mem_of_mem_head? first)
      obtain ⟨a, member⟩ := List.exists_mem_of_ne_nil kept nonempty
      have positive : 0 < t.start :=
        Nat.lt_of_lt_of_le (Nat.zero_lt_of_lt (visible a member)) (early a member)
      refine ⟨early, ?_, ?_⟩
      · simp only [nonempty, false_iff]
        omega
      · intro _ u head
        rw [first] at head
        cases head
        rfl

/-- At every token the checkpoint divides the tokens that were read, and those after it are
pending. -/
theorem exists_kept_of_readAll {ts : List Token} {c : Cursor} (all : start.readAll ts = .ok c)
    (t : Token) :
    ∃ kept, ts = kept ++ (c.mark t).pending ∧
      Divides kept ((c.mark t).pending ++ [t]) (c.mark t).checkpoint := by
  refine readAll_induction (motive := fun ts c => ∀ t, ∃ kept, ts = kept ++ (c.mark t).pending ∧
    Divides kept ((c.mark t).pending ++ [t]) (c.mark t).checkpoint) ?_ ?_ all t
  · exact fun t => ⟨[], rfl, .none rfl⟩
  · intro ts c u d _ ih read t
    obtain ⟨state, -, rfl⟩ := read_eq_ok_iff.mp read
    cases complete : state.isComplete with
    | true =>
        rw [mark_of_isComplete t complete]
        exact ⟨ts ++ [u], (List.append_nil _).symm, .some (by simp) rfl⟩
    | false =>
        rw [mark_of_not_isComplete t complete]
        obtain ⟨kept, split, divides⟩ := ih u
        exact ⟨kept, by rw [split, List.append_assoc], divides.append [t]⟩

end Cursor

/-! ## Tokens and positions -/

variable {text name : String} {e : ParseFailure}

namespace ParseFailure

/-- How the tokens of a text lie about its failure: those before the checkpoint, the pending ones,
the one that did not fit, and the others. -/
structure Divides (e : ParseFailure) (text : String) (kept rest : List Token) : Prop where
  tokens : tokenize text = kept ++ e.pending ++ [e.offending] ++ rest
  early : ∀ t ∈ kept, t.stop ≤ e.checkpoint
  empty : kept = [] ↔ e.checkpoint = 0
  first : e.checkpoint ≠ 0 → ∀ t ∈ (e.pending ++ [e.offending]).head?, t.start = e.checkpoint

theorem exists_divides_of_parse (small : text.utf8ByteSize ≤ Span.limit)
    (fails : Topology.parse text = .error e) : ∃ kept rest, e.Divides text kept rest := by
  obtain ⟨c, before, t, after, split, first, rfl, -⟩ := exists_halt_of_parse fails
  obtain ⟨kept, rfl, divides⟩ := Cursor.exists_kept_of_readAll first t
  have tokens : tokenize text = kept ++ ((c.mark t).pending ++ [t]) ++ after := by simp [split]
  have ordered := pairwise_tokenize small
  rw [tokens, List.append_assoc, List.pairwise_append] at ordered
  have apart : ∀ a ∈ kept, ∀ b ∈ (c.mark t).pending ++ [t], a.stop ≤ b.start :=
    fun a member b other => ordered.2.2 a member b (List.mem_append_left _ other)
  have visible : ∀ a ∈ kept, a.start < a.stop := by
    intro a member
    have inside : a ∈ tokensOf text := by simp [tokensOf_eq_append split, member]
    exact (span_of_mem_tokensOf small inside).1
  obtain ⟨early, empty, head⟩ := divides.checkpoint apart visible
  exact ⟨kept, after, by simp [tokens, ofHalt], early, empty, head⟩

/-- The reported position is that of the token that did not fit. -/
theorem exists_position_of_parse (small : text.utf8ByteSize ≤ Span.limit)
    (fails : Topology.parse text = .error e) :
    ∃ before after, text.toList = before ++ after ∧ e.offending.start = byteLength before ∧
      e.position.IsAfter before e.offending.start := by
  obtain ⟨c, front, t, rest, split, -, rfl, -⟩ := exists_halt_of_parse fails
  have member : t ∈ tokenize text := by simp [split]
  obtain ⟨tokens, edge⟩ := exists_edge small member (Or.inl rfl)
  obtain ⟨before, after, parts, start, -⟩ := edge.exists_cut small
  have bytes : byteLength before + byteLength after = text.utf8ByteSize := by
    rw [← byteLength_append, ← parts, byteLength_toList]
  refine ⟨before, after, parts, start, ?_⟩
  rw [ofHalt, start]
  refine LineIndex.locate_ofText small parts (Nat.le_refl _) (fun c _ => ?_) (by omega)
  exact Nat.lt_add_of_pos_right c.utf8Size_pos

/-! ## Messages -/

/-- The message about a token that would have fitted had it touched the one before it. -/
def detachedReason (e : ParseFailure) : String :=
  e.expectation.description ++ ": whitespace is not allowed before " ++ e.found

/-- The message about a token that was not expected. -/
def mismatchReason (e : ParseFailure) : String :=
  e.expectation.description ++ ": expected " ++
    " or ".intercalate (e.expected.map TokenKind.description) ++ ", found " ++ e.found

theorem detachedReason_ne_mismatchReason (e : ParseFailure) :
    e.detachedReason ≠ e.mismatchReason := by
  intro same
  have chars := congrArg String.toList same
  simp only [detachedReason, mismatchReason, String.toList_append, List.append_assoc] at chars
  have rest := List.append_cancel_left chars
  simp at rest

theorem reason_eq (e : ParseFailure) :
    e.reason = if e.isDetached then e.detachedReason else e.mismatchReason := rfl

theorem reason_eq_detachedReason_iff (e : ParseFailure) :
    e.reason = e.detachedReason ↔ e.isDetached = true := by
  rw [reason_eq]
  cases e.isDetached with
  | true => simp
  | false => simpa using e.detachedReason_ne_mismatchReason.symm

theorem mem_expected_of_isDetached (detached : e.isDetached = true) :
    e.offending.kind ∈ e.expected := by
  simp only [isDetached, Bool.and_eq_true, List.contains_iff_mem] at detached
  exact detached.1.2

/-- The token that did not fit would have fitted within a parameter, but separators stand between it
and the pending token before it, and the message says so. -/
structure Separated (e : ParseFailure) (text : String) : Prop where
  expects : e.expectation = .propertyName ∨ e.expectation = .equals ∨ e.expectation = .value
  gap : ∃ front last before gap after, e.pending = front ++ [last] ∧
    text.toList = before ++ gap ++ after ∧ last.stop = byteLength before ∧
    e.offending.start = byteLength (before ++ gap) ∧ gap ≠ [] ∧ ∀ c ∈ gap, isSeparator c = true
  reports : e.reason = e.detachedReason

/-- A kind that was announced is found only where separators are not allowed. -/
theorem separated_of_parse (small : text.utf8ByteSize ≤ Span.limit)
    (fails : Topology.parse text = .error e) (announced : e.offending.kind ∈ e.expected) :
    e.Separated text := by
  obtain ⟨c, before, t, after, split, first, rfl, cause⟩ := exists_halt_of_parse fails
  have announced' : t.kind ∈ c.state.expected := by simpa [ofHalt] using announced
  have stuck : t.kind ≠ .eof ∧ c.state.next ((c.mark t).touches t) t = none := by
    rcases cause with ⟨-, rfl, incomplete⟩ | ⟨inside, stuck⟩
    · rw [PartialStream.isComplete_of_eof announced'] at incomplete
      cases incomplete
    · exact ⟨kind_ne_eof_of_mem_tokensFrom inside, stuck⟩
  obtain ⟨adjacent, apart⟩ := PartialStream.not_touching_of_announced announced' stuck.1 stuck.2
  rw [Cursor.mark_of_not_isComplete t (PartialStream.not_isComplete_of_isAdjacent adjacent)]
    at apart announced ⊢
  rcases List.eq_nil_or_concat before with rfl | ⟨earlier, last, rfl⟩
  · cases first
    cases adjacent
  rw [List.concat_eq_append] at first split
  obtain ⟨front, pending⟩ : ∃ front, c.pending = front ++ [last] := by
    rw [← List.getLast?_eq_some_iff, Cursor.getLast?_pending first, List.getLast?_concat]
  have distinct : last.stop ≠ t.start := by simpa [Cursor.touches, pending] using apart
  have tokens : tokenize text = earlier ++ last :: t :: after := by simp [split]
  obtain ⟨pre, gap, post, parts, stop, start, separators⟩ := exists_gap_of_tokenize small tokens
  refine ⟨?_, ⟨front, last, pre, gap, post, pending, parts, stop, start, ?_, separators⟩, ?_⟩
  · exact Expectation.eq_of_isAdjacent adjacent
  · rintro rfl
    rw [List.append_nil] at start
    exact distinct (stop.trans start.symm)
  · rw [reason_eq_detachedReason_iff]
    simp [isDetached, ofHalt, adjacent, announced', pending, distinct]

/-- What was found is shown like a kind only when it is of that kind or has the text of its sign. -/
theorem kind_of_found {k : TokenKind} (sound : ∀ cause, k ≠ .error cause)
    (same : e.found = k.description) :
    e.offending.kind = k ∨
      k.sign? = some e.offending.text ∧ ∀ cause, e.offending.kind ≠ .error cause := by
  have chars := congrArg String.toList same
  unfold found at same chars
  split at same
  · next ended =>
      rw [ended]
      cases k with
      | eof => exact Or.inl rfl
      | error => exact absurd rfl (sound _)
      | _ => simp [TokenKind.description] at same
  · next cause error =>
      rw [error] at chars
      cases k with
      | error => exact absurd rfl (sound _)
      | _ => cases cause <;> simp [TokenKind.description, LexError.description] at chars
  · next sound' => exact Or.inr ⟨TokenKind.description_eq_quoted_iff.mp same.symm, sound'⟩

end ParseFailure

/-- What a failure reports fits together. The tokens of the text are those before the checkpoint,
the pending ones, the one that did not fit, and the others; the checkpoint is zero when none are
before it, and else none of them ends after it and the next one starts there. The position counts
the line feeds before the token that did not fit, and the bytes after the last of them. The kind of
that token is among those announced exactly when it stands within a parameter, with separators after
the last pending token, and the message says that whitespace is not allowed. So a message that says
what was expected never announces the kind that was found. -/
theorem coherent_of_parse (small : text.utf8ByteSize ≤ Span.limit)
    (fails : Stream.parse name text = .error e) :
    (∃ kept rest, e.Divides text kept rest) ∧
    (∃ before after, text.toList = before ++ after ∧ e.offending.start = byteLength before ∧
      e.position.IsAfter before e.offending.start) ∧
    (e.offending.kind ∈ e.expected ↔ e.Separated text) ∧
    (e.reason = e.mismatchReason → e.offending.kind ∉ e.expected) := by
  rw [streamParse_eq_error_iff] at fails
  have separated : e.offending.kind ∈ e.expected → e.Separated text :=
    ParseFailure.separated_of_parse small fails
  refine ⟨ParseFailure.exists_divides_of_parse small fails,
    ParseFailure.exists_position_of_parse small fails, ⟨separated, fun apart => ?_⟩, ?_⟩
  · exact e.mem_expected_of_isDetached (e.reason_eq_detachedReason_iff.mp apart.reports)
  · intro mismatch announced
    have detached := (separated announced).reports
    exact e.detachedReason_ne_mismatchReason (detached.symm.trans mismatch)

/-- An equals sign after a space, in the second line. -/
theorem coherent_of_parse_detached :
    ∃ e, Stream.parse "" "a |\nb --k =v" = .error e ∧ e.position = ⟨1, 6⟩ ∧
      e.Separated "a |\nb --k =v" := by
  obtain ⟨e, fails, position, announced⟩ :
      ∃ e, Stream.parse "" "a |\nb --k =v" = .error e ∧ e.position = ⟨1, 6⟩ ∧
        e.offending.kind ∈ e.expected := ⟨_, rfl, rfl, by decide⟩
  obtain ⟨-, -, separated, -⟩ := coherent_of_parse (by decide) fails
  exact ⟨e, fails, position, separated.mp announced⟩

/-- The words of a message may still be the same for what was expected and for what was found. Then
a literal was found, which messages show without its quotes. -/
theorem literal_of_found {k : TokenKind} (small : text.utf8ByteSize ≤ Span.limit)
    (fails : Stream.parse name text = .error e) (announced : k ∈ e.expected)
    (mismatch : e.reason = e.mismatchReason) (same : e.found = k.description) :
    e.offending.kind = .literal := by
  rw [streamParse_eq_error_iff] at fails
  have unannounced : e.offending.kind ≠ k := by
    rintro rfl
    have detached := (ParseFailure.separated_of_parse small fails announced).reports
    exact e.detachedReason_ne_mismatchReason (detached.symm.trans mismatch)
  obtain ⟨c, before, t, after, -, -, rfl, cause⟩ := exists_halt_of_parse fails
  have sound := PartialStream.not_error_of_announced (p := (c.mark t).state) announced
  obtain ⟨sign, sound'⟩ := (ParseFailure.kind_of_found sound same).resolve_left unannounced
  rcases cause with ⟨-, rfl, -⟩ | ⟨inside, -⟩
  · -- The end of the text has no text of its own.
    have sign' : k.sign? = some "" := sign
    cases k <;> simp [TokenKind.sign?] at sign'
  · obtain ⟨-, w, rest, -, -, -, -, lexes⟩ :=
      exists_slice_of_mem_tokensFrom (by simpa using small) inside
    exact (lexes.kind_of_sign? sound' sign).resolve_left unannounced

example : (Stream.parse "" "a '|'").mapError ParseFailure.message = .error
    "expecting '|' or end of input: expected '|' or '--' or '>' or end of input, found '|' at 1:3" :=
  rfl

end StreamLang
