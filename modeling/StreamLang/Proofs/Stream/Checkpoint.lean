import StreamLang.Proofs.Stream.Reading
import StreamLang.Proofs.Token.Cut

/-!
How far a text that does not parse is a stream.

The checkpoint of a failure is where the longest accepted list of tokens ends
(`Cursor.checkpoint_of_run`). In the text that is the longest start that parses, unless a name that
keeps its colon stands right before the checkpoint: such a name is a label when the text ends after
it, and then the text up to the checkpoint does not parse.
-/

namespace StreamLang

namespace Cursor

/-! ## Accepted tokens -/

/-- Whether the tokens are those of a stream. -/
def Accepts (ts : List Token) : Prop :=
  ∃ c, start.readAll ts = .ok c ∧ c.state.isComplete = true

theorem not_accepts_nil : ¬ Accepts [] := by
  rintro ⟨c, all, complete⟩
  cases all
  cases complete

/-- What is read to a place where the stream may not end is not accepted. -/
theorem not_accepts_of_readAll {ts : List Token} {c : Cursor} (all : start.readAll ts = .ok c)
    (incomplete : c.state.isComplete = false) : ¬ Accepts ts := by
  rintro ⟨d, all', complete⟩
  rw [all] at all'
  cases all'
  rw [incomplete] at complete
  cases complete

/-- No stream ends in a label. -/
theorem not_accepts_label {ts : List Token} {t : Token} (label : t.kind = .label) :
    ¬ Accepts (ts ++ [t]) := by
  rintro ⟨c, all, complete⟩
  obtain ⟨d, -, last⟩ := readAll_of_append all
  rw [readAll_singleton] at last
  obtain ⟨state, next, rfl⟩ := read_eq_ok_iff.mp last
  rw [PartialStream.isComplete_of_label label next] at complete
  cases complete

/-- A text parses exactly when its tokens are accepted. -/
theorem exists_parse_iff_accepts {text : String} :
    (∃ t, Topology.parse text = .ok t) ↔ Accepts (tokensOf text) := by
  simp only [topologyParse_eq_ok_iff_readAll, Accepts]
  constructor
  · rintro ⟨t, c, all, topology⟩
    exact ⟨c, all, by rw [← PartialStream.isSome_topology?, topology]; rfl⟩
  · rintro ⟨c, all, complete⟩
    rw [← PartialStream.isSome_topology?, Option.isSome_iff_exists] at complete
    obtain ⟨t, topology⟩ := complete
    exact ⟨t, c, all, topology⟩

/-- Cutting a text after accepted tokens leaves them accepted, unless the last of them is a name
that keeps its colon. -/
theorem accepts_endAlone {ts : List Token} :
    Accepts (Token.endAlone ts) ↔ Accepts ts ∧ ∀ t ∈ ts.getLast?, t.isHalfLabel = false := by
  rcases List.eq_nil_or_concat ts with rfl | ⟨ts, t, rfl⟩
  · simp [Token.endAlone]
  · rw [List.concat_eq_append, Token.endAlone_concat, List.getLast?_concat]
    cases half : t.isHalfLabel with
    | true =>
        have rejected : ¬ Accepts (ts ++ [t.alone]) :=
          not_accepts_label (Token.kind_alone_of_isHalfLabel half)
        simp [rejected, half]
    | false => simp [Token.alone_of_isHalfLabel half, half]

/-! ## The checkpoint among the tokens -/

/-- Where the longest accepted start of the tokens ends, before the next token: the start of the
token after it, or zero when no start is accepted. -/
inductive LongestAccepted (ts : List Token) (next : Token) : Nat → Prop
  | none : (∀ vs, vs <+: ts → ¬ Accepts vs) → LongestAccepted ts next 0
  | some {vs us : List Token} {u : Token} : ts ++ [next] = vs ++ u :: us → Accepts vs →
    (∀ vs', vs' <+: ts → vs.length < vs'.length → ¬ Accepts vs') →
    LongestAccepted ts next u.start

/-- Tokens that are not accepted as a whole leave the longest accepted start where it is. -/
theorem LongestAccepted.concat {ts : List Token} {u : Token} {n : Nat}
    (longest : LongestAccepted ts u n) (rejected : ¬ Accepts (ts ++ [u])) (t : Token) :
    LongestAccepted (ts ++ [u]) t n := by
  cases longest with
  | none all =>
      refine .none fun vs start => ?_
      rcases List.prefix_concat_iff.mp start with rfl | shorter
      · exact rejected
      · exact all vs shorter
  | @some vs us v split accepts all =>
      have split' : ts ++ [u] ++ [t] = vs ++ v :: (us ++ [t]) := by simp [split]
      refine .some split' accepts fun vs' start longer => ?_
      rcases List.prefix_concat_iff.mp start with rfl | shorter
      · exact rejected
      · exact all vs' shorter longer

theorem LongestAccepted.append {ts : List Token} {t : Token} {n : Nat}
    (longest : LongestAccepted ts t n) (rejected : ∀ us, ¬ Accepts (ts ++ t :: us))
    (us : List Token) (next : Token) : LongestAccepted (ts ++ t :: us) next n := by
  induction us using List.reverseRecOn generalizing next with
  | nil => exact longest.concat (rejected []) next
  | append_singleton us u ih =>
      have longer := (ih u).concat (by simpa using rejected (us ++ [u])) next
      simpa using longer

/-- At every token the checkpoint is where the longest accepted start of the tokens read so far
ends. -/
theorem checkpoint_of_readAll {ts : List Token} {c : Cursor} (all : start.readAll ts = .ok c)
    (t : Token) : LongestAccepted ts t (c.mark t).checkpoint := by
  refine readAll_induction
    (motive := fun ts c => ∀ t, LongestAccepted ts t (c.mark t).checkpoint) ?_ ?_ all t
  · refine fun t => .none fun vs start => ?_
    rw [List.prefix_nil.mp start]
    exact not_accepts_nil
  · intro ts c u d first longest read t
    have all : start.readAll (ts ++ [u]) = .ok d := by
      rw [readAll_append first, readAll_singleton, read]
    cases complete : d.state.isComplete with
    | true =>
        rw [mark_of_isComplete t complete]
        refine .some rfl ⟨d, all, complete⟩ fun vs start longer => ?_
        exact absurd start.length_le (Nat.not_le.mpr longer)
    | false =>
        obtain ⟨state, -, rfl⟩ := read_eq_ok_iff.mp read
        rw [mark_of_not_isComplete t complete]
        exact (longest u).concat (not_accepts_of_readAll all complete) t

/-- Tokens that go on with one that does not fit are not accepted. -/
theorem not_accepts_of_stuck {ts us : List Token} {t : Token} {c : Cursor}
    (all : start.readAll ts = .ok c)
    (stuck : c.state.next ((c.mark t).touches t) t = none) : ¬ Accepts (ts ++ t :: us) := by
  rintro ⟨d, all', -⟩
  rw [readAll_append all, readAll, read_eq_error_iff.mpr ⟨stuck, rfl⟩] at all'
  cases all'

/-- When a run fails the checkpoint is where the longest accepted start of all tokens ends. -/
theorem checkpoint_of_run {ts : List Token} {stop : Token} {halt : Halt}
    (fails : start.run stop ts = .error halt) :
    LongestAccepted ts stop halt.cursor.checkpoint := by
  obtain ⟨c, before, t, after, split, first, rfl, cause⟩ := exists_halt_of_run fails
  have longest := checkpoint_of_readAll first t
  rcases List.eq_nil_or_concat after with rfl | ⟨others, last, rfl⟩
  · -- The run halts at the end of the text, after all tokens.
    obtain ⟨rfl, same⟩ := List.append_inj' split rfl
    cases List.cons.inj same |>.1
    exact longest
  · have stuck : c.state.next ((c.mark t).touches t) t = none := by
      rcases cause with stuck | ⟨none, -⟩
      · exact stuck
      · simp at none
    rw [List.concat_eq_append, ← List.cons_append, ← List.append_assoc] at split
    obtain ⟨rfl, same⟩ := List.append_inj' split rfl
    exact longest.append (fun us => not_accepts_of_stuck first stuck) others stop

end Cursor

variable {text : String} {before after : List Token} {t : Token}

/-! ## Where a text fails -/

/-- A text fails after tokens that are read: at a token with which the grammar does not go on, or at
the end of a stream that may not end there. -/
theorem exists_halt_of_parse {e : ParseFailure} (fails : Topology.parse text = .error e) :
    ∃ c before t after, tokenize text = before ++ t :: after ∧
      Cursor.start.readAll before = .ok c ∧ e = .ofHalt text ⟨c.mark t, t⟩ ∧
      (before = tokensOf text ∧ t = endOf text ∧ c.state.isComplete = false ∨
        t ∈ tokensOf text ∧ c.state.next ((c.mark t).touches t) t = none) := by
  obtain ⟨halt, run, rfl⟩ := topologyParse_eq_error_iff_run.mp fails
  obtain ⟨c, before, t, after, split, first, rfl, cause⟩ := Cursor.exists_halt_of_run run
  refine ⟨c, before, t, after, split, first, rfl, ?_⟩
  cases after with
  | nil =>
      obtain ⟨rfl, same⟩ := List.append_inj' split rfl
      cases List.cons.inj same |>.1
      refine Or.inl ⟨rfl, rfl, Bool.eq_false_iff.mpr fun complete => ?_⟩
      obtain ⟨s, parsed⟩ := Cursor.exists_parse_iff_accepts.mpr ⟨c, first, complete⟩
      rw [fails] at parsed
      cases parsed
  | cons u us =>
      refine Or.inr ⟨by simp [tokensOf_eq_append split], ?_⟩
      rcases cause with stuck | ⟨none, -⟩
      · exact stuck
      · cases none

/-! ## Cutting a text -/

/-- The text before a token parses exactly when the tokens before it are accepted and do not end in
a name that keeps its colon. -/
theorem exists_parse_upTo_iff (small : text.utf8ByteSize ≤ Span.limit)
    (tokens : tokensOf text = before ++ t :: after) :
    (∃ s, Topology.parse (Text.upTo text t.start) = .ok s) ↔
      Cursor.Accepts before ∧ ∀ u ∈ before.getLast?, u.isHalfLabel = false := by
  obtain ⟨pre, post, split, start, left⟩ := exists_cut_of_tokensOf small tokens
  rw [start, Text.upTo_byteLength split, Cursor.exists_parse_iff_accepts, left,
    Cursor.accepts_endAlone]

/-! ## The checkpoint in the text -/

/-- The checkpoint of a failure: zero when no start of the tokens is accepted, and else the start of
the token after the longest accepted one. -/
theorem exists_longest_of_parse {e : ParseFailure} (fails : Topology.parse text = .error e) :
    e.checkpoint = 0 ∧ (∀ vs, vs <+: tokensOf text → ¬ Cursor.Accepts vs) ∨
      ∃ vs u us, tokensOf text = vs ++ u :: us ∧ e.checkpoint = u.start ∧ Cursor.Accepts vs ∧
        ∀ vs', vs' <+: tokensOf text → vs.length < vs'.length → ¬ Cursor.Accepts vs' := by
  have rejected : ¬ Cursor.Accepts (tokensOf text) := by
    rw [← Cursor.exists_parse_iff_accepts, fails]
    simp
  obtain ⟨halt, run, rfl⟩ := topologyParse_eq_error_iff_run.mp fails
  have longest := Cursor.checkpoint_of_run run
  generalize checkpointEq : halt.cursor.checkpoint = n at longest
  cases longest with
  | none all => exact Or.inl ⟨checkpointEq, all⟩
  | @some vs us u split accepts all =>
      refine Or.inr ⟨vs, u, us.dropLast, ?_, checkpointEq, accepts, all⟩
      rcases List.eq_nil_or_concat us with rfl | ⟨others, last, rfl⟩
      · obtain ⟨whole, -⟩ := List.append_inj' split rfl
        rw [whole] at rejected
        exact absurd accepts rejected
      · rw [List.concat_eq_append, ← List.cons_append, ← List.append_assoc] at split
        obtain ⟨whole, -⟩ := List.append_inj' split rfl
        simpa using whole

theorem partialText_of_parse {e : ParseFailure} (fails : Topology.parse text = .error e) :
    e.partialText = Text.upTo text e.checkpoint := by
  obtain ⟨halt, -, rfl⟩ := topologyParse_eq_error_iff_run.mp fails
  rfl

theorem checkpoint_eq_zero_or_start {e : ParseFailure} (fails : Topology.parse text = .error e) :
    e.checkpoint = 0 ∨ ∃ t ∈ tokenize text, t.start = e.checkpoint := by
  rcases exists_longest_of_parse fails with ⟨zero, -⟩ | ⟨vs, u, us, tokens, start, -⟩
  · exact Or.inl zero
  · exact Or.inr ⟨u, by simp [tokenize, tokens], start.symm⟩

/-- The checkpoint lies between two characters of the text. -/
theorem exists_cut_of_parse {e : ParseFailure} (small : text.utf8ByteSize ≤ Span.limit)
    (fails : Topology.parse text = .error e) :
    ∃ pre post, text.toList = pre ++ post ∧ e.checkpoint = byteLength pre := by
  rcases exists_longest_of_parse fails with ⟨zero, -⟩ | ⟨vs, u, us, tokens, start, -⟩
  · exact ⟨[], text.toList, rfl, zero⟩
  · obtain ⟨pre, post, split, place, -⟩ := exists_cut_of_tokensOf small tokens
    exact ⟨pre, post, split, start.trans place⟩

/-- The text up to the checkpoint parses whenever the checkpoint is not zero, unless a name that
keeps its colon ends there. -/
theorem exists_parse_partialText_iff {e : ParseFailure} (small : text.utf8ByteSize ≤ Span.limit)
    (fails : Topology.parse text = .error e) :
    (∃ s, Topology.parse e.partialText = .ok s) ↔
      e.checkpoint ≠ 0 ∧ ¬ Text.HalfLabelAt text e.checkpoint := by
  rw [partialText_of_parse fails]
  rcases exists_longest_of_parse fails with ⟨zero, -⟩ | ⟨vs, u, us, tokens, start, accepts, -⟩
  · have empty : Text.upTo text (byteLength []) = String.ofList [] := Text.upTo_byteLength rfl
    rw [byteLength_nil] at empty
    simp only [zero, empty, ne_eq, not_true_eq_false, false_and, iff_false]
    rw [Cursor.exists_parse_iff_accepts]
    exact Cursor.not_accepts_nil
  · have nonzero : u.start ≠ 0 := by
      rcases vs with _ | ⟨v, vs⟩
      · exact absurd accepts Cursor.not_accepts_nil
      · have first : tokensOf text = [] ++ v :: (vs ++ u :: us) := tokens
        have before := start_lt_of_length_lt (by simpa using small) first tokens (Nat.succ_pos _)
        omega
    rw [start, exists_parse_upTo_iff small tokens, (Edge.start tokens).halfLabelAt_iff small]
    simp [accepts, nonzero]

/-- The text up to a token after the checkpoint does not parse. -/
theorem not_parse_upTo_of_checkpoint_lt {e : ParseFailure}
    (small : text.utf8ByteSize ≤ Span.limit) (fails : Topology.parse text = .error e)
    (member : t ∈ tokenize text) (later : e.checkpoint < t.start) :
    ¬ ∃ s, Topology.parse (Text.upTo text t.start) = .ok s := by
  rcases List.mem_append.mp member with inside | last
  · obtain ⟨before, after, tokens⟩ := List.append_of_mem inside
    rw [exists_parse_upTo_iff small tokens]
    rintro ⟨accepts, -⟩
    have start : before <+: tokensOf text := ⟨t :: after, tokens.symm⟩
    rcases exists_longest_of_parse fails with ⟨-, all⟩ | ⟨vs, u, us, tokens', place, -, all⟩
    · exact all before start accepts
    · rcases Nat.lt_trichotomy before.length vs.length with less | same | more
      · have := start_lt_of_length_lt (by simpa using small) tokens tokens' less
        omega
      · obtain ⟨-, rest⟩ := List.append_inj (tokens.symm.trans tokens') same
        rw [(List.cons.inj rest).1] at later
        omega
      · exact all before start more accepts
  · cases List.mem_singleton.mp last
    have stop : (endOf text).start = byteLength text.toList := by
      simp only [endOf, Token.endOfText, Token.start, Span.ofOffsets, byteLength_toList]
      omega
    rw [stop, Text.upTo_byteLength (List.append_nil _).symm, String.ofList_toList, fails]
    simp

/-- How far a text that does not parse is a stream. The checkpoint is zero or the start of a token,
it lies between two characters, and the failure carries the text before it. That text parses unless
the checkpoint is zero or a name that keeps its colon ends there, and no text up to a later token
parses. When the checkpoint is zero no text up to a token parses; apart from such names it is zero
only then. -/
theorem checkpoint_of_parse {text name : String} {e : ParseFailure}
    (small : text.utf8ByteSize ≤ Span.limit) (fails : Stream.parse name text = .error e) :
    (e.checkpoint = 0 ∨ ∃ t ∈ tokenize text, t.start = e.checkpoint) ∧
    (e.checkpoint ∈ Text.boundaries text ∧ e.partialText.utf8ByteSize = e.checkpoint ∧
      ∃ rest, text = e.partialText ++ rest) ∧
    ((∃ s, Stream.parse name e.partialText = .ok s) ↔
      e.checkpoint ≠ 0 ∧ ¬ Text.HalfLabelAt text e.checkpoint) ∧
    (∀ t ∈ tokenize text, e.checkpoint < t.start →
      ¬ ∃ s, Stream.parse name (Text.upTo text t.start) = .ok s) ∧
    (e.checkpoint = 0 →
      ∀ t ∈ tokenize text, ¬ ∃ s, Stream.parse name (Text.upTo text t.start) = .ok s) ∧
    (¬ Text.HalfLabelAt text e.checkpoint →
      (∀ t ∈ tokenize text, ¬ ∃ s, Stream.parse name (Text.upTo text t.start) = .ok s) →
        e.checkpoint = 0) := by
  rw [streamParse_eq_error_iff] at fails
  simp only [exists_streamParse_iff]
  have token := checkpoint_eq_zero_or_start fails
  have prefixParses := exists_parse_partialText_iff small fails
  have maximal := fun t member later =>
    not_parse_upTo_of_checkpoint_lt (t := t) small fails member later
  refine ⟨token, ?_, prefixParses, maximal, fun zero t member => ?_, fun whole none => ?_⟩
  · obtain ⟨pre, post, split, place⟩ := exists_cut_of_parse small fails
    have carried : e.partialText = String.ofList pre := by
      rw [partialText_of_parse fails, place, Text.upTo_byteLength split]
    refine ⟨place ▸ Text.mem_boundaries split, ?_, String.ofList post, ?_⟩
    · rw [carried, place, ← byteLength_toList, String.toList_ofList]
    · rw [carried, ← String.ofList_append, ← split, String.ofList_toList]
  · by_cases later : e.checkpoint < t.start
    · exact maximal t member later
    · have same : t.start = e.checkpoint := by omega
      rw [same, ← partialText_of_parse fails, prefixParses]
      exact fun parses => parses.1 zero
  · by_contra nonzero
    rcases token with zero | ⟨t, member, start⟩
    · exact nonzero zero
    · refine none t member ?_
      rw [start, ← partialText_of_parse fails]
      exact prefixParses.mpr ⟨nonzero, whole⟩

/-- A parameter without its value leaves the stage before it. -/
theorem checkpoint_of_parse_unfinished :
    ∃ e, Stream.parse "" "a --k" = .error e ∧ e.checkpoint = 2 ∧
      ∃ s, Stream.parse "" e.partialText = .ok s := by
  obtain ⟨e, fails, checkpoint⟩ :
      ∃ e, Stream.parse "" "a --k" = .error e ∧ e.checkpoint = 2 := ⟨_, rfl, rfl⟩
  obtain ⟨-, -, parses, -⟩ := checkpoint_of_parse (by decide) fails
  rw [checkpoint] at parses
  exact ⟨e, fails, checkpoint, parses.mpr (by decide)⟩

/-- After a name that keeps its colon the text up to the checkpoint does not parse. -/
theorem checkpoint_after_halfLabel :
    ∃ e, Stream.parse "" "a:\u00a0" = .error e ∧ e.checkpoint ≠ 0 ∧
      ¬ ∃ s, Stream.parse "" e.partialText = .ok s := by
  refine ⟨_, rfl, by decide, ?_⟩
  rintro ⟨s, parsed⟩
  cases parsed

end StreamLang
