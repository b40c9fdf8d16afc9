import Mathlib.Algebra.Group.Nat.Defs
import StreamLang.Proofs.Stream.Checkpoint
import StreamLang.Proofs.Stream.Grammar
import StreamLang.Proofs.Token.Extend

/-!
Which kinds of token can come next.

A kind is viable at a position in the grammar when a stream can go on with it there. Reading goes on
with viable kinds only (`PartialStream.viable_of_step`), and from every position a text that starts
with a token of a viable kind finishes the stream (`Cursor.exists_finish`). So the kinds that a
failure announces are exactly those that could have stood in place of the token it refused
(`expected_of_parse`), with two exceptions: a text may also start with a destination, and after a
name that keeps its colon nothing can follow.
-/

namespace StreamLang

/-! ## Viable kinds -/

namespace PartialStream

/-- Whether a stream can go on from the position with a token of the kind. -/
def Viable (p : PartialStream) (k : TokenKind) : Prop :=
  k ∈ p.expected ∨ p = .start ∧ k = .destination

theorem viable_of_step {p q : PartialStream} {touching : Bool} {t : Token}
    (step : Step t touching p q) : p.Viable t.kind := by
  unfold Viable
  cases step with
  | source kind => exact Or.inr ⟨rfl, kind⟩
  | value kind => rcases kind with kind | kind <;> simp [kind, expected]
  | firstLabel kind | firstName kind | arrowOfSource kind | label kind | name kind
  | labelledName kind | pipe kind | dashes kind | arrow kind | key kind | equals kind
  | destination kind => simp [kind, expected]

theorem viable_eof {p : PartialStream} (complete : p.isComplete = true) : p.Viable .eof := by
  cases p with
  | stage | closed => simp [Viable, expected]
  | _ => cases complete

/-- Whether the position is right after the dashes or the equals sign of a parameter. -/
def afterJoint : PartialStream → Bool
  | .dashes _ _ | .equals _ _ _ => true
  | _ => false

end PartialStream

/-! ## Finishing a stream -/

namespace Cursor

variable {c d : Cursor} {n m : Nat} {k k' : TokenKind} {cs ds : List Char} {ts : List Token}

/-- Whether the text, whose first byte has the offset `n`, goes on from the cursor to the end of a
stream, with a token of the kind first. -/
def Finishes (c : Cursor) (n : Nat) (k : TokenKind) (cs : List Char) : Prop :=
  ∀ stop : Token, stop.kind = .eof →
    ∃ u us t, tokensFrom n 0 cs ++ [stop] = u :: us ∧ u.kind = k ∧
      c.run stop (tokensFrom n 0 cs) = .ok t

theorem finishes_nil (complete : c.state.isComplete = true) : c.Finishes n .eof [] := by
  intro stop isStop
  rw [← PartialStream.isSome_topology?, Option.isSome_iff_exists] at complete
  obtain ⟨t, topology⟩ := complete
  exact ⟨stop, [], t, rfl, isStop, close_eq_ok_iff.mpr topology⟩

theorem Finishes.cons {u : Token} (tokens : tokensFrom n 0 cs = u :: tokensFrom m 0 ds)
    (read : c.read u = .ok d) (rest : d.Finishes m k' ds) : c.Finishes n u.kind cs := by
  intro stop isStop
  obtain ⟨-, -, t, -, -, run⟩ := rest stop isStop
  refine ⟨u, tokensFrom m 0 ds ++ [stop], t, by rw [tokens]; rfl, rfl, ?_⟩
  rw [tokens]
  simp only [Cursor.run, read, run]

/-- Within a parameter a token is read when it touches the one before it. -/
theorem read_touching {p : PartialStream} {t u : Token} (latest : c.pending.getLast? = some t)
    (within : c.state.isComplete = false) (touch : t.stop = u.start)
    (next : c.state.next true u = some p) :
    c.read u = .ok ⟨p, c.checkpoint, c.pending ++ [u]⟩ := by
  rw [read_eq_ok_iff, mark_of_not_isComplete u within]
  exact ⟨p, by simpa [touches, latest, touch] using next, rfl⟩

section Parameter

variable {done : Draft} {current : Stage} {key : String} {t : Token}

theorem finishes_equals (state : c.state = .equals done current key)
    (latest : c.pending.getLast? = some t) (touch : t.stop = n) (small : n ≤ Span.limit) :
    c.Finishes n .identifier ['a'] ∧ c.Finishes n .literal ['1'] := by
  have within : c.state.isComplete = false := by rw [state]; rfl
  have starts : t.stop = (Span.ofOffsets n (n + 1)).start := by
    simp only [Span.ofOffsets]
    omega
  refine ⟨?_, ?_⟩
  · have tokens : tokensFrom n 0 ['a'] = ⟨.identifier, "a", .ofOffsets n (n + 1)⟩ ::
        tokensFrom (n + 1) 0 [] := rfl
    exact .cons tokens (read_touching latest within starts (by rw [state]; rfl)) (finishes_nil rfl)
  · have tokens : tokensFrom n 0 ['1'] = ⟨.literal, "1", .ofOffsets n (n + 1)⟩ ::
        tokensFrom (n + 1) 0 [] := rfl
    exact .cons tokens (read_touching latest within starts (by rw [state]; rfl)) (finishes_nil rfl)

theorem finishes_key (state : c.state = .key done current key)
    (latest : c.pending.getLast? = some t) (touch : t.stop = n) (small : n + 1 ≤ Span.limit) :
    c.Finishes n .equals ['=', 'a'] := by
  have span : Span.ofOffsets n (n + 1) = ⟨n, n + 1⟩ := Span.ofOffsets_of_le (by omega) (by omega)
  have tokens : tokensFrom n 0 ['=', 'a'] = ⟨.equals, "=", ⟨n, n + 1⟩⟩ ::
      tokensFrom (n + 1) 0 ['a'] := by
    rw [← span]
    rfl
  have read : c.read ⟨.equals, "=", ⟨n, n + 1⟩⟩ = .ok ⟨.equals done current key, c.checkpoint,
      c.pending ++ [⟨.equals, "=", ⟨n, n + 1⟩⟩]⟩ :=
    read_touching latest (by rw [state]; rfl) touch (by rw [state]; rfl)
  have value := finishes_equals (n := n + 1) (t := ⟨.equals, "=", ⟨n, n + 1⟩⟩)
    (c := ⟨.equals done current key, c.checkpoint, c.pending ++ [⟨.equals, "=", ⟨n, n + 1⟩⟩]⟩) rfl
    List.getLast?_concat rfl small
  exact .cons tokens read value.1

theorem finishes_dashes (state : c.state = .dashes done current)
    (latest : c.pending.getLast? = some t) (touch : t.stop = n) (small : n + 2 ≤ Span.limit) :
    c.Finishes n .identifier ['a', '=', 'a'] := by
  have span : Span.ofOffsets n (n + 1) = ⟨n, n + 1⟩ := Span.ofOffsets_of_le (by omega) (by omega)
  have tokens : tokensFrom n 0 ['a', '=', 'a'] = ⟨.identifier, "a", ⟨n, n + 1⟩⟩ ::
      tokensFrom (n + 1) 0 ['=', 'a'] := by
    rw [← span]
    rfl
  have read : c.read ⟨.identifier, "a", ⟨n, n + 1⟩⟩ = .ok ⟨.key done current "a", c.checkpoint,
      c.pending ++ [⟨.identifier, "a", ⟨n, n + 1⟩⟩]⟩ :=
    read_touching latest (by rw [state]; rfl) touch (by rw [state]; rfl)
  exact .cons tokens read (finishes_key rfl List.getLast?_concat rfl small)

theorem finishes_parameter (state : c.state = .stage done current) (small : n + 5 ≤ Span.limit) :
    c.Finishes n .doubleDash [' ', '-', '-', 'a', '=', 'a'] := by
  have span : Span.ofOffsets (n + 1) (n + 3) = ⟨n + 1, n + 3⟩ :=
    Span.ofOffsets_of_le (by omega) (by omega)
  have tokens : tokensFrom n 0 [' ', '-', '-', 'a', '=', 'a'] =
      ⟨.doubleDash, "--", ⟨n + 1, n + 3⟩⟩ :: tokensFrom (n + 3) 0 ['a', '=', 'a'] := by
    rw [← span]
    rfl
  have read : c.read ⟨.doubleDash, "--", ⟨n + 1, n + 3⟩⟩ = .ok ⟨.dashes done current, n + 1,
      [⟨.doubleDash, "--", ⟨n + 1, n + 3⟩⟩]⟩ := by
    rw [read_eq_ok_iff, mark_of_isComplete _ (by rw [state]; rfl)]
    exact ⟨_, by rw [state]; rfl, rfl⟩
  exact .cons tokens read (finishes_dashes rfl rfl rfl small)

end Parameter

/-- From every position a text that starts with a token of a viable kind finishes the stream. Only
after the dashes or the equals sign of a parameter that text starts with no break. -/
theorem exists_finish (viable : c.state.Viable k) (small : n + 8 ≤ Span.limit)
    (touches : c.state.expectation.isAdjacent = true →
      ∃ t, c.pending.getLast? = some t ∧ t.stop = n) :
    ∃ cs, (c.state.afterJoint = false → StartsBreak cs) ∧ c.Finishes n k cs := by
  obtain ⟨p, checkpoint, pending⟩ := c
  have space : isBreak ' ' = true := rfl
  cases p with
  | start =>
      have kinds : k = .label ∨ k = .identifier ∨ k = .destination := by
        simpa [PartialStream.Viable, PartialStream.expected, or_assoc] using viable
      rcases kinds with rfl | rfl | rfl
      · exact ⟨" a: a".toList, by simp [space], fun _ _ => ⟨_, _, _, rfl, rfl, rfl⟩⟩
      · exact ⟨" a".toList, by simp [space], fun _ _ => ⟨_, _, _, rfl, rfl, rfl⟩⟩
      · exact ⟨" :a > a".toList, by simp [space], fun _ _ => ⟨_, _, _, rfl, rfl, rfl⟩⟩
  | source =>
      have kind : k = .gt := by
        simpa [PartialStream.Viable, PartialStream.expected] using viable
      subst kind
      exact ⟨" > a".toList, by simp [space], fun _ _ => ⟨_, _, _, rfl, rfl, rfl⟩⟩
  | stageStart =>
      have kinds : k = .label ∨ k = .identifier := by
        simpa [PartialStream.Viable, PartialStream.expected] using viable
      rcases kinds with rfl | rfl
      · exact ⟨" a: a".toList, by simp [space], fun _ _ => ⟨_, _, _, rfl, rfl, rfl⟩⟩
      · exact ⟨" a".toList, by simp [space], fun _ _ => ⟨_, _, _, rfl, rfl, rfl⟩⟩
  | labelled =>
      have kind : k = .identifier := by
        simpa [PartialStream.Viable, PartialStream.expected] using viable
      subst kind
      exact ⟨" a".toList, by simp [space], fun _ _ => ⟨_, _, _, rfl, rfl, rfl⟩⟩
  | stage =>
      have kinds : k = .pipe ∨ k = .doubleDash ∨ k = .gt ∨ k = .eof := by
        simpa [PartialStream.Viable, PartialStream.expected] using viable
      rcases kinds with rfl | rfl | rfl | rfl
      · exact ⟨" | a".toList, by simp [space], fun _ _ => ⟨_, _, _, rfl, rfl, rfl⟩⟩
      · exact ⟨_, fun _ => startsBreak_cons.mpr space, finishes_parameter rfl (by omega)⟩
      · exact ⟨" > :a".toList, by simp [space], fun _ _ => ⟨_, _, _, rfl, rfl, rfl⟩⟩
      · exact ⟨[], by simp, finishes_nil rfl⟩
  | dashes =>
      have kind : k = .identifier := by
        simpa [PartialStream.Viable, PartialStream.expected] using viable
      subst kind
      obtain ⟨t, latest, touch⟩ := touches rfl
      exact ⟨_, nofun, finishes_dashes rfl latest touch (by omega)⟩
  | key =>
      have kind : k = .equals := by
        simpa [PartialStream.Viable, PartialStream.expected] using viable
      subst kind
      obtain ⟨t, latest, touch⟩ := touches rfl
      exact ⟨_, fun _ => startsBreak_cons.mpr rfl, finishes_key rfl latest touch (by omega)⟩
  | equals =>
      have kinds : k = .identifier ∨ k = .literal := by
        simpa [PartialStream.Viable, PartialStream.expected] using viable
      obtain ⟨t, latest, touch⟩ := touches rfl
      obtain ⟨bare, literal⟩ := finishes_equals rfl latest touch (by omega)
      rcases kinds with rfl | rfl
      · exact ⟨_, nofun, bare⟩
      · exact ⟨_, nofun, literal⟩
  | arrow =>
      have kind : k = .destination := by
        simpa [PartialStream.Viable, PartialStream.expected] using viable
      subst kind
      exact ⟨" :a".toList, by simp [space], fun _ _ => ⟨_, _, _, rfl, rfl, rfl⟩⟩
  | closed =>
      have kind : k = .eof := by
        simpa [PartialStream.Viable, PartialStream.expected] using viable
      subst kind
      exact ⟨[], by simp, finishes_nil rfl⟩

/-- A position after the dashes or the equals sign of a parameter is reached by that token. -/
theorem isJoint_of_readAll (all : start.readAll ts = .ok c) (joint : c.state.afterJoint = true) :
    ∀ t ∈ ts.getLast?, t.kind.IsJoint := by
  have spelled := spelled_of_readAll all
  generalize c.state = p at spelled joint
  cases spelled with
  | dashes _ _ isDashes =>
      intro t latest
      rw [List.getLast?_concat] at latest
      cases latest
      exact Or.inl isDashes
  | @equals _ _ dashes key equals _ _ _ _ _ _ isEquals =>
      intro t latest
      rw [List.getLast?_append_of_ne_nil _ (by simp)] at latest
      cases latest
      exact Or.inr isEquals
  | _ => cases joint

theorem eq_nil_of_readAll (all : start.readAll ts = .ok c) : c.state = .start ↔ ts = [] := by
  have spelled := spelled_of_readAll all
  constructor
  · intro state
    rw [state] at spelled
    cases spelled
    rfl
  · rintro rfl
    cases all
    rfl

end Cursor

/-! ## What can stand in place of a token -/

/-- The text up to the end of its first `p` tokens. -/
def Text.throughTokens (text : String) (p : Nat) : String :=
  upTo text ((((tokenize text).take p).getLast?.map Token.stop).getD 0)

/-- Whether the text up to the end of its first `p` tokens can go on to a stream in which the same
tokens are followed by one of the kind. -/
def CanFollow (name text : String) (p : Nat) (k : TokenKind) : Prop :=
  ∃ more, (tokenize (Text.throughTokens text p ++ more)).take p = (tokenize text).take p ∧
    (tokenize (Text.throughTokens text p ++ more))[p]?.map Token.kind = some k ∧
    ∃ s, Stream.parse name (Text.throughTokens text p ++ more) = .ok s

section Replacing

variable {name text : String} {before after : List Token} {t : Token}

theorem nodup_tokenize (small : text.utf8ByteSize ≤ Span.limit) : (tokenize text).Nodup := by
  have visible : ∀ a ∈ tokensOf text, a.start < a.stop := fun a member =>
    (span_of_mem_tokensOf small member).1
  rw [tokenize, List.nodup_append]
  refine ⟨?_, List.pairwise_singleton _ _, ?_⟩
  · refine (pairwise_tokensOf small).imp_of_mem fun {a b} member _ apart same => ?_
    have covers := visible a member
    rw [same] at covers apart
    omega
  · intro a member b stop same
    cases List.mem_singleton.mp stop
    have covers := visible a member
    rw [same, endOf_eq small] at covers
    exact Nat.lt_irrefl _ covers

/-- Unless the last of them is a name that keeps its colon, the text up to the end of some tokens
has these tokens. -/
theorem tokensOf_throughTokens (small : text.utf8ByteSize ≤ Span.limit)
    (tokens : tokenize text = before ++ t :: after)
    (whole : ∀ u ∈ before.getLast?, u.isHalfLabel = false) :
    ∃ pre post, text.toList = pre ++ post ∧
      Text.throughTokens text before.length = String.ofList pre ∧
      tokensOf (String.ofList pre) = before ∧ ∀ u ∈ before.getLast?, u.stop = byteLength pre := by
  have taken : (tokenize text).take before.length = before := by rw [tokens, List.take_left]
  unfold Text.throughTokens
  rw [taken]
  rcases List.eq_nil_or_concat before with rfl | ⟨front, u, rfl⟩
  · have empty : Text.upTo text (byteLength []) = String.ofList [] := Text.upTo_byteLength rfl
    exact ⟨[], text.toList, rfl, empty, rfl, by simp⟩
  · rw [List.concat_eq_append] at tokens whole ⊢
    have split : tokensOf text = front ++ u :: (t :: after).dropLast := by
      rw [tokensOf_eq_append tokens, List.append_assoc, List.singleton_append]
    obtain ⟨pre, post, parts, stop, left, -⟩ := exists_cut_after_token small split
    rw [Token.endAlone_eq_self whole] at left
    refine ⟨pre, post, parts, ?_, left, ?_⟩
    · rw [List.getLast?_concat, Option.map_some, Option.getD_some, stop,
        Text.upTo_byteLength parts]
    · intro v latest
      rw [List.getLast?_concat] at latest
      cases latest
      exact stop

/-- A text that parses has no name that keeps its colon. -/
theorem not_isHalfLabel_of_parse {s : Topology} (parsed : Topology.parse text = .ok s)
    (member : t ∈ tokenize text) : t.isHalfLabel = false := by
  cases half : t.isHalfLabel with
  | false => rfl
  | true =>
      have spells := topologyParse_eq_ok_iff.mp parsed
      rw [tokenize] at spells
      rcases List.mem_append.mp member with inside | last
      · obtain ⟨before, after, tokens⟩ := List.append_of_mem inside
        obtain ⟨e, others, rfl, error, -⟩ := exists_error_of_tokensFrom tokens half
        exact absurd error (spells.not_error e (tokens ▸ by simp) _)
      · cases List.mem_singleton.mp last
        cases half

variable {c : Cursor} {k : TokenKind}

/-- What follows tokens in a stream is viable where they lead. -/
theorem viable_of_canFollow (tokens : tokenize text = before ++ t :: after)
    (first : Cursor.start.readAll before = .ok c) (follows : CanFollow name text before.length k) :
    (∀ u ∈ before.getLast?, u.isHalfLabel = false) ∧ c.state.Viable k := by
  obtain ⟨more, same, kind, s, parsed⟩ := follows
  generalize Text.throughTokens text before.length ++ more = whole at same kind parsed
  rw [tokens, List.take_left] at same
  obtain ⟨u, at_, rfl⟩ := Option.map_eq_some_iff.mp kind
  obtain ⟨us, split⟩ : ∃ us, tokenize whole = before ++ u :: us := by
    obtain ⟨inside, rfl⟩ := List.getElem?_eq_some_iff.mp at_
    refine ⟨(tokenize whole).drop (before.length + 1), ?_⟩
    conv_lhs => rw [← List.take_append_drop before.length (tokenize whole), same,
      List.drop_eq_getElem_cons inside]
  obtain ⟨parsed, -, -⟩ := streamParse_eq_ok_iff.mp parsed
  refine ⟨fun v latest => not_isHalfLabel_of_parse parsed ?_, ?_⟩
  · rw [split]
    exact List.mem_append_left _ (List.mem_of_getLast? latest)
  · obtain ⟨d, all, topology⟩ := topologyParse_eq_ok_iff_readAll.mp parsed
    have complete : d.state.isComplete = true := by
      rw [← PartialStream.isSome_topology?, topology]
      rfl
    rw [tokensOf_eq_append split, Cursor.readAll_append first] at all
    cases us with
    | nil =>
        cases all
        have stop : u = endOf whole := by
          have last := congrArg List.getLast? split
          simpa [tokenize] using last.symm
        rw [stop]
        exact PartialStream.viable_eof complete
    | cons v us =>
        change c.readAll ([u] ++ (v :: us).dropLast) = .ok d at all
        obtain ⟨d', read, -⟩ := Cursor.readAll_of_append all
        rw [Cursor.readAll_singleton] at read
        obtain ⟨p, next, -⟩ := Cursor.read_eq_ok_iff.mp read
        exact PartialStream.viable_of_step (PartialStream.step_of_next next)

/-- What is viable where tokens lead can follow them, unless the last of them is a name that keeps
its colon. -/
theorem canFollow_of_viable (small : text.utf8ByteSize + 8 ≤ Span.limit)
    (tokens : tokenize text = before ++ t :: after)
    (first : Cursor.start.readAll before = .ok c)
    (whole : ∀ u ∈ before.getLast?, u.isHalfLabel = false) (viable : c.state.Viable k) :
    CanFollow name text before.length k := by
  obtain ⟨pre, post, parts, through, left, stops⟩ :=
    tokensOf_throughTokens (by omega) tokens whole
  have shorter : byteLength pre ≤ text.utf8ByteSize := by
    rw [← byteLength_toList, parts, byteLength_append]
    omega
  have touches : c.state.expectation.isAdjacent = true →
      ∃ u, c.pending.getLast? = some u ∧ u.stop = byteLength pre := by
    intro adjacent
    have some_ : before ≠ [] := by
      intro none
      rw [(Cursor.eq_nil_of_readAll first).mpr none] at adjacent
      cases adjacent
    have latest := List.getLast?_eq_some_getLast some_
    exact ⟨_, (Cursor.getLast?_pending first).trans latest, stops _ latest⟩
  obtain ⟨cs, breaks, finishes⟩ := Cursor.exists_finish viable (by omega) touches
  have joined : tokensOf (String.ofList pre ++ String.ofList cs) =
      before ++ tokensFrom (byteLength pre) 0 cs := by
    rw [tokensOf, String.toList_ofList] at left
    rw [tokensOf, String.toList_append, String.toList_ofList, String.toList_ofList]
    cases joint : c.state.afterJoint with
    | true =>
        rw [tokensFrom_append_joint (left ▸ Cursor.isJoint_of_readAll first joint), left,
          Nat.zero_add]
    | false =>
        have closed : Closed (tokensFrom 0 0 pre) :=
          left ▸ .of_sound (Cursor.not_error_of_readAll first)
        rw [tokensFrom_append closed (breaks joint), left, Nat.zero_add]
  obtain ⟨u, us, s, split, kind, run⟩ :=
    finishes (endOf (String.ofList pre ++ String.ofList cs)) rfl
  have split' : tokenize (String.ofList pre ++ String.ofList cs) = before ++ u :: us := by
    rw [tokenize, joined, List.append_assoc, split]
  refine ⟨String.ofList cs, ?_, ?_, ?_⟩
  · rw [through, split', tokens, List.take_left, List.take_left]
  · rw [through, split']
    simp [kind]
  · rw [through, exists_streamParse_iff]
    refine ⟨s, topologyParse_eq_ok_iff_run.mpr ?_⟩
    rw [joined, Cursor.run_append _ first, run]

end Replacing

/-- The kinds that a failure announces are exactly those that could stand in place of the token it
refused, after the tokens before it. Two cases are apart: a text can also start with a destination,
which is not announced, and nothing can follow a name that keeps its colon. -/
theorem expected_of_parse {name text : String} {e : ParseFailure}
    (small : text.utf8ByteSize ≤ 2 ^ 31) (fails : Stream.parse name text = .error e) :
    ∃ p, (tokenize text)[p]? = some e.offending ∧
      (∀ q, (tokenize text)[q]? = some e.offending → q = p) ∧
      ∀ k, CanFollow name text p k ↔
        (∀ t ∈ ((tokenize text).take p).getLast?, t.isHalfLabel = false) ∧
          (k ∈ e.expected ∨ p = 0 ∧ k = .destination) := by
  have limit : Span.limit = 2 ^ 32 - 1 := rfl
  rw [streamParse_eq_error_iff] at fails
  obtain ⟨halt, run, rfl⟩ := topologyParse_eq_error_iff_run.mp fails
  obtain ⟨c, before, t, after, tokens, first, rfl, -⟩ := Cursor.exists_halt_of_run run
  change tokenize text = before ++ t :: after at tokens
  have place : (tokenize text)[before.length]? = some t := by
    rw [tokens]
    simp
  have viable_iff : ∀ k, c.state.Viable k ↔
      k ∈ (c.mark t).state.expected ∨ before.length = 0 ∧ k = .destination := by
    intro k
    rw [Cursor.state_mark, PartialStream.Viable, Cursor.eq_nil_of_readAll first,
      List.length_eq_zero_iff]
  refine ⟨before.length, place, fun q at_ => ?_, fun k => ?_⟩
  · have nodup : (tokenize text).Nodup := nodup_tokenize (by omega)
    have inside : q < (tokenize text).length := (List.getElem?_eq_some_iff.mp at_).1
    exact (List.getElem?_inj inside nodup).mp (at_.trans place.symm)
  · rw [show (tokenize text).take before.length = before by rw [tokens, List.take_left]]
    constructor
    · intro follows
      obtain ⟨whole, viable⟩ := viable_of_canFollow tokens first follows
      exact ⟨whole, (viable_iff k).mp viable⟩
    · rintro ⟨whole, expected⟩
      exact canFollow_of_viable (by omega) tokens first whole ((viable_iff k).mpr expected)

/-- After the equals sign of a parameter a literal can stand, and a pipe cannot. -/
theorem expected_of_parse_value :
    ∃ e, Stream.parse "" "a --k=" = .error e ∧ CanFollow "" "a --k=" 4 .literal ∧
      ¬ CanFollow "" "a --k=" 4 .pipe := by
  obtain ⟨e, fails, offending, expected⟩ : ∃ e, Stream.parse "" "a --k=" = .error e ∧
      e.offending = ⟨.eof, "", 6, 6⟩ ∧ e.expected = [.identifier, .literal] := ⟨_, rfl, rfl, rfl⟩
  obtain ⟨p, -, unique, exact_⟩ := expected_of_parse (by decide) fails
  have place : 4 = p := unique 4 (by rw [offending]; decide)
  subst place
  refine ⟨e, fails, (exact_ .literal).mpr ⟨by decide, by simp [expected]⟩, fun follows => ?_⟩
  simpa [expected] using ((exact_ .pipe).mp follows).2

/-- A text can start with a destination, and its failure does not say so. -/
theorem destination_can_start_unannounced :
    ∃ e, Stream.parse "" "" = .error e ∧ (tokenize "")[0]? = some e.offending ∧
      .destination ∉ e.expected ∧ CanFollow "" "" 0 .destination := by
  refine ⟨_, rfl, by decide, by decide, ":a > b", by decide, by decide, ?_⟩
  exact ⟨_, rfl⟩

end StreamLang
