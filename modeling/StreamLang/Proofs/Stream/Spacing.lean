import StreamLang.Proofs.Stream.Continuation
import StreamLang.Proofs.Stream.Report

/-!
Separators put into a text that parses.

Between its tokens they change nothing but the places of the tokens after them
(`tokensOf_insertAt`), and reading looks at places within parameters only. So from a position where
the next token need not touch the one before it, the moved tokens are read like the others
(`Cursor.Moved.readAll`). Inside a parameter separators keep a token from touching the one before
it, and reading stops there, with the checkpoint at the dashes of the parameter
(`exists_detached_of_insertAt`).
-/

namespace StreamLang

variable {text blanks : String} {b n : Nat} {before after : List Token} {t : Token}

/-! ## Putting text into a text -/

/-- The text with another one put in at a byte offset. -/
def Text.insertAt (text : String) (offset : Nat) (more : String) : String :=
  upTo text offset ++ more ++ String.ofList (text.toList.drop (upTo text offset).toList.length)

theorem Text.toList_insertAt {pre post : List Char} (split : text.toList = pre ++ post)
    (more : String) :
    (insertAt text (byteLength pre) more).toList = pre ++ (more.toList ++ post) := by
  rw [insertAt, upTo_byteLength split, split]
  simp

theorem Text.utf8ByteSize_insertAt {pre post : List Char} (split : text.toList = pre ++ post)
    (more : String) :
    (insertAt text (byteLength pre) more).utf8ByteSize =
      text.utf8ByteSize + more.utf8ByteSize := by
  rw [← byteLength_toList, toList_insertAt split, ← byteLength_toList text, split]
  simp only [byteLength_append, byteLength_toList]
  omega

/-- The two parts of a text at an edge have the tokens before the edge and those after it. -/
theorem Edge.exists_parts (small : text.utf8ByteSize ≤ Span.limit) (edge : Edge text before b) :
    ∃ pre post, text.toList = pre ++ post ∧ b = byteLength pre ∧
      tokensOf text = before ++ tokensFrom (byteLength pre) 0 post ∧
      tokensOf (String.ofList pre) = Token.endAlone before := by
  cases edge with
  | start tokens =>
      obtain ⟨pre, c, post, split, -, visible, left, right⟩ := exists_boundary_of_tokensFrom tokens
      rw [Nat.zero_add] at right
      rw [← byteLength_toList, split, byteLength_append] at small
      refine ⟨pre, c :: post, split, ?_, by rw [right, tokens], ?_⟩
      · exact start_of_tokensFrom (by omega) visible right
      · rw [tokensOf, String.toList_ofList, left]
  | stop tokens =>
      obtain ⟨pre, post, split, stop, left, right, -⟩ := exists_cut_after_token small tokens
      exact ⟨pre, post, split, stop, by rw [right, tokens, List.append_cons], left⟩
  | finish =>
      have whole : ∀ u ∈ (tokensOf text).getLast?, u.isHalfLabel = false :=
        whole_of_tokensFrom (List.append_nil _).symm (by simp)
      refine ⟨text.toList, [], (List.append_nil _).symm, (byteLength_toList text).symm,
        (List.append_nil _).symm, ?_⟩
      rw [String.ofList_toList, Token.endAlone_eq_self whole]

/-- So do the two parts at the start of the text, at its end, and where a token starts or ends. -/
theorem exists_parts (small : text.utf8ByteSize ≤ Span.limit)
    (place : b = 0 ∨ b = text.utf8ByteSize ∨ ∃ t ∈ tokenize text, b = t.start ∨ b = t.stop) :
    ∃ pre post before, text.toList = pre ++ post ∧ b = byteLength pre ∧
      tokensOf text = before ++ tokensFrom (byteLength pre) 0 post ∧
      tokensOf (String.ofList pre) = Token.endAlone before := by
  rcases place with rfl | rfl | ⟨t, member, place⟩
  · exact ⟨[], text.toList, [], rfl, rfl, rfl, rfl⟩
  · have edge : Edge text (tokensOf text) text.utf8ByteSize := .finish
    obtain ⟨pre, post, parts⟩ := edge.exists_parts small
    exact ⟨pre, post, _, parts⟩
  · obtain ⟨before, edge⟩ := exists_edge small member place
    obtain ⟨pre, post, parts⟩ := edge.exists_parts small
    exact ⟨pre, post, before, parts⟩

/-- Separators between tokens move the tokens after them. -/
theorem tokensOf_insertAt {pre post : List Char} (split : text.toList = pre ++ post)
    (left : tokensOf (String.ofList pre) = before) (closed : Closed before) (some : blanks ≠ "")
    (all : ∀ c ∈ blanks.toList, isSeparator c = true)
    (small : text.utf8ByteSize + blanks.utf8ByteSize ≤ Span.limit) :
    tokensOf (Text.insertAt text (byteLength pre) blanks) =
      before ++ (tokensFrom (byteLength pre) 0 post).map (Token.shift blanks.utf8ByteSize) := by
  have some' : blanks.toList ≠ [] := by simpa using some
  rw [tokensOf, String.toList_ofList] at left
  rw [← byteLength_toList, split, byteLength_append] at small
  have moved : tokensFrom (blanks.utf8ByteSize + byteLength pre) 0 post =
      (tokensFrom (byteLength pre) 0 post).map (Token.shift blanks.utf8ByteSize) :=
    tokensFrom_add (by omega)
  rw [tokensOf, Text.toList_insertAt split, tokensFrom_append_separators (left ▸ closed) some' all,
    left, ← moved, Nat.zero_add, byteLength_append, byteLength_toList, Nat.add_comm]

/-! ## Reading moved tokens -/

/-- Where the next token has to touch the one before it, no other fits. -/
theorem PartialStream.next_false_of_isAdjacent {p : PartialStream}
    (adjacent : p.expectation.isAdjacent = true) (t : Token) : p.next false t = none := by
  cases next : p.next false t with
  | none => rfl
  | some q =>
      cases step_of_next next with
      | key kind touching | equals kind touching | value kind touching => cases touching
      | _ => cases adjacent

namespace Cursor

variable {c d : Cursor} {ts : List Token} {done : Draft} {current : Stage} {key : String}

/-- Two cursors at one position of the grammar. Where the next token has to touch the one before it,
the second cursor has that one moved on. -/
structure Moved (n : Nat) (c d : Cursor) : Prop where
  state : d.state = c.state
  latest : c.state.expectation.isAdjacent = true →
    d.pending.getLast? = c.pending.getLast?.map (Token.shift n)

theorem touches_shift (latest : d.pending.getLast? = c.pending.getLast?.map (Token.shift n)) :
    d.touches (t.shift n) = c.touches t := by
  rw [touches, touches, latest]
  cases c.pending.getLast? with
  | none => rfl
  | some p =>
      simp only [Option.map_some, Option.any_some, Token.shift, Token.start, Token.stop]
      rw [Bool.eq_iff_iff, beq_iff_eq, beq_iff_eq, Nat.add_left_cancel_iff]

/-- A moved token makes the same step. -/
theorem Moved.read {c' : Cursor} (moved : Moved n c d) (read : c.read t = .ok c') :
    ∃ d', d.read (t.shift n) = .ok d' ∧ Moved n c' d' := by
  obtain ⟨state, next, rfl⟩ := read_eq_ok_iff.mp read
  have next' : d.state.next ((d.mark (t.shift n)).touches (t.shift n)) (t.shift n) =
      some state := by
    rw [moved.state, ← next]
    -- Only within a parameter does the step depend on where the tokens stand.
    cases adjacent : c.state.expectation.isAdjacent with
    | true =>
        have incomplete := PartialStream.not_isComplete_of_isAdjacent adjacent
        rw [mark_of_not_isComplete _ incomplete,
          mark_of_not_isComplete _ (by rw [moved.state, incomplete]),
          touches_shift (moved.latest adjacent)]
        rfl
    | false => exact PartialStream.next_of_not_adjacent adjacent _ _ (t.shift n)
  refine ⟨_, read_eq_ok_iff.mpr ⟨state, next', rfl⟩, rfl, fun _ => ?_⟩
  simp

theorem Moved.readAll {c' : Cursor} (moved : Moved n c d) (all : c.readAll ts = .ok c') :
    ∃ d', d.readAll (ts.map (Token.shift n)) = .ok d' ∧ Moved n c' d' := by
  induction ts generalizing c d with
  | nil =>
      cases all
      exact ⟨d, rfl, moved⟩
  | cons t ts ih =>
      simp only [Cursor.readAll] at all
      cases read : c.read t with
      | error halt =>
          rw [read] at all
          cases all
      | ok e =>
          rw [read] at all
          obtain ⟨f, read', moved'⟩ := moved.read read
          obtain ⟨d', all', moved''⟩ := ih moved' all
          exact ⟨d', by simp only [List.map_cons, Cursor.readAll, read', all'], moved''⟩

/-! ## Reading on within a parameter -/

section Onward

variable (all : c.readAll ts = .ok d) (complete : d.state.isComplete = true)
include all complete

/-- Where a stream may not end, reading goes on. -/
theorem exists_step_of_incomplete (incomplete : c.state.isComplete = false) :
    ∃ t us, ∃ e : Cursor, ts = t :: us ∧ PartialStream.Step t (c.touches t) c.state e.state ∧
      e.pending.getLast? = some t ∧ e.readAll us = .ok d := by
  cases ts with
  | nil =>
      cases all
      rw [incomplete] at complete
      cases complete
  | cons t us =>
      simp only [readAll] at all
      cases read : c.read t with
      | error halt =>
          rw [read] at all
          cases all
      | ok e =>
          rw [read] at all
          obtain ⟨state, next, rfl⟩ := read_eq_ok_iff.mp read
          rw [mark_of_not_isComplete t incomplete] at next
          exact ⟨t, us, _, rfl, PartialStream.step_of_next next, by simp, all⟩

theorem exists_value_of_equals {equals : Token} (state : c.state = .equals done current key)
    (latest : c.pending.getLast? = some equals) :
    ∃ value us, ts = value :: us ∧ (value.kind = .identifier ∨ value.kind = .literal) ∧
      equals.stop = value.start := by
  obtain ⟨value, us, e, rfl, step, -, -⟩ :=
    exists_step_of_incomplete all complete (by rw [state]; rfl)
  rw [state] at step
  generalize e.state = q at step
  cases step with
  | value isValue touching =>
      exact ⟨value, us, rfl, isValue, stop_eq_start_of_touches touching latest⟩

theorem exists_equals_of_key {typed : Token} (state : c.state = .key done current key)
    (latest : c.pending.getLast? = some typed) :
    ∃ equals value us, ts = equals :: value :: us ∧ equals.kind = .equals ∧
      (value.kind = .identifier ∨ value.kind = .literal) ∧ typed.stop = equals.start ∧
      equals.stop = value.start := by
  obtain ⟨equals, us, e, rfl, step, latest', rest⟩ :=
    exists_step_of_incomplete all complete (by rw [state]; rfl)
  rw [state] at step
  generalize state' : e.state = q at step
  cases step with
  | equals isEquals touching =>
      obtain ⟨value, us, rfl, isValue, toValue⟩ :=
        exists_value_of_equals rest complete state' latest'
      exact ⟨equals, value, us, rfl, isEquals, isValue, stop_eq_start_of_touches touching latest,
        toValue⟩

theorem exists_key_of_dashes {dashes : Token} (state : c.state = .dashes done current)
    (latest : c.pending.getLast? = some dashes) :
    ∃ typed equals value us, ts = typed :: equals :: value :: us ∧ typed.kind = .identifier ∧
      equals.kind = .equals ∧ (value.kind = .identifier ∨ value.kind = .literal) ∧
      dashes.stop = typed.start ∧ typed.stop = equals.start ∧ equals.stop = value.start := by
  obtain ⟨typed, us, e, rfl, step, latest', rest⟩ :=
    exists_step_of_incomplete all complete (by rw [state]; rfl)
  rw [state] at step
  generalize state' : e.state = q at step
  cases step with
  | key isKey touching =>
      obtain ⟨equals, value, us, rfl, isEquals, isValue, toEquals, toValue⟩ :=
        exists_equals_of_key rest complete state' latest'
      exact ⟨typed, equals, value, us, rfl, isKey, isEquals, isValue,
        stop_eq_start_of_touches touching latest, toEquals, toValue⟩

end Onward

/-- Dashes are read after a stage. -/
theorem eq_stage_of_read_dashes {dashes : Token} (read : c.read dashes = .ok d)
    (isDashes : dashes.kind = .doubleDash) : ∃ done current, c.state = .stage done current := by
  obtain ⟨state, next, rfl⟩ := read_eq_ok_iff.mp read
  generalize c.state = p at next
  cases PartialStream.step_of_next next with
  | dashes => exact ⟨_, _, rfl⟩
  | _ => simp_all

end Cursor

/-! ## Inside parameters -/

/-- Whether four tokens of a text stand one after the other and are those of a parameter. -/
def Text.HasParameter (text : String) (dashes key equals value : Token) : Prop :=
  ∃ before after pair, tokensOf text = before ++ dashes :: key :: equals :: value :: after ∧
    SpellsParameter [dashes, key, equals, value] pair

/-- An offset between two tokens of a parameter, with what the grammar asks for there and the start
of the parameter. -/
inductive InsideParameter (text : String) : Nat → Expectation → Nat → Prop
  | key {dashes key equals value : Token} : Text.HasParameter text dashes key equals value →
    InsideParameter text dashes.stop .propertyName dashes.start
  | equals {dashes key equals value : Token} : Text.HasParameter text dashes key equals value →
    InsideParameter text key.stop .equals dashes.start
  | value {dashes key equals value : Token} : Text.HasParameter text dashes key equals value →
    InsideParameter text equals.stop .value dashes.start

/-- The token that ends inside a parameter is one of its first three. -/
theorem InsideParameter.exists_mem {x : Expectation} (inside : InsideParameter text b x n) :
    ∃ t ∈ tokensOf text,
      t.stop = b ∧ (t.kind = .doubleDash ∨ t.kind = .identifier ∨ t.kind = .equals) := by
  cases inside with
  | @key dashes _ _ _ parameter =>
      obtain ⟨before, after, pair, tokens, ⟨isDashes, -⟩⟩ := parameter
      exact ⟨dashes, by simp [tokens], rfl, Or.inl isDashes⟩
  | @equals _ key _ _ parameter =>
      obtain ⟨before, after, pair, tokens, ⟨-, isKey, -⟩⟩ := parameter
      exact ⟨key, by simp [tokens], rfl, Or.inr (Or.inl isKey)⟩
  | @value _ _ equals _ parameter =>
      obtain ⟨before, after, pair, tokens, ⟨-, -, isEquals, -⟩⟩ := parameter
      exact ⟨equals, by simp [tokens], rfl, Or.inr (Or.inr isEquals)⟩

/-- A cursor between two tokens of a text of which the second has to touch the first and does. -/
structure Cursor.Between (text : String) (front : List Token) (last next : Token)
    (after : List Token) (c : Cursor) : Prop where
  tokens : tokensOf text = (front ++ [last]) ++ next :: after
  reads : Cursor.start.readAll (front ++ [last]) = .ok c
  adjacent : c.state.expectation.isAdjacent = true
  announced : next.kind ∈ c.state.expected
  touch : last.stop = next.start

section Parsed

variable {topology : Topology} (parsed : Topology.parse text = .ok topology)
include parsed

/-- What stands before a parameter is a stage. -/
theorem exists_stage_of_hasParameter {dashes key equals value : Token}
    (parameter : Text.HasParameter text dashes key equals value) :
    ∃ before after pair c done current,
      tokensOf text = before ++ dashes :: key :: equals :: value :: after ∧
      SpellsParameter [dashes, key, equals, value] pair ∧
      Cursor.start.readAll before = .ok c ∧ c.state = .stage done current := by
  obtain ⟨d, all, -⟩ := topologyParse_eq_ok_iff_readAll.mp parsed
  obtain ⟨before, after, pair, tokens, spells⟩ := parameter
  have split : tokensOf text = before ++ ([dashes] ++ key :: equals :: value :: after) := tokens
  rw [split] at all
  obtain ⟨c, first, rest⟩ := Cursor.readAll_of_append all
  obtain ⟨e, read, -⟩ := Cursor.readAll_of_append rest
  rw [Cursor.readAll_singleton] at read
  have isDashes : dashes.kind = .doubleDash := by
    cases spells
    assumption
  obtain ⟨done, current, state⟩ := Cursor.eq_stage_of_read_dashes read isDashes
  exact ⟨before, after, pair, c, done, current, tokens, spells, first, state⟩

/-- Inside a parameter of a text that parses the cursor keeps the start of the parameter. -/
theorem InsideParameter.exists_between {x : Expectation} (inside : InsideParameter text b x n) :
    ∃ front last next after c, Cursor.Between text front last next after c ∧ last.stop = b ∧
      c.state.expectation = x ∧ c.checkpoint = n := by
  cases inside with
  | @key dashes key equals value parameter =>
      obtain ⟨before, after, pair, c, done, current, tokens, spells, first, state⟩ :=
        exists_stage_of_hasParameter parsed parameter
      cases spells with
      | intro isDashes isKey isEquals isValue toKey toEquals toValue =>
          have reads : c.readAll [dashes] = .ok ⟨.dashes done current, dashes.start, [dashes]⟩ :=
            Cursor.readAll_singleton.trans (Cursor.read_dashes state isDashes)
          exact ⟨before, dashes, key, equals :: value :: after, _, ⟨by simp [tokens],
            (Cursor.readAll_append first _).trans reads, rfl,
            by simp [PartialStream.expected, isKey], toKey⟩, rfl, rfl, rfl⟩
  | @equals dashes key equals value parameter =>
      obtain ⟨before, after, pair, c, done, current, tokens, spells, first, state⟩ :=
        exists_stage_of_hasParameter parsed parameter
      cases spells with
      | intro isDashes isKey isEquals isValue toKey toEquals toValue =>
          have reads : c.readAll ([dashes] ++ [key]) =
              .ok ⟨.key done current key.text, dashes.start, [dashes, key]⟩ := by
            rw [Cursor.readAll_append
              (Cursor.readAll_singleton.trans (Cursor.read_dashes state isDashes)),
              Cursor.readAll_singleton, Cursor.read_key isKey toKey]
          exact ⟨before ++ [dashes], key, equals, value :: after, _, ⟨by simp [tokens],
            by rw [List.append_assoc, Cursor.readAll_append first, reads], rfl,
            by simp [PartialStream.expected, isEquals], toEquals⟩, rfl, rfl, rfl⟩
  | @value dashes key equals value parameter =>
      obtain ⟨before, after, pair, c, done, current, tokens, spells, first, state⟩ :=
        exists_stage_of_hasParameter parsed parameter
      cases spells with
      | intro isDashes isKey isEquals isValue toKey toEquals toValue =>
          have reads := Cursor.readAll_parameterStart state isDashes isKey isEquals toKey toEquals
          exact ⟨before ++ [dashes, key], equals, value, after, _, ⟨by simp [tokens],
            by rw [List.append_assoc, Cursor.readAll_append first, ← reads]; rfl, rfl,
            by rcases isValue with isValue | isValue <;> simp [PartialStream.expected, isValue],
            toValue⟩, rfl, rfl, rfl⟩

/-- Where the next token has to touch the last one, the end of the last one is inside a
parameter. -/
theorem exists_insideParameter {c : Cursor} (tokens : tokensOf text = before ++ after)
    (first : Cursor.start.readAll before = .ok c)
    (adjacent : c.state.expectation.isAdjacent = true) :
    ∃ front last next more x n, before = front ++ [last] ∧ after = next :: more ∧
      last.stop = next.start ∧ InsideParameter text last.stop x n := by
  obtain ⟨d, all, topology⟩ := topologyParse_eq_ok_iff_readAll.mp parsed
  have complete : d.state.isComplete = true := by
    rw [← PartialStream.isSome_topology?, topology]
    rfl
  rw [tokens, Cursor.readAll_append first] at all
  have latest := Cursor.getLast?_pending first
  -- A parameter has begun behind the cursor, and since the text parses it is finished ahead of it.
  cases state : c.state with
  | dashes done current =>
      obtain ⟨dashes, within_⟩ := Cursor.within_of_dashes first state
      obtain ⟨⟨front, rfl, -⟩, isDashes, -, -⟩ := within_
      rw [List.getLast?_concat] at latest
      obtain ⟨typed, equals, value, more, rfl, isKey, isEquals, isValue, toKey, toEquals,
        toValue⟩ := Cursor.exists_key_of_dashes all complete state latest
      have parameter : Text.HasParameter text dashes typed equals value :=
        ⟨front, more, _, by simp [tokens],
          .intro isDashes isKey isEquals isValue toKey toEquals toValue⟩
      exact ⟨front, dashes, typed, _, _, _, rfl, rfl, toKey, .key parameter⟩
  | key done current key =>
      obtain ⟨dashes, typed, within_, isKey, -, toKey⟩ := Cursor.within_of_key first state
      obtain ⟨⟨front, rfl, -⟩, isDashes, -, -⟩ := within_
      rw [List.append_cons, List.getLast?_concat] at latest
      obtain ⟨equals, value, more, rfl, isEquals, isValue, toEquals, toValue⟩ :=
        Cursor.exists_equals_of_key all complete state latest
      have parameter : Text.HasParameter text dashes typed equals value :=
        ⟨front, more, _, by simp [tokens],
          .intro isDashes isKey isEquals isValue toKey toEquals toValue⟩
      exact ⟨front ++ [dashes], typed, equals, _, _, _, List.append_cons .., rfl, toEquals,
        .equals parameter⟩
  | equals done current key =>
      obtain ⟨dashes, typed, equals, within_, isKey, -, isEquals, toKey, toEquals⟩ :=
        Cursor.within_of_equals first state
      obtain ⟨⟨front, rfl, -⟩, isDashes, -, -⟩ := within_
      have split : front ++ [dashes, typed, equals] = front ++ [dashes, typed] ++ [equals] := by
        simp
      rw [split, List.getLast?_concat] at latest
      obtain ⟨value, more, rfl, isValue, toValue⟩ :=
        Cursor.exists_value_of_equals all complete state latest
      have parameter : Text.HasParameter text dashes typed equals value :=
        ⟨front, more, _, by simp [tokens],
          .intro isDashes isKey isEquals isValue toKey toEquals toValue⟩
      exact ⟨front ++ [dashes, typed], equals, value, _, _, _, split, rfl, toValue,
        .value parameter⟩
  | _ =>
      rw [state] at adjacent
      cases adjacent

/-! ## Reading with more separators -/

/-- Tokens that go on to a text that parses stay as they are when the text ends after them. -/
theorem endAlone_of_parse (tokens : tokensOf text = before ++ after) :
    Token.endAlone before = before := by
  obtain ⟨d, all, -⟩ := topologyParse_eq_ok_iff_readAll.mp parsed
  exact Token.endAlone_eq_self <| whole_of_tokensFrom tokens fun t first =>
    Cursor.not_error_of_readAll all t (by simp [tokens, List.mem_of_head? first])

theorem Closed.of_parse (tokens : tokensOf text = before ++ after) : Closed before :=
  fun t member => closed_of_parse parsed t (by simp [tokens, member])

section Separators

variable (some : blanks ≠ "") (separators : ∀ c ∈ blanks.toList, isSeparator c = true)
  (small : text.utf8ByteSize + blanks.utf8ByteSize ≤ Span.limit)
include some separators small

/-- Where the next token need not touch the one before it, separators change nothing. -/
theorem topologyParse_insertAt {pre post : List Char} {c : Cursor}
    (split : text.toList = pre ++ post)
    (tokens : tokensOf text = before ++ tokensFrom (byteLength pre) 0 post)
    (left : tokensOf (String.ofList pre) = before)
    (first : Cursor.start.readAll before = .ok c)
    (loose : c.state.expectation.isAdjacent = false) :
    Topology.parse (Text.insertAt text (byteLength pre) blanks) = .ok topology := by
  obtain ⟨d, all, ends⟩ := topologyParse_eq_ok_iff_readAll.mp parsed
  rw [tokens, Cursor.readAll_append first] at all
  have moved : Cursor.Moved blanks.utf8ByteSize c c :=
    ⟨rfl, fun adjacent => by simp [loose] at adjacent⟩
  obtain ⟨e, all', same⟩ := moved.readAll all
  rw [topologyParse_eq_ok_iff_readAll,
    tokensOf_insertAt split left (.of_parse parsed tokens) some separators small]
  exact ⟨e, (Cursor.readAll_append first _).trans all', by rw [same.state, ends]⟩

/-- Where the next token has to touch the one before it, separators keep it from being read. -/
theorem exists_detached_of_insertAt {front after : List Token} {last next : Token} {c : Cursor}
    (between : Cursor.Between text front last next after c) :
    ∃ e, Topology.parse (Text.insertAt text last.stop blanks) = .error e ∧
      e.expectation = c.state.expectation ∧ e.checkpoint = c.checkpoint ∧
      e.reason = e.detachedReason := by
  obtain ⟨tokens, reads, adjacent, announced, touch⟩ := between
  have tokens' : tokensOf text = front ++ last :: next :: after := by simp [tokens]
  obtain ⟨pre, post, split, stop, left, right, -⟩ := exists_cut_after_token (by omega) tokens'
  rw [endAlone_of_parse parsed tokens] at left
  have moved :=
    tokensOf_insertAt split left (.of_parse parsed tokens) some separators small
  rw [right, List.map_cons, ← stop] at moved
  have apart : c.touches (next.shift blanks.utf8ByteSize) = false := by
    have positive : 0 < blanks.utf8ByteSize := by simpa [Nat.pos_iff_ne_zero] using some
    rw [Cursor.touches, Cursor.getLast?_pending reads, List.getLast?_concat, Option.any_some,
      touch, beq_eq_false_iff_ne]
    simp only [Token.shift, Token.start]
    omega
  have kept : c.mark (next.shift blanks.utf8ByteSize) = c :=
    Cursor.mark_of_not_isComplete _ (PartialStream.not_isComplete_of_isAdjacent adjacent)
  have stuck : c.read (next.shift blanks.utf8ByteSize) =
      .error ⟨c, next.shift blanks.utf8ByteSize⟩ := by
    rw [Cursor.read_eq_error_iff, kept, apart]
    exact ⟨PartialStream.next_false_of_isAdjacent adjacent _, rfl⟩
  have fails : Topology.parse (Text.insertAt text last.stop blanks) =
      .error (.ofHalt (Text.insertAt text last.stop blanks)
        ⟨c, next.shift blanks.utf8ByteSize⟩) := by
    rw [topologyParse_eq_error_iff_run, moved, Cursor.run_append _ reads]
    exact ⟨_, by rw [Cursor.run, stuck], rfl⟩
  have small' : (Text.insertAt text last.stop blanks).utf8ByteSize ≤ Span.limit := by
    rwa [stop, Text.utf8ByteSize_insertAt split]
  have separated := ParseFailure.separated_of_parse small' fails announced
  exact ⟨_, fails, rfl, rfl, separated.reports⟩

end Separators

end Parsed

/-- Separators between the tokens of a text that parses change nothing, and inside its parameters
they are not allowed. At the start of the text, at its end and where a token starts or ends, a text
with more separators has the same topology, unless the place is inside a parameter. There it fails,
asks for what the grammar asks for at that place, has its checkpoint at the dashes of the parameter,
and says that whitespace is not allowed. -/
theorem parse_insertAt {name : String} {s : Stream} (parsed : Stream.parse name text = .ok s)
    (place : b = 0 ∨ b = text.utf8ByteSize ∨ ∃ t ∈ tokenize text, b = t.start ∨ b = t.stop)
    (some : blanks ≠ "") (separators : ∀ c ∈ blanks.toList, isSeparator c = true)
    (small : text.utf8ByteSize + blanks.utf8ByteSize ≤ Span.limit) :
    b ∈ Text.boundaries text ∧
    ((∀ x n, ¬ InsideParameter text b x n) →
      ∃ s', Stream.parse name (Text.insertAt text b blanks) = .ok s' ∧
        s'.toTopology = s.toTopology) ∧
    ∀ x n, InsideParameter text b x n →
      ∃ e, Stream.parse name (Text.insertAt text b blanks) = .error e ∧ e.expectation = x ∧
        e.checkpoint = n ∧ e.reason = e.detachedReason := by
  replace parsed := (streamParse_eq_ok_iff.mp parsed).1
  refine ⟨?_, fun outside => ?_, fun x n inside => ?_⟩
  · obtain ⟨pre, post, -, split, rfl, -⟩ := exists_parts (by omega) place
    exact Text.mem_boundaries split
  · obtain ⟨pre, post, before, split, rfl, tokens, left⟩ := exists_parts (by omega) place
    rw [endAlone_of_parse parsed tokens] at left
    obtain ⟨d, all, -⟩ := topologyParse_eq_ok_iff_readAll.mp parsed
    rw [tokens] at all
    obtain ⟨c, first, -⟩ := Cursor.readAll_of_append all
    cases adjacent : c.state.expectation.isAdjacent with
    | true =>
        obtain ⟨front, last, next, more, x, n, rfl, after, touch, inside⟩ :=
          exists_insideParameter parsed tokens first adjacent
        -- The place is between the two tokens, and they touch.
        have early : last.stop ≤ byteLength pre := by
          have member : last ∈ tokensOf (String.ofList pre) := by simp [left]
          have small' : byteLength pre ≤ Span.limit := by
            rw [← byteLength_toList, split, byteLength_append] at small
            omega
          rw [← String.toList_ofList (l := pre), byteLength_toList] at small' ⊢
          exact (span_of_mem_tokensOf small' member).2
        have late : byteLength pre ≤ next.start := by
          rw [← byteLength_toList, split, byteLength_append] at small
          have member : next ∈ tokensFrom (byteLength pre) 0 post := by simp [after]
          exact (span_of_mem_tokensFrom (by omega) member).1
        rw [Nat.le_antisymm early (touch ▸ late)] at inside
        exact absurd inside (outside x n)
    | false =>
        have same := topologyParse_insertAt parsed some separators small split tokens left first
          adjacent
        exact ⟨{ s.toTopology with name, text := _ },
          streamParse_eq_ok_iff.mpr ⟨same, rfl, rfl⟩, rfl⟩
  · obtain ⟨front, last, next, after, c, between, rfl, rfl, rfl⟩ := inside.exists_between parsed
    simp only [streamParse_eq_error_iff]
    exact exists_detached_of_insertAt parsed some separators small between

/-- A line break after a pipe, and a space before the value of a parameter. -/
theorem parse_insertAt_pipe :
    (∃ s, Stream.parse "" (Text.insertAt "a|b --k=v" 2 "\r\n") = .ok s ∧
      s.stages.map Stage.name = ["a", "b"]) ∧
    ∃ e, Stream.parse "" (Text.insertAt "a|b --k=v" 8 " ") = .error e ∧ e.expectation = .value ∧
      e.checkpoint = 4 ∧ e.reason = e.detachedReason := by
  obtain ⟨s, parsed, stages⟩ :
      ∃ s, Stream.parse "" "a|b --k=v" = .ok s ∧ s.stages.map Stage.name = ["a", "b"] :=
    ⟨_, rfl, rfl⟩
  constructor
  · have place : ∃ t ∈ tokenize "a|b --k=v", 2 = t.start ∨ 2 = t.stop := by decide
    have some : "\r\n" ≠ "" := by decide
    obtain ⟨-, same, -⟩ :=
      parse_insertAt parsed (Or.inr (Or.inr place)) some (by simp [isSeparator]) (by decide)
    obtain ⟨s', parsed', topology⟩ := same fun x n inside => by
      obtain ⟨t, member, kind⟩ := inside.exists_mem
      revert t
      decide
    exact ⟨s', parsed', by rw [topology, stages]⟩
  · have place : ∃ t ∈ tokenize "a|b --k=v", 8 = t.start ∨ 8 = t.stop := by decide
    have some : " " ≠ "" := by decide
    obtain ⟨-, -, detached⟩ :=
      parse_insertAt parsed (Or.inr (Or.inr place)) some (by simp [isSeparator]) (by decide)
    have parameter : Text.HasParameter "a|b --k=v" ⟨.doubleDash, "--", 4, 6⟩
        ⟨.identifier, "k", 6, 7⟩ ⟨.equals, "=", 7, 8⟩ ⟨.identifier, "v", 8, 9⟩ :=
      ⟨[⟨.identifier, "a", 0, 1⟩, ⟨.pipe, "|", 1, 2⟩, ⟨.identifier, "b", 2, 3⟩], [], _, rfl,
        .intro rfl rfl rfl (Or.inl rfl) rfl rfl rfl⟩
    exact detached _ _ (.value parameter)

end StreamLang
