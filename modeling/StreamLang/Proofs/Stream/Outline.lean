import StreamLang.Completion.Recovery
import StreamLang.Proofs.Stream.Expected

/-!
The finite control of reading.

A `GrammarPoint` is a position in the grammar without what was read on the way there, and an
`Outline` is such a point with the kinds of the pending tokens. The kinds of the tokens alone drive
the outline of a cursor (`Cursor.outline_of_readAll`). Whether a token is read depends on where it
stands too, but a token that is read leads where its kind leads.

So the kinds of the tokens that a text has before its failure settle what the failure asks for, what
it announces, the kinds of its pending tokens and the recovery that takes it up
(`sameFailure_of_consumed`).
-/

namespace StreamLang

/-! ## Points of the grammar -/

/-- A position in the grammar, whatever was read on the way there. -/
inductive GrammarPoint where
  | start
  | source
  | stageStart
  | labelled
  | stage
  | dashes
  | key
  | equals
  | arrow
  | closed
  deriving DecidableEq, Repr

/-- Where a position is in the grammar. -/
def PartialStream.point : PartialStream → GrammarPoint
  | .start => .start
  | .source _ => .source
  | .stageStart _ => .stageStart
  | .labelled _ _ => .labelled
  | .stage _ _ => .stage
  | .dashes _ _ => .dashes
  | .key _ _ _ => .key
  | .equals _ _ _ => .equals
  | .arrow _ => .arrow
  | .closed _ _ => .closed

namespace GrammarPoint

/-- A position at the point, where everything read was empty. -/
def position : GrammarPoint → PartialStream
  | start => .start
  | source => .source ""
  | stageStart => .stageStart ⟨none, []⟩
  | labelled => .labelled ⟨none, []⟩ ""
  | stage => .stage ⟨none, []⟩ (.named "")
  | dashes => .dashes ⟨none, []⟩ (.named "")
  | key => .key ⟨none, []⟩ (.named "") ""
  | equals => .equals ⟨none, []⟩ (.named "") ""
  | arrow => .arrow ⟨none, []⟩
  | closed => .closed ⟨none, []⟩ ""

/-- The point after a token of the kind that stands where the grammar wants it. -/
def next (g : GrammarPoint) (k : TokenKind) : Option GrammarPoint :=
  (g.position.next true ⟨k, "", 0, 0⟩).map PartialStream.point

end GrammarPoint

namespace PartialStream

variable {p q : PartialStream} {touching : Bool} {t : Token}

@[simp] theorem expectation_position (p : PartialStream) :
    p.point.position.expectation = p.expectation := by
  cases p <;> rfl

@[simp] theorem expected_position (p : PartialStream) :
    p.point.position.expected = p.expected := by
  cases p <;> rfl

@[simp] theorem isComplete_position (p : PartialStream) :
    p.point.position.isComplete = p.isComplete := by
  cases p <;> rfl

/-- A token that is read leads to the point that its kind leads to. -/
theorem next_point_of_next (next : p.next touching t = some q) :
    p.point.next t.kind = some q.point := by
  cases step_of_next next with
  | value kind =>
      rcases kind with kind | kind <;>
        simp [GrammarPoint.next, GrammarPoint.position, point, PartialStream.next, kind]
  | source kind | firstLabel kind | firstName kind | arrowOfSource kind | label kind | name kind
  | labelledName kind | pipe kind | dashes kind | arrow kind | key kind | equals kind
  | destination kind =>
      simp [GrammarPoint.next, GrammarPoint.position, point, PartialStream.next, kind]

end PartialStream

/-! ## Outlines of cursors -/

/-- A point of the grammar, and the kinds of the tokens since the checkpoint. -/
structure Outline where
  point : GrammarPoint
  pending : List TokenKind
  deriving DecidableEq, Repr

namespace Outline

/-- The outline before the first token. -/
def start : Outline := ⟨.start, []⟩

/-- Drops the pending kinds where the stream may end. -/
def mark (o : Outline) : Outline :=
  if o.point.position.isComplete then ⟨o.point, []⟩ else o

/-- The outline after one more token of the kind. -/
def read (o : Outline) (k : TokenKind) : Option Outline :=
  (o.point.next k).map fun point => ⟨point, o.mark.pending ++ [k]⟩

/-- The outline after tokens of the kinds. -/
def readAll (o : Outline) (ks : List TokenKind) : Option Outline := ks.foldlM read o

end Outline

namespace Cursor

variable {c d : Cursor} {ts : List Token}

/-- What a cursor is without texts and places. -/
def outline (c : Cursor) : Outline := ⟨c.state.point, c.pending.map Token.kind⟩

/-- The checkpoint is taken where the outline drops its kinds. -/
theorem pending_mark_outline (c : Cursor) (t : Token) :
    c.outline.mark.pending = (c.mark t).pending.map Token.kind := by
  simp only [mark, Outline.mark, outline, PartialStream.isComplete_position]
  split <;> rfl

theorem outline_of_read {t : Token} (read : c.read t = .ok d) :
    c.outline.read t.kind = some d.outline := by
  obtain ⟨state, next, rfl⟩ := read_eq_ok_iff.mp read
  have point : c.outline.point.next t.kind = some state.point :=
    PartialStream.next_point_of_next next
  rw [Outline.read, point, pending_mark_outline c t]
  simp [outline]

/-- The kinds of the tokens drive the outline of a cursor. -/
theorem outline_of_readAll (all : c.readAll ts = .ok d) :
    c.outline.readAll (ts.map Token.kind) = some d.outline := by
  induction ts generalizing c with
  | nil =>
      cases all
      rfl
  | cons t ts ih =>
      simp only [readAll] at all
      cases read : c.read t with
      | error halt =>
          rw [read] at all
          cases all
      | ok e =>
          rw [read] at all
          rw [List.map_cons, Outline.readAll, List.foldlM_cons, outline_of_read read]
          exact ih all

example : Outline.start.readAll [.identifier, .doubleDash, .identifier] =
    some ⟨.key, [.doubleDash, .identifier]⟩ := by decide

end Cursor

/-! ## Outlines of failures -/

/-- The tokens before the one that did not fit. -/
def ParseFailure.consumed (e : ParseFailure) (text : String) : List Token :=
  (tokenize text).takeWhile (· != e.offending)

variable {text name : String} {e : ParseFailure}

/-- The kinds of the tokens that a text has before its failure lead to an outline, and the failure
is that of any position at its point. -/
theorem exists_outline_of_parse (small : text.utf8ByteSize ≤ Span.limit)
    (fails : Topology.parse text = .error e) :
    ∃ o, Outline.start.readAll ((e.consumed text).map Token.kind) = some o ∧
      e.expectation = o.point.position.expectation ∧ e.expected = o.point.position.expected ∧
      e.pending.map Token.kind = o.mark.pending := by
  obtain ⟨c, before, t, after, split, first, rfl, -⟩ := exists_halt_of_parse fails
  have consumed : (ParseFailure.ofHalt text ⟨c.mark t, t⟩).consumed text = before := by
    have nodup := nodup_tokenize small
    rw [split] at nodup
    have fresh : t ∉ before := fun member =>
      (List.nodup_append.mp nodup).2.2 t member t List.mem_cons_self rfl
    have others : ∀ u ∈ before, (u != t) = true := fun u member =>
      bne_iff_ne.mpr fun same => fresh (same ▸ member)
    change (tokenize text).takeWhile (· != t) = before
    rw [split, List.takeWhile_append_of_pos others]
    simp
  rw [consumed]
  refine ⟨c.outline, Cursor.outline_of_readAll first, ?_, ?_, (c.pending_mark_outline t).symm⟩
  · simp [ParseFailure.ofHalt, Cursor.outline]
  · simp [ParseFailure.ofHalt, Cursor.outline]

/-- Texts that have tokens of the same kinds before their failures fail alike. The failures ask for
the same, announce the same kinds, leave pending tokens of the same kinds, and are taken up by the
same recovery, whatever the tokens say, where they stand, and what comes after them. -/
theorem sameFailure_of_consumed {text₁ text₂ name₁ name₂ : String} {e₁ e₂ : ParseFailure}
    (small₁ : text₁.utf8ByteSize ≤ Span.limit) (small₂ : text₂.utf8ByteSize ≤ Span.limit)
    (fails₁ : Stream.parse name₁ text₁ = .error e₁) (fails₂ : Stream.parse name₂ text₂ = .error e₂)
    (same : (e₁.consumed text₁).map Token.kind = (e₂.consumed text₂).map Token.kind) :
    e₁.expectation = e₂.expectation ∧ e₁.expected = e₂.expected ∧
      e₁.pending.map Token.kind = e₂.pending.map Token.kind ∧
      ∀ recoveries, Recovery.select recoveries e₁ = Recovery.select recoveries e₂ := by
  rw [streamParse_eq_error_iff] at fails₁ fails₂
  obtain ⟨o, reads₁, expects₁, announces₁, pending₁⟩ := exists_outline_of_parse small₁ fails₁
  obtain ⟨o', reads₂, expects₂, announces₂, pending₂⟩ := exists_outline_of_parse small₂ fails₂
  rw [same, reads₂] at reads₁
  cases reads₁
  have expects : e₁.expectation = e₂.expectation := expects₁.trans expects₂.symm
  refine ⟨expects, announces₁.trans announces₂.symm, pending₁.trans pending₂.symm, ?_⟩
  intro recoveries
  rw [Recovery.select, Recovery.select, expects]

/-- A text that ends after a key, and one with a space after another key. -/
theorem sameFailure_of_consumed_key :
    ∃ e₁ e₂, Stream.parse "" "a --k" = .error e₁ ∧ Stream.parse "" "bb  --key =v" = .error e₂ ∧
      e₁.offending.kind ≠ e₂.offending.kind ∧
      Recovery.select Recovery.standard e₁ = Recovery.select Recovery.standard e₂ := by
  obtain ⟨e₁, e₂, fails₁, fails₂, differ, same⟩ :
      ∃ e₁ e₂, Stream.parse "" "a --k" = .error e₁ ∧ Stream.parse "" "bb  --key =v" = .error e₂ ∧
        e₁.offending.kind ≠ e₂.offending.kind ∧
        (e₁.consumed "a --k").map Token.kind = (e₂.consumed "bb  --key =v").map Token.kind :=
    ⟨_, _, rfl, rfl, by decide, by decide⟩
  obtain ⟨-, -, -, select⟩ :=
    sameFailure_of_consumed (by decide) (by decide) fails₁ fails₂ same
  exact ⟨e₁, e₂, fails₁, fails₂, differ, select Recovery.standard⟩

end StreamLang
