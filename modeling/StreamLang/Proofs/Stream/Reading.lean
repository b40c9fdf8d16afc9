import Mathlib.Data.List.Induction
import StreamLang.Stream.Parse

/-!
Cursors over lists of tokens.

`Cursor.readAll` reads tokens and stops before the end of the text. A run over a text reads all its
tokens and closes (`Cursor.run_eq_ok_iff`), or halts at one of them or at the end
(`Cursor.exists_halt_of_run`). What holds at the start and is kept by every token holds after all of
them (`Cursor.readAll_induction`).
-/

namespace StreamLang

/-! ## One token -/

namespace PartialStream

/-- Whether a token touches the one before it matters within a parameter only. -/
theorem next_of_not_adjacent {p : PartialStream} (loose : p.expectation.isAdjacent = false)
    (touching touching' : Bool) (t : Token) : p.next touching t = p.next touching' t := by
  cases p with
  | dashes | key | equals => cases loose
  | _ => cases kind : t.kind <;> simp only [next, kind]

/-- One step through the grammar: from a position by a token to the next position. -/
inductive Step (t : Token) (touching : Bool) : PartialStream → PartialStream → Prop
  | source : t.kind = .destination → Step t touching .start (.source t.text)
  | firstLabel : t.kind = .label → Step t touching .start (.labelled ⟨none, []⟩ t.text)
  | firstName : t.kind = .identifier → Step t touching .start (.stage ⟨none, []⟩ (.named t.text))
  | arrowOfSource {destination : String} : t.kind = .gt →
    Step t touching (.source destination) (.stageStart ⟨some destination, []⟩)
  | label {d : Draft} : t.kind = .label → Step t touching (.stageStart d) (.labelled d t.text)
  | name {d : Draft} : t.kind = .identifier →
    Step t touching (.stageStart d) (.stage d (.named t.text))
  | labelledName {d : Draft} {label : String} : t.kind = .identifier →
    Step t touching (.labelled d label) (.stage d ((Stage.named t.text).withLabel label))
  | pipe {d : Draft} {s : Stage} : t.kind = .pipe →
    Step t touching (.stage d s) (.stageStart (d.push s))
  | dashes {d : Draft} {s : Stage} : t.kind = .doubleDash →
    Step t touching (.stage d s) (.dashes d s)
  | arrow {d : Draft} {s : Stage} : t.kind = .gt → Step t touching (.stage d s) (.arrow (d.push s))
  | key {d : Draft} {s : Stage} : t.kind = .identifier → touching = true →
    Step t touching (.dashes d s) (.key d s t.text)
  | equals {d : Draft} {s : Stage} {k : String} : t.kind = .equals → touching = true →
    Step t touching (.key d s k) (.equals d s k)
  | value {d : Draft} {s : Stage} {k : String} : t.kind = .identifier ∨ t.kind = .literal →
    touching = true → Step t touching (.equals d s k) (.stage d (s.withParameter k t.text))
  | destination {d : Draft} : t.kind = .destination → Step t touching (.arrow d) (.closed d t.text)

/-- Everything that reading one token can do. -/
theorem step_of_next {p q : PartialStream} {touching : Bool} {t : Token}
    (next : p.next touching t = some q) : Step t touching p q := by
  unfold PartialStream.next at next
  split at next
  · next kind => cases next; exact .source kind
  · next kind => cases next; exact .firstLabel kind
  · next kind => cases next; exact .firstName kind
  · next kind => cases next; exact .arrowOfSource kind
  · next kind => cases next; exact .label kind
  · next kind => cases next; exact .name kind
  · next kind => cases next; exact .labelledName kind
  · next kind => cases next; exact .pipe kind
  · next kind => cases next; exact .dashes kind
  · next kind => cases next; exact .arrow kind
  · next kind =>
      obtain ⟨touches, same⟩ := Option.ite_none_right_eq_some.mp next
      cases same
      exact .key kind touches
  · next kind =>
      obtain ⟨touches, same⟩ := Option.ite_none_right_eq_some.mp next
      cases same
      exact .equals kind touches
  · next kind =>
      obtain ⟨touches, same⟩ := Option.ite_none_right_eq_some.mp next
      cases same
      exact .value (Or.inl kind) touches
  · next kind =>
      obtain ⟨touches, same⟩ := Option.ite_none_right_eq_some.mp next
      cases same
      exact .value (Or.inr kind) touches
  · next kind => cases next; exact .destination kind
  · cases next

/-- No stream may end after a label. -/
theorem isComplete_of_label {t : Token} (label : t.kind = .label) {p q : PartialStream}
    {touching : Bool} (next : p.next touching t = some q) : q.isComplete = false := by
  cases step_of_next next with
  | firstLabel | label => rfl
  | _ => simp_all

/-- A stream never goes on with an error. -/
theorem next_error {t : Token} {cause : LexError} (error : t.kind = .error cause)
    (p : PartialStream) (touching : Bool) : p.next touching t = none := by
  cases p <;> simp [next, error]

end PartialStream

namespace Cursor

variable {c d : Cursor} {t stop : Token} {ts us : List Token}

@[simp] theorem state_mark (c : Cursor) (t : Token) : (c.mark t).state = c.state := by
  simp only [mark]
  split <;> rfl

theorem mark_of_not_isComplete (t : Token) (open_ : c.state.isComplete = false) :
    c.mark t = c := by
  simp [mark, open_]

theorem mark_of_isComplete (t : Token) (complete : c.state.isComplete = true) :
    c.mark t = ⟨c.state, t.start, []⟩ := by
  simp [mark, complete]

/-- A token is read when the grammar goes on with it. -/
theorem read_eq_ok_iff :
    c.read t = .ok d ↔ ∃ state, c.state.next ((c.mark t).touches t) t = some state ∧
      d = ⟨state, (c.mark t).checkpoint, (c.mark t).pending ++ [t]⟩ := by
  simp only [read, state_mark]
  cases c.state.next ((c.mark t).touches t) t with
  | none => simp
  | some state => simp [eq_comm]

theorem read_eq_error_iff {halt : Halt} :
    c.read t = .error halt ↔
      c.state.next ((c.mark t).touches t) t = none ∧ halt = ⟨c.mark t, t⟩ := by
  simp only [read, state_mark]
  cases c.state.next ((c.mark t).touches t) t with
  | none => simp [eq_comm]
  | some state => simp

theorem close_eq_ok_iff {topology : Topology} :
    c.close stop = .ok topology ↔ c.state.topology? = some topology := by
  simp only [close]
  cases c.state.topology? <;> simp

theorem close_eq_error_iff {halt : Halt} :
    c.close stop = .error halt ↔ c.state.isComplete = false ∧ halt = ⟨c, stop⟩ := by
  rw [close, ← PartialStream.isSome_topology?]
  cases c.state.topology? <;> simp [eq_comm]

/-! ## All tokens of a list -/

/-- Reads tokens one after the other. -/
def readAll (c : Cursor) : List Token → Except Halt Cursor
  | [] => .ok c
  | t :: ts =>
      match c.read t with
      | .ok c => c.readAll ts
      | .error halt => .error halt

theorem readAll_append (first : c.readAll ts = .ok d) (us : List Token) :
    c.readAll (ts ++ us) = d.readAll us := by
  induction ts generalizing c with
  | nil =>
      cases first
      rfl
  | cons t ts ih =>
      simp only [readAll, List.cons_append] at first ⊢
      split at first
      · exact ih first
      · cases first

theorem run_append (stop : Token) (first : c.readAll ts = .ok d) (us : List Token) :
    c.run stop (ts ++ us) = d.run stop us := by
  induction ts generalizing c with
  | nil =>
      cases first
      rfl
  | cons t ts ih =>
      simp only [readAll] at first
      simp only [run, List.cons_append]
      cases read : c.read t with
      | ok e =>
          rw [read] at first
          exact ih first
      | error halt =>
          rw [read] at first
          cases first

/-- Tokens are read up to the first that does not fit. -/
theorem readAll_of_append (all : c.readAll (ts ++ us) = .ok d) :
    ∃ e, c.readAll ts = .ok e ∧ e.readAll us = .ok d := by
  induction ts generalizing c with
  | nil => exact ⟨c, rfl, all⟩
  | cons t ts ih =>
      simp only [readAll, List.cons_append] at all ⊢
      split at all
      · exact ih all
      · cases all

theorem readAll_singleton : c.readAll [t] = c.read t := by
  simp only [readAll]
  split <;> simp_all

/-- A run succeeds when all tokens are read and the stream may end after them. -/
theorem run_eq_ok_iff {topology : Topology} :
    c.run stop ts = .ok topology ↔
      ∃ d, c.readAll ts = .ok d ∧ d.state.topology? = some topology := by
  induction ts generalizing c with
  | nil => simp [run, readAll, close_eq_ok_iff]
  | cons t ts ih =>
      simp only [run, readAll]
      cases c.read t with
      | ok d => exact ih
      | error halt => simp

/-- A run that fails halts at the token that does not fit, or at the end of a stream that may not
end there. The cursor it leaves is the one at the token where it halts. -/
theorem exists_halt_of_run {halt : Halt} (fails : c.run stop ts = .error halt) :
    ∃ d before t after, ts ++ [stop] = before ++ t :: after ∧ c.readAll before = .ok d ∧
      halt = ⟨d.mark t, t⟩ ∧
      (d.state.next ((d.mark t).touches t) t = none ∨ after = [] ∧ d.state.isComplete = false) := by
  induction ts generalizing c with
  | nil =>
      obtain ⟨incomplete, rfl⟩ := close_eq_error_iff.mp fails
      refine ⟨c, [], stop, [], rfl, rfl, ?_, Or.inr ⟨rfl, incomplete⟩⟩
      rw [mark_of_not_isComplete stop incomplete]
  | cons t ts ih =>
      simp only [run] at fails
      cases read : c.read t with
      | error halt' =>
          rw [read] at fails
          cases fails
          obtain ⟨stuck, rfl⟩ := read_eq_error_iff.mp read
          exact ⟨c, [], t, ts ++ [stop], rfl, rfl, rfl, Or.inl stuck⟩
      | ok e =>
          rw [read] at fails
          obtain ⟨d, before, u, after, split, others, place, cause⟩ := ih fails
          refine ⟨d, t :: before, u, after, by rw [List.cons_append, split]; rfl, ?_, place, cause⟩
          simp only [readAll, read]
          exact others

/-- What holds of the cursor before the first token, and of the cursor after a token whenever it
holds before it, holds after any tokens. -/
theorem readAll_induction {motive : List Token → Cursor → Prop} (start : motive [] start)
    (step : ∀ ts c t d, Cursor.start.readAll ts = .ok c → motive ts c → c.read t = .ok d →
      motive (ts ++ [t]) d)
    {ts : List Token} {c : Cursor} (all : Cursor.start.readAll ts = .ok c) : motive ts c := by
  induction ts using List.reverseRecOn generalizing c with
  | nil =>
      cases all
      exact start
  | append_singleton ts t ih =>
      obtain ⟨d, first, last⟩ := readAll_of_append all
      rw [readAll_singleton] at last
      exact step ts d t c first (ih first) last

theorem not_error_of_readAll (all : c.readAll ts = .ok d) :
    ∀ t ∈ ts, ∀ cause, t.kind ≠ .error cause := by
  induction ts generalizing c with
  | nil => simp
  | cons t ts ih =>
      simp only [readAll] at all
      cases read : c.read t with
      | error halt =>
          rw [read] at all
          cases all
      | ok e =>
          rw [read] at all
          obtain ⟨state, next, -⟩ := read_eq_ok_iff.mp read
          intro u member cause error
          rcases List.mem_cons.mp member with rfl | later
          · rw [PartialStream.next_error error] at next
            cases next
          · exact ih all u later cause error

/-- The latest pending token is the latest token read. -/
theorem getLast?_pending (all : start.readAll ts = .ok c) : c.pending.getLast? = ts.getLast? := by
  refine readAll_induction (motive := fun ts c => c.pending.getLast? = ts.getLast?) rfl ?_ all
  intro ts c t d _ _ read
  obtain ⟨state, -, rfl⟩ := read_eq_ok_iff.mp read
  simp

end Cursor

/-! ## Whole texts -/

variable {text name : String}

theorem topologyParse_eq_ok_iff_run {t : Topology} :
    Topology.parse text = .ok t ↔ Cursor.start.run (endOf text) (tokensOf text) = .ok t := by
  rw [Topology.parse]
  cases Cursor.start.run (endOf text) (tokensOf text) <;> simp

theorem topologyParse_eq_ok_iff_readAll {t : Topology} :
    Topology.parse text = .ok t ↔
      ∃ c, Cursor.start.readAll (tokensOf text) = .ok c ∧ c.state.topology? = some t := by
  rw [topologyParse_eq_ok_iff_run, Cursor.run_eq_ok_iff]

theorem topologyParse_eq_error_iff_run {e : ParseFailure} :
    Topology.parse text = .error e ↔
      ∃ halt, Cursor.start.run (endOf text) (tokensOf text) = .error halt ∧
        e = .ofHalt text halt := by
  rw [Topology.parse]
  cases Cursor.start.run (endOf text) (tokensOf text) <;> simp [eq_comm]

/-- A stream is a topology with its name and its text. -/
theorem streamParse_eq_ok_iff {s : Stream} :
    Stream.parse name text = .ok s ↔
      Topology.parse text = .ok s.toTopology ∧ s.name = name ∧ s.text = text := by
  obtain ⟨t, name', text'⟩ := s
  rw [Stream.parse]
  cases Topology.parse text with
  | error e => simp [Except.map]
  | ok t' => simp [Except.map, eq_comm]

theorem streamParse_eq_error_iff {e : ParseFailure} :
    Stream.parse name text = .error e ↔ Topology.parse text = .error e := by
  rw [Stream.parse]
  cases Topology.parse text <;> simp [Except.map]

/-- Whether a text parses does not depend on the name. -/
theorem exists_streamParse_iff :
    (∃ s, Stream.parse name text = .ok s) ↔ ∃ t, Topology.parse text = .ok t := by
  simp only [streamParse_eq_ok_iff]
  constructor
  · rintro ⟨s, parsed, -⟩
    exact ⟨s.toTopology, parsed⟩
  · rintro ⟨t, parsed⟩
    exact ⟨{ t with name, text }, parsed, rfl, rfl⟩

end StreamLang
