import StreamLang.Proofs.Token.LongestMatch

/-!
Quoted literals, item by item.

The inside of a quoted literal is a sequence of items, each of which means one character
(`Lexeme.Item`, `Lexeme.Items`). The first quote that no item takes, one that is not doubled, closes
the literal, and the lexer reads the items up to that quote (`Lexeme.closesAfter_iff`). A value has
many spellings, since a quote and a pipe can each be written in two ways (`Lexeme.Spells`). Between
quotes every spelling is one token (`Lexeme.Spells.tokensFrom_eq`).
-/

namespace StreamLang

namespace Lexeme

/-! ## Items -/

/-- One item inside a literal quoted with `q`, before `next`: the characters it is written with, and
the character it means. What follows matters to a lone backslash only. -/
inductive Item (q : Char) : (written : List Char) → (meaning : Char) → (next : List Char) → Prop
  | escaped {d : Char} {next : List Char} : Escapes q d → Item q ['\\', d] d next
  | backslash {next : List Char} : (∀ d ∈ next.head?, ¬ Escapes q d) → Item q ['\\'] '\\' next
  | doubled {next : List Char} : Item q [q, q] q next
  | plain {c : Char} {next : List Char} : c ≠ q → c ≠ '\\' → Item q [c] c next

/-- Items one after the other, before `next`, and what they mean. -/
inductive Items (q : Char) : (written value next : List Char) → Prop
  | nil {next : List Char} : Items q [] [] next
  | cons {item written value next : List Char} {c : Char} : Item q item c (written ++ next) →
    Items q written value next → Items q (item ++ written) (c :: value) next

/-- The literal that `q` opens before `cs` is closed after the characters `written`: they are items
that mean `value`, and the quote after them is not doubled. -/
def ClosedAt (q : Char) (cs written value : List Char) : Prop :=
  ∃ rest, cs = written ++ q :: rest ∧ Items q written value (q :: rest) ∧ rest.head? ≠ some q

/-- The literal that `q` opens before `cs` means `value`, and is closed after the given number of
bytes, those of its closing quote among them. -/
def ClosesAfter (q : Char) (cs value : List Char) (bytes : Nat) : Prop :=
  ∃ written, ClosedAt q cs written value ∧ byteLength (written ++ [q]) = bytes

variable {q : Char} {cs written value rest : List Char} {n bytes : Nat}

theorem Items.inside (items : Items q written value (q :: rest)) (single : rest.head? ≠ some q) :
    Inside q (written ++ q :: rest) value (written.length + 1) := by
  -- The induction is on the items, before a text that stays the same.
  generalize after : q :: rest = next at items
  induction items with
  | nil =>
      subst after
      exact .close single
  | cons item _ ih =>
      subst after
      have others := ih rfl
      cases item with
      | escaped escapes => exact .escaped escapes others
      | backslash verbatim => exact .backslash verbatim others
      | doubled => exact .doubled others
      | plain noQuote noBackslash => exact .plain noQuote noBackslash others

theorem ClosedAt.inside (closed : ClosedAt q cs written value) :
    Inside q cs value (written.length + 1) := by
  obtain ⟨rest, rfl, items, single⟩ := closed
  exact items.inside single

theorem ClosedAt.take (closed : ClosedAt q cs written value) :
    cs.take (written.length + 1) = written ++ [q] := by
  obtain ⟨rest, rfl, -, -⟩ := closed
  rw [List.append_cons, List.take_left' (by simp)]

/-- One more item before a literal that is closed. -/
theorem Item.closedAt {item : List Char} {c : Char} (first : Item q item c cs)
    (closed : ClosedAt q cs written value) :
    ClosedAt q (item ++ cs) (item ++ written) (c :: value) := by
  obtain ⟨rest, rfl, items, single⟩ := closed
  exact ⟨rest, (List.append_assoc ..).symm, .cons first items, single⟩

/-- What is read inside a literal are items. -/
theorem Inside.exists_closedAt (inside : Inside q cs value n) :
    ∃ written, ClosedAt q cs written value ∧ n = written.length + 1 := by
  induction inside with
  | @close rest single => exact ⟨[], ⟨rest, rfl, .nil, single⟩, rfl⟩
  | doubled _ ih =>
      obtain ⟨written, closed, rfl⟩ := ih
      exact ⟨_, Item.doubled.closedAt closed, rfl⟩
  | escaped escapes _ ih =>
      obtain ⟨written, closed, rfl⟩ := ih
      exact ⟨_, (Item.escaped escapes).closedAt closed, rfl⟩
  | backslash verbatim _ ih =>
      obtain ⟨written, closed, rfl⟩ := ih
      exact ⟨_, (Item.backslash verbatim).closedAt closed, rfl⟩
  | plain noQuote noBackslash _ ih =>
      obtain ⟨written, closed, rfl⟩ := ih
      exact ⟨_, (Item.plain noQuote noBackslash).closedAt closed, rfl⟩

/-- The bytes of a literal are those of the characters inside it. -/
theorem closesAfter_iff :
    ClosesAfter q cs value bytes ↔ ∃ n, Inside q cs value n ∧ byteLength (cs.take n) = bytes := by
  constructor
  · rintro ⟨written, closed, length⟩
    exact ⟨written.length + 1, closed.inside, by rw [closed.take, length]⟩
  · rintro ⟨n, inside, length⟩
    obtain ⟨written, closed, rfl⟩ := inside.exists_closedAt
    exact ⟨written, closed, by rw [← closed.take, length]⟩

/-! ## The literal that a quote opens -/

/-- The number of bytes that a lexeme covers after its first character, before `cs`. -/
def bytesAfter (x : Lexeme) (cs : List Char) : Nat := byteLength (cs.take (x.length - 1))

theorem read_quote (quote : Rule.IsQuote q) (cs : List Char) : read q cs = quoted q cs := by
  rcases quote with rfl | rfl <;> rfl

theorem quoted_of_inside (quote : Rule.IsQuote q) (inside : Inside q cs value n) :
    quoted q cs = ⟨.literal, String.ofList value, n + 1⟩ := by
  rw [quoted, (quoted?_eq_some_iff quote.ne_backslash).mpr inside]

/-- What a quote opens is closed, or an error that covers the rest of the text. -/
theorem quoted_cases (quote : Rule.IsQuote q) (cs : List Char) :
    (∃ value n, Inside q cs value n ∧ quoted q cs = ⟨.literal, String.ofList value, n + 1⟩) ∨
      (∀ value n, ¬ Inside q cs value n) ∧
        quoted q cs = ⟨.error .unterminatedLiteral, String.ofList (q :: cs), cs.length + 1⟩ := by
  by_cases closed : ∃ value n, Inside q cs value n
  · obtain ⟨value, n, inside⟩ := closed
    exact Or.inl ⟨value, n, inside, quoted_of_inside quote inside⟩
  · have opened : ∀ value n, ¬ Inside q cs value n := fun value n inside =>
      closed ⟨value, n, inside⟩
    refine Or.inr ⟨opened, ?_⟩
    cases read : quoted? q cs with
    | none => rw [quoted, read]
    | some pair =>
        exact absurd ((quoted?_eq_some_iff quote.ne_backslash).mp read) (opened pair.1 pair.2)

theorem quoted_eq_literal_iff (quote : Rule.IsQuote q) (text : String) :
    (quoted q cs).kind = .literal ∧ (quoted q cs).text = text ∧
        (quoted q cs).bytesAfter cs = bytes ↔
      ClosesAfter q cs text.toList bytes := by
  rw [closesAfter_iff]
  constructor
  · rintro ⟨kind, rfl, length⟩
    rcases quoted_cases quote cs with ⟨value, n, inside, literal⟩ | ⟨-, opened⟩
    · rw [literal] at length ⊢
      exact ⟨n, by simpa using inside, length⟩
    · rw [opened] at kind
      cases kind
  · rintro ⟨n, inside, length⟩
    rw [quoted_of_inside quote inside, String.ofList_toList]
    exact ⟨rfl, rfl, length⟩

theorem quoted_eq_unterminated_iff (quote : Rule.IsQuote q) :
    (quoted q cs).kind = .error .unterminatedLiteral ∧
        (quoted q cs).text = String.ofList (q :: cs) ∧
        (quoted q cs).bytesAfter cs = byteLength cs ↔
      ∀ value bytes, ¬ ClosesAfter q cs value bytes := by
  constructor
  · rintro ⟨kind, -, -⟩ value bytes closes
    obtain ⟨n, inside, -⟩ := closesAfter_iff.mp closes
    rw [quoted_of_inside quote inside] at kind
    cases kind
  · intro opened
    rcases quoted_cases quote cs with ⟨value, n, inside, -⟩ | ⟨-, error⟩
    · exact absurd (closesAfter_iff.mpr ⟨n, inside, rfl⟩) (opened value _)
    · rw [error]
      exact ⟨rfl, rfl, by simp [bytesAfter]⟩

/-! ## Spellings -/

/-- The spellings of a value inside a literal quoted with `q`. A quote is doubled or escaped, a
backslash is doubled, and a pipe may be escaped; every other character stands for itself. -/
inductive Spells (q : Char) : (value written : List Char) → Prop
  | nil : Spells q [] []
  | doubledQuote {value written : List Char} : Spells q value written →
    Spells q (q :: value) (q :: q :: written)
  | escapedQuote {value written : List Char} : Spells q value written →
    Spells q (q :: value) ('\\' :: q :: written)
  | backslash {value written : List Char} : Spells q value written →
    Spells q ('\\' :: value) ('\\' :: '\\' :: written)
  | escapedPipe {value written : List Char} : Spells q value written →
    Spells q ('|' :: value) ('\\' :: '|' :: written)
  | plain {c : Char} {value written : List Char} : c ≠ q → c ≠ '\\' → Spells q value written →
    Spells q (c :: value) (c :: written)

/-- A spelling is a sequence of items that means its value, whatever follows. -/
theorem Spells.items (spells : Spells q value written) (next : List Char) :
    Items q written value next := by
  induction spells with
  | nil => exact .nil
  | doubledQuote _ ih => exact .cons .doubled ih
  | escapedQuote _ ih => exact .cons (.escaped (Or.inl rfl)) ih
  | backslash _ ih => exact .cons (.escaped (Or.inr (Or.inr rfl))) ih
  | escapedPipe _ ih => exact .cons (.escaped (Or.inr (Or.inl rfl))) ih
  | plain noQuote noBackslash _ ih => exact .cons (.plain noQuote noBackslash) ih

/-- Between quotes a spelling is one token, and the text after it is read for itself. -/
theorem Spells.tokensFrom_eq (quote : Rule.IsQuote q) (spells : Spells q value written)
    (single : rest.head? ≠ some q) (offset : Nat) :
    tokensFrom offset 0 (q :: (written ++ q :: rest)) =
      ⟨.literal, String.ofList value,
          .ofOffsets offset (offset + byteLength (q :: (written ++ [q])))⟩ ::
        tokensFrom (offset + byteLength (q :: (written ++ [q]))) 0 rest := by
  have visible : isSeparator q = false := by
    rcases quote with rfl | rfl <;> rfl
  have literal : read q ((written ++ [q]) ++ rest) =
      ⟨.literal, String.ofList value, (written ++ [q]).length + 1⟩ := by
    rw [read_quote quote, List.append_assoc, List.singleton_append, List.length_append,
      quoted_of_inside quote ((spells.items _).inside single)]
    rfl
  have tokens := tokensFrom_lexeme visible offset (congrArg Lexeme.length literal)
  rw [literal, List.append_assoc, List.singleton_append] at tokens
  rw [tokens, place, List.take_of_length_le (Nat.le_of_eq (by rfl))]

end Lexeme

/-- What a quote opens is read item by item: a backslash before the quote, a pipe or a backslash
means that character and every other backslash itself, a doubled quote means the quote, and every
other character itself. It is a literal with a meaning and a number of bytes exactly when items with
that meaning, and then a quote that is not doubled, make up those bytes; without such a quote it is
an error up to the end of the text. So every spelling of a value, between quotes and with no further
quote after it, is one literal that means the value. -/
theorem quoted_itemwise {q : Char} (quote : Lexeme.Rule.IsQuote q) :
    (∀ (cs : List Char) (value : String) (bytes : Nat),
      (Lexeme.quoted q cs).kind = .literal ∧ (Lexeme.quoted q cs).text = value ∧
          (Lexeme.quoted q cs).bytesAfter cs = bytes ↔
        Lexeme.ClosesAfter q cs value.toList bytes) ∧
    (∀ cs : List Char,
      (Lexeme.quoted q cs).kind = .error .unterminatedLiteral ∧
          (Lexeme.quoted q cs).text = String.ofList (q :: cs) ∧
          (Lexeme.quoted q cs).bytesAfter cs = byteLength cs ↔
        ∀ value bytes, ¬ Lexeme.ClosesAfter q cs value bytes) ∧
    ∀ (text value : String) (before written rest : List Char),
      text.toList = before ++ q :: (written ++ q :: rest) →
      Boundary before (q :: (written ++ q :: rest)) → Lexeme.Spells q value.toList written →
      rest.head? ≠ some q →
        ∃ earlier, tokensOf text = earlier ++
          ⟨.literal, value, .ofOffsets (byteLength before)
            (byteLength before + byteLength (q :: (written ++ [q])))⟩ ::
          tokensFrom (byteLength before + byteLength (q :: (written ++ [q]))) 0 rest := by
  refine ⟨fun cs value bytes => Lexeme.quoted_eq_literal_iff quote value,
    fun cs => Lexeme.quoted_eq_unterminated_iff quote, ?_⟩
  intro text value before written rest split boundary spells single
  obtain ⟨earlier, whole, -⟩ := boundary.tokensFrom_left 0
  refine ⟨earlier, ?_⟩
  rw [tokensOf, split, whole, Nat.zero_add, spells.tokensFrom_eq quote single, String.ofList_toList]

/-- Every kind of item in a closed literal, a doubled quote that closes nothing, and a spelling in a
text. -/
theorem quoted_itemwise_escapes :
    Lexeme.ClosesAfter '\'' "é''\\|\\x' k".toList "é'|\\x".toList 9 ∧
      (∀ value bytes, ¬ Lexeme.ClosesAfter '\'' "a''".toList value bytes) ∧
      ⟨.literal, "é'\\", 2, 10⟩ ∈ tokensOf "k 'é\\'\\\\' x" := by
  obtain ⟨closes, opened, spelled⟩ := quoted_itemwise (q := '\'') (Or.inl rfl)
  refine ⟨(closes _ "é'|\\x" 9).mp (by decide), (opened _).mp (by decide), ?_⟩
  obtain ⟨earlier, tokens⟩ := spelled "k 'é\\'\\\\' x" "é'\\" ['k', ' ']
    ['é', '\\', '\'', '\\', '\\'] [' ', 'x'] (by decide)
    (.lexeme (w := []) (by decide) (by decide) (.separator (by decide) .start))
    (.plain (by decide) (by decide) (.escapedQuote (.backslash .nil))) (by decide)
  rw [tokens]
  exact List.mem_append_right _ List.mem_cons_self

end StreamLang
