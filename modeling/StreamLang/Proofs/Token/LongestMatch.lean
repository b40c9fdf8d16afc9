import StreamLang.Proofs.Token.Split

/-!
Tokens as longest matches.

The lexer is given by rules, each of which matches some of the texts that stand at a place
(`Lexeme.Rule.Matches`). A rule wins at a place when it matches the most characters there, and a
label goes before an identifier and an identifier before a bare literal of the same length
(`Lexeme.Rule.Wins`). `Lexeme.Lexes` says what a token is by these rules, and `Lexeme.lexes_read` that
every lexeme is one. There is one exception to the rules, a label before a wide blank: it is an
identifier whose text keeps the colon.
-/

namespace StreamLang

namespace Lexeme

/-! ## Rules -/

/-- What the lexer looks for. -/
inductive Rule where
  | pipe
  | doubleDash
  | equals
  | gt
  /-- A literal between single or double quotes. -/
  | quoted
  | identifier
  | label
  | destination
  /-- A literal without quotes. -/
  | bare
  deriving DecidableEq, Repr

namespace Rule

/-- The kind of the tokens that the rule makes. -/
def kind : Rule → TokenKind
  | .pipe => .pipe
  | .doubleDash => .doubleDash
  | .equals => .equals
  | .gt => .gt
  | .quoted | .bare => .literal
  | .identifier => .identifier
  | .label => .label
  | .destination => .destination

/-- Among matches of the same length the rule of the highest rank wins. -/
def rank : Rule → Nat
  | .label => 2
  | .identifier => 1
  | _ => 0

/-- A single or a double quote. -/
def IsQuote (c : Char) : Prop := c = '\'' ∨ c = '"'

theorem IsQuote.ne_backslash {q : Char} (quote : IsQuote q) : q ≠ '\\' := by
  rcases quote with rfl | rfl <;> decide

/-- The rule matches the characters `w` before `rest`, and the token they make has the text. What
follows matters to a quoted literal only: its closing quote is one that is not doubled. -/
inductive Matches : Rule → (w rest : List Char) → (text : String) → Prop
  | pipe {rest : List Char} : Matches .pipe ['|'] rest "|"
  | doubleDash {rest : List Char} : Matches .doubleDash ['-', '-'] rest "--"
  | equals {rest : List Char} : Matches .equals ['='] rest "="
  | gt {rest : List Char} : Matches .gt ['>'] rest ">"
  | quoted {q : Char} {w rest value : List Char} :
    IsQuote q → Inside q (w ++ rest) value w.length →
    Matches .quoted (q :: w) rest (String.ofList value)
  | identifier {w rest : List Char} : isName w = true →
    Matches .identifier w rest (String.ofList w)
  | label {w rest : List Char} : isName w = true →
    Matches .label (w ++ [':']) rest (String.ofList w)
  | destination {w rest : List Char} : isName w = true →
    Matches .destination (':' :: w) rest (String.ofList w)
  | bare {c : Char} {w rest : List Char} : c ≠ '-' → c ≠ ':' → (∀ d ∈ c :: w, isBare d = true) →
    Matches .bare (c :: w) rest (String.ofList (c :: w))

/-- The rule matches at a place, and no rule matches more there, nor as much with a higher rank. -/
structure Wins (r : Rule) (w rest : List Char) (text : String) : Prop where
  fits : r.Matches w rest text
  longest : ∀ {r' : Rule} {w' rest' : List Char} {text' : String}, w' ++ rest' = w ++ rest →
    r'.Matches w' rest' text' →
      w'.length < w.length ∨ w'.length = w.length ∧ r'.rank ≤ r.rank

/-- No rule matches at the start of the characters. -/
def NoMatch (cs : List Char) : Prop :=
  ∀ (r : Rule) (w rest : List Char) (text : String), w ++ rest = cs → ¬ r.Matches w rest text

end Rule

/-- Whether the text is at its end or goes on with anything but a blank outside ASCII. -/
def NarrowNext (rest : List Char) : Prop :=
  ∀ c ∈ rest.head?, isBlank c = true → c.toNat < 0x80

/-- The characters `w` before `rest` make a token of the kind, with the text. -/
inductive Lexes : (w rest : List Char) → TokenKind → (text : String) → Prop
  | rule {r : Rule} {w rest : List Char} {text : String} : r.Wins w rest text →
    (r = .label → NarrowNext rest) → Lexes w rest r.kind text
  /-- A label before a wide blank counts as an identifier, and keeps its colon. -/
  | halfLabel {w rest : List Char} {text : String} : Rule.label.Wins w rest text →
    ¬ NarrowNext rest → Lexes w rest .identifier (String.ofList w)
  /-- A quote that opens a literal without end. -/
  | unterminated {q : Char} {w : List Char} : Rule.IsQuote q → Rule.NoMatch (q :: w) →
    Lexes (q :: w) [] (.error .unterminatedLiteral) (String.ofList (q :: w))
  | unexpected {c : Char} {rest : List Char} : ¬ Rule.IsQuote c → Rule.NoMatch (c :: rest) →
    Lexes [c] rest (.error .unexpectedCharacter) (String.ofList [c])

/-! ## Where a rule can match -/

namespace Rule

/-- Whether a match of the rule can start with the character. -/
def starts : Rule → Char → Bool
  | .pipe, c => c == '|'
  | .doubleDash, c => c == '-'
  | .equals, c => c == '='
  | .gt, c => c == '>'
  | .quoted, c => c == '\'' || c == '"'
  | .identifier, c | .label, c => isLetter c
  | .destination, c => c == ':'
  | .bare, c => isBare c && c != '-' && c != ':'

variable {r : Rule} {c : Char} {cs w rest : List Char} {text : String}

theorem starts_of_isName (name : isName w = true) (split : w ++ rest = c :: cs) :
    isLetter c = true := by
  cases w with
  | nil => cases name
  | cons d w =>
      cases (List.cons.inj split).1
      exact (isName_cons.mp name).1

theorem Matches.starts (fits : r.Matches w rest text) (split : w ++ rest = c :: cs) :
    r.starts c = true := by
  cases fits with
  | pipe | doubleDash | equals | gt | destination =>
      cases (List.cons.inj split).1
      rfl
  | quoted quote =>
      cases (List.cons.inj split).1
      rcases quote with rfl | rfl <;> rfl
  | identifier name => exact starts_of_isName name split
  | label name => exact starts_of_isName name ((List.append_assoc ..).symm.trans split)
  | bare dash colon all =>
      cases (List.cons.inj split).1
      simp [Rule.starts, dash, colon, all]

/-- A rule wins when no other rule can start there and it matches no further. -/
theorem wins_of_starts (fits : r.Matches (c :: w) rest text)
    (only : ∀ r' : Rule, r'.starts c = true → r' = r)
    (longest : ∀ {w' rest' : List Char} {text' : String}, w' ++ rest' = c :: (w ++ rest) →
      r.Matches w' rest' text' → w'.length ≤ w.length + 1) :
    r.Wins (c :: w) rest text := by
  refine ⟨fits, ?_⟩
  intro r' w' rest' text' split fits'
  have same := only r' (fits'.starts split)
  subst same
  have bound := longest split fits'
  rw [List.length_cons]
  omega

theorem noMatch_of_starts (none : ∀ r : Rule, r.starts c = false) : NoMatch (c :: cs) := by
  intro r w rest text split fits
  have starts := fits.starts split
  rw [none r] at starts
  cases starts

/-- No match starts with a blank. -/
theorem starts_of_isBlank (blank : isBlank c = true) (r : Rule) : r.starts c = false := by
  have special : ∀ d : Char, isBlank d = false → (c == d) = false := by
    intro d visible
    refine beq_eq_false_iff_ne.mpr fun same => ?_
    rw [← same, blank] at visible
    cases visible
  cases r with
  | pipe => exact special '|' rfl
  | doubleDash => exact special '-' rfl
  | equals => exact special '=' rfl
  | gt => exact special '>' rfl
  | quoted =>
      rw [starts, special '\'' rfl, special '"' rfl]
      rfl
  | identifier | label =>
      cases letter : isLetter c with
      | false => exact letter
      | true =>
          have bare := isBare_of_isNameChar (isNameChar_of_isLetter letter)
          simp [isBare, blank] at bare
  | destination => exact special ':' rfl
  | bare => simp [starts, isBare, blank]

end Rule

/-! ## Runs -/

section Runs

variable {c : Char} {w rest : List Char}

theorem length_le_takeWhile {p : Char → Bool} {cs w rest : List Char} (split : w ++ rest = cs)
    (all : ∀ d ∈ w, p d = true) : w.length ≤ (cs.takeWhile p).length := by
  subst split
  rw [List.takeWhile_append_of_pos all, List.length_append]
  omega

/-- Where a run of bare characters starts, a rule matches bare characters only. -/
theorem Rule.Matches.bare_of_starts {r : Rule} {cs w' rest' : List Char} {text' : String}
    (bare : Rule.bare.starts c = true) (split : w' ++ rest' = c :: cs)
    (fits : r.Matches w' rest' text') :
    (r = .identifier ∨ r = .label ∨ r = .bare) ∧ ∀ d ∈ w', isBare d = true := by
  simp only [Rule.starts, Bool.and_eq_true, bne_iff_ne] at bare
  have special : ∀ d : Char, isBare d = false → d ≠ c := by
    intro d delimiter same
    rw [same, bare.1.1] at delimiter
    cases delimiter
  cases fits with
  | pipe => exact absurd (List.cons.inj split).1 (special '|' rfl)
  | equals => exact absurd (List.cons.inj split).1 (special '=' rfl)
  | gt => exact absurd (List.cons.inj split).1 (special '>' rfl)
  | doubleDash => exact absurd (List.cons.inj split).1.symm bare.1.2
  | destination => exact absurd (List.cons.inj split).1.symm bare.2
  | quoted quote =>
      rcases quote with rfl | rfl
      · exact absurd (List.cons.inj split).1 (special '\'' rfl)
      · exact absurd (List.cons.inj split).1 (special '"' rfl)
  | identifier name =>
      exact ⟨Or.inl rfl, fun d member => isBare_of_isNameChar (isNameChar_of_isName name d member)⟩
  | label name =>
      refine ⟨Or.inr (Or.inl rfl), fun d member => ?_⟩
      rcases List.mem_append.mp member with inside | colon
      · exact isBare_of_isNameChar (isNameChar_of_isName name d inside)
      · cases List.mem_singleton.mp colon
        rfl
  | bare _ _ all => exact ⟨Or.inr (Or.inr rfl), all⟩

/-- A rule that matches a whole run wins there, unless another of a higher rank matches it too. -/
theorem Rule.wins_run {r : Rule} {text : String} (fits : r.Matches (c :: w) rest text)
    (bare : Rule.bare.starts c = true) (stop : ∀ d ∈ rest.head?, isBare d = false)
    (rank : ∀ {r' : Rule} {rest' : List Char} {text' : String},
      r'.Matches (c :: w) rest' text' → r'.rank ≤ r.rank) :
    r.Wins (c :: w) rest text := by
  refine ⟨fits, ?_⟩
  intro r' w' rest' text' split fits'
  have inside := (fits'.bare_of_starts bare split).2
  have bound := length_le_takeWhile split inside
  rw [takeWhile_append_of_stop stop] at bound
  have run := (List.takeWhile_prefix (l := c :: w) isBare).length_le
  rcases Nat.lt_or_ge w'.length (c :: w).length with shorter | longer
  · exact Or.inl shorter
  · have same : w'.length = (c :: w).length := by omega
    obtain ⟨rfl, rfl⟩ := List.append_inj split same
    exact Or.inr ⟨same, rank fits'⟩

theorem narrowNext_iff : NarrowNext rest ↔ beforeWideBlank rest = false := by
  unfold NarrowNext beforeWideBlank
  cases rest with
  | nil => simp
  | cons d rest => simp

/-- A maximal run is what the rules for names, labels and bare literals say. -/
theorem lexes_ofRun (bare : Rule.bare.starts c = true) (all : ∀ d ∈ w, isBare d = true)
    (stop : ∀ d ∈ rest.head?, isBare d = false) :
    Lexes (c :: w) rest (ofRun (c :: w) rest).kind (ofRun (c :: w) rest).text := by
  have noColon : ∀ {v : List Char}, c :: w = v ++ [':'] →
      (c :: w).getLast? = some ':' ∧ (c :: w).dropLast = v := by
    intro v split
    rw [split]
    exact ⟨List.getLast?_concat, List.dropLast_concat⟩
  by_cases name : isName (c :: w) = true
  · have wins : Rule.identifier.Wins (c :: w) rest (String.ofList (c :: w)) := by
      refine Rule.wins_run (.identifier name) bare stop ?_
      intro r' rest' text' fits
      generalize run : c :: w = v at fits
      cases fits with
      | label =>
          rw [run, not_isName_colon] at name
          cases name
      | _ => simp [Rule.rank]
    have lexes := Lexes.rule wins (by simp)
    simpa [ofRun, name, Rule.kind] using lexes
  · by_cases labelled : (c :: w).getLast? = some ':' ∧ isName (c :: w).dropLast = true
    · obtain ⟨last, front⟩ := labelled
      have split : c :: w = (c :: w).dropLast ++ [':'] := by
        obtain ⟨v, shown⟩ := List.getLast?_eq_some_iff.mp last
        rw [shown, List.dropLast_concat]
      have fits : Rule.label.Matches (c :: w) rest (String.ofList (c :: w).dropLast) := by
        have label : Rule.label.Matches ((c :: w).dropLast ++ [':']) rest _ := .label front
        rwa [← split] at label
      have wins : Rule.label.Wins (c :: w) rest (String.ofList (c :: w).dropLast) := by
        refine Rule.wins_run fits bare stop ?_
        intro r' rest' text' _
        cases r' <;> decide
      cases wide : beforeWideBlank rest with
      | true =>
          have lexes := Lexes.halfLabel wins (by rw [narrowNext_iff, wide]; simp)
          simpa [ofRun, name, last, front, wide] using lexes
      | false =>
          have lexes := Lexes.rule wins fun _ => narrowNext_iff.mpr wide
          simpa [ofRun, name, last, front, wide, Rule.kind] using lexes
    · have start := bare
      simp only [Rule.starts, Bool.and_eq_true, bne_iff_ne] at start
      have fits : Rule.bare.Matches (c :: w) rest (String.ofList (c :: w)) := by
        refine .bare start.1.2 start.2 ?_
        intro d member
        rcases List.mem_cons.mp member with rfl | later
        · exact start.1.1
        · exact all d later
      have wins : Rule.bare.Wins (c :: w) rest (String.ofList (c :: w)) := by
        refine Rule.wins_run fits bare stop ?_
        intro r' rest' text' fits'
        generalize run : c :: w = v at fits'
        cases fits' with
        | identifier isName => exact absurd (run ▸ isName) name
        | label isName =>
            obtain ⟨last, front⟩ := noColon run
            exact absurd ⟨last, front ▸ isName⟩ labelled
        | _ => simp [Rule.rank]
      have lexes := Lexes.rule wins (by simp)
      simpa [ofRun, name, labelled, Rule.kind] using lexes

end Runs

/-! ## Every lexeme -/

section Lexemes

variable {c : Char} {w rest : List Char}

/-- A character that is a rule by itself. -/
theorem lexes_operator {r : Rule} {text : String} (operator : r = .pipe ∨ r = .equals ∨ r = .gt)
    (fits : r.Matches [c] rest text) : Lexes [c] rest r.kind text := by
  have only : ∀ r' : Rule, r'.starts c = true → r' = r := by
    intro r' starts
    rcases operator with rfl | rfl | rfl <;> cases fits <;> cases r' <;>
      first | rfl | cases starts
  have single : ∀ {w' rest' : List Char} {text' : String}, r.Matches w' rest' text' →
      w'.length ≤ 1 := by
    intro w' rest' text' fits'
    rcases operator with rfl | rfl | rfl <;> cases fits' <;> exact Nat.le_refl 1
  refine .rule (Rule.wins_of_starts fits only fun _ fits' => single fits') ?_
  intro label
  rcases operator with rfl | rfl | rfl <;> cases label

theorem lexes_dash (covered : (read '-' (w ++ rest)).length = w.length + 1) :
    Lexes ('-' :: w) rest (read '-' (w ++ rest)).kind (read '-' (w ++ rest)).text := by
  have only : ∀ r : Rule, r.starts '-' = true → r = .doubleDash := by
    intro r starts
    cases r <;> first | rfl | cases starts
  rw [read_dash] at covered ⊢
  split at covered
  · next second =>
      obtain ⟨d, rfl⟩ := List.length_eq_one_iff.mp (Nat.succ.inj covered).symm
      rw [if_pos second]
      cases second
      refine .rule (r := .doubleDash) (Rule.wins_of_starts .doubleDash only ?_) (by simp)
      intro w' rest' text' _ fits
      cases fits
      simp
  · next second =>
      have empty : w = [] := List.eq_nil_of_length_eq_zero (Nat.succ.inj covered).symm
      subst empty
      rw [if_neg second]
      refine .unexpected (by simp [Rule.IsQuote]) ?_
      intro r w' rest' text split fits
      have same := only r (fits.starts split)
      subst same
      cases fits
      exact second (by rw [← (List.cons.inj split).2]; rfl)

theorem lexes_destination (covered : (destination (w ++ rest)).length = w.length + 1) :
    Lexes (':' :: w) rest (destination (w ++ rest)).kind (destination (w ++ rest)).text := by
  have only : ∀ r : Rule, r.starts ':' = true → r = .destination := by
    intro r starts
    cases r <;> first | rfl | cases starts
  by_cases name : isName ((w ++ rest).takeWhile isNameChar) = true
  · have read : destination (w ++ rest) = ⟨.destination,
        String.ofList ((w ++ rest).takeWhile isNameChar),
        ((w ++ rest).takeWhile isNameChar).length + 1⟩ := by
      simp only [destination, name, if_true]
    rw [read, Nat.add_right_cancel_iff] at covered
    obtain ⟨whole, -⟩ := takeWhile_append_congr covered (rfl : rest.head? = rest.head?)
    rw [read, whole]
    rw [whole] at name
    refine .rule (r := .destination) (Rule.wins_of_starts (.destination name) only ?_) (by simp)
    intro w' rest' text' split fits
    cases fits with
    | destination name' =>
        have bound := length_le_takeWhile (List.cons.inj split).2 (isNameChar_of_isName name')
        rw [whole] at bound
        exact Nat.succ_le_succ bound
  · have read : destination (w ++ rest) = unexpected ':' := by
      simp only [destination, name, Bool.false_eq_true, if_false]
    rw [read] at covered ⊢
    have empty : w = [] := List.eq_nil_of_length_eq_zero (Nat.succ.inj covered).symm
    subst empty
    refine .unexpected (by simp [Rule.IsQuote]) ?_
    intro r w' rest' text split fits
    have same := only r (fits.starts split)
    subst same
    cases fits with
    | @destination v _ isName =>
        rw [List.nil_append, isName_takeWhile] at name
        have split' : v ++ rest' = rest := (List.cons.inj split).2
        cases v with
        | nil => cases isName
        | cons d v =>
            rw [← split'] at name
            exact name (isName_cons.mp isName).1

theorem lexes_quoted {q : Char} (quote : Rule.IsQuote q)
    (covered : (quoted q (w ++ rest)).length = w.length + 1) :
    Lexes (q :: w) rest (quoted q (w ++ rest)).kind (quoted q (w ++ rest)).text := by
  have plain := quote.ne_backslash
  have only : ∀ r : Rule, r.starts q = true → r = .quoted := by
    intro r starts
    rcases quote with rfl | rfl <;> cases r <;> first | rfl | cases starts
  cases read : quoted? q (w ++ rest) with
  | some pair =>
      obtain ⟨value, n⟩ := pair
      simp only [quoted, read, Nat.add_right_cancel_iff] at covered ⊢
      subst covered
      have inside := (quoted?_eq_some_iff plain).mp read
      refine .rule (r := .quoted) (Rule.wins_of_starts (.quoted quote inside) only ?_) (by simp)
      intro w' rest' text' split fits
      cases fits with
      | @quoted _ v _ _ _ inside' =>
          obtain ⟨rfl, split'⟩ := List.cons.inj split
          have tail : v ++ rest' = w ++ rest := split'
          rw [tail] at inside'
          have read' := (quoted?_eq_some_iff plain).mpr inside'
          rw [read] at read'
          have same : w.length = v.length := (Prod.mk.inj (Option.some.inj read')).2
          rw [List.length_cons, same]
  | none =>
      simp only [quoted, read, List.length_append] at covered ⊢
      have empty : rest = [] := List.eq_nil_of_length_eq_zero (by omega)
      subst empty
      rw [List.append_nil] at read ⊢
      refine .unterminated quote ?_
      intro r w' rest' text split fits
      have same := only r (fits.starts split)
      subst same
      cases fits with
      | @quoted _ v _ _ _ inside =>
          obtain ⟨rfl, split'⟩ := List.cons.inj split
          have tail : v ++ rest' = w := split'
          rw [tail] at inside
          rw [(quoted?_eq_some_iff plain).mpr inside] at read
          cases read

/-- Every lexeme is a token by the rules. -/
theorem lexes_read (visible : isSeparator c = false)
    (covered : (read c (w ++ rest)).length = w.length + 1) :
    Lexes (c :: w) rest (read c (w ++ rest)).kind (read c (w ++ rest)).text := by
  fun_cases read c (w ++ rest) with
  | case1 =>
      obtain rfl := List.eq_nil_of_length_eq_zero (Nat.succ.inj covered).symm
      exact lexes_operator (Or.inl rfl) .pipe
  | case2 =>
      obtain rfl := List.eq_nil_of_length_eq_zero (Nat.succ.inj covered).symm
      exact lexes_operator (Or.inr (Or.inl rfl)) .equals
  | case3 =>
      obtain rfl := List.eq_nil_of_length_eq_zero (Nat.succ.inj covered).symm
      exact lexes_operator (Or.inr (Or.inr rfl)) .gt
  | case4 second =>
      have lexes := lexes_dash covered
      rwa [read_dash, if_pos second] at lexes
  | case5 single =>
      have lexes := lexes_dash covered
      rwa [read_dash, if_neg single] at lexes
  | case6 => exact lexes_destination covered
  | case7 => exact lexes_quoted (Or.inl rfl) covered
  | case8 => exact lexes_quoted (Or.inr rfl) covered
  | case9 _ _ _ _ _ _ single double blank =>
      rw [read_blank blank] at covered
      obtain rfl := List.eq_nil_of_length_eq_zero (Nat.succ.inj covered).symm
      have text : c.toString = String.ofList [c] := rfl
      rw [unexpected, text]
      refine .unexpected ?_ (Rule.noMatch_of_starts fun r => Rule.starts_of_isBlank blank r)
      rintro (rfl | rfl)
      · exact single rfl
      · exact double rfl
  | case10 _ pipe equals gt dash colon single double visible =>
      have bare := isBare_of_ne visible pipe single double equals gt
      rw [read_run bare dash colon, length_ofRun, List.length_cons,
        Nat.add_right_cancel_iff] at covered
      obtain ⟨run, -, after, -⟩ := takeWhile_append_congr covered (rfl : rest.head? = rest.head?)
      obtain ⟨all, stop⟩ := passed_of_takeWhile run
      rw [run, after]
      have starts : Rule.bare.starts c = true := by
        simp only [Rule.starts, bare, Bool.true_and, Bool.and_eq_true, bne_iff_ne]
        exact ⟨dash, colon⟩
      exact lexes_ofRun starts all stop

/-- A rule that wins at a letter matches up to the next blank or delimiter. -/
theorem Rule.Wins.run_of_isLetter {r : Rule} {text : String} (wins : r.Wins (c :: w) rest text)
    (letter : isLetter c = true) :
    (∀ d ∈ c :: w, isBare d = true) ∧ ∀ d ∈ rest.head?, isBare d = false := by
  have first : isBare c = true := isBare_of_isNameChar (isNameChar_of_isLetter letter)
  have dash : c ≠ '-' := by
    rintro rfl
    cases letter
  have colon : c ≠ ':' := by
    rintro rfl
    cases letter
  have starts : Rule.bare.starts c = true := by simp [Rule.starts, first, dash, colon]
  have inside := (wins.fits.bare_of_starts starts rfl).2
  -- A bare literal matches the whole run, and so the winner does.
  have fits : Rule.bare.Matches (c :: (w ++ rest).takeWhile isBare) ((w ++ rest).dropWhile isBare)
      (String.ofList (c :: (w ++ rest).takeWhile isBare)) := by
    refine .bare dash colon fun d member => ?_
    rcases List.mem_cons.mp member with rfl | later
    · exact first
    · exact List.mem_takeWhile_imp later
  have bound : (c :: (w ++ rest).takeWhile isBare).length ≤ (c :: w).length := by
    rcases wins.longest (by simp) fits with shorter | ⟨same, -⟩ <;> omega
  have whole : (c :: w ++ rest).takeWhile isBare = c :: w := by
    rw [List.cons_append, List.takeWhile_cons_of_pos first]
    refine (List.IsPrefix.eq_of_length_le ?_ bound).symm
    have taken := List.takeWhile_prefix (l := c :: w ++ rest) isBare
    rw [List.cons_append, List.takeWhile_cons_of_pos first] at taken
    refine List.prefix_of_prefix_length_le (List.prefix_append (c :: w) rest) taken ?_
    have least := length_le_takeWhile (rfl : c :: w ++ rest = _) inside
    rwa [List.cons_append, List.takeWhile_cons_of_pos first] at least
  exact passed_of_takeWhile whole

/-- A token that starts with a letter goes on to the next blank or delimiter. -/
theorem Lexes.run_of_isLetter {kind : TokenKind} {text : String}
    (lexes : Lexes (c :: w) rest kind text) (letter : isLetter c = true) :
    (∀ d ∈ c :: w, isBare d = true) ∧ ∀ d ∈ rest.head?, isBare d = false := by
  have some : ∀ {cs : List Char}, ¬ Rule.NoMatch (c :: cs) := by
    intro cs none
    have name : isName [c] = true := by simp [isName, letter]
    exact none .identifier [c] cs _ rfl (.identifier name)
  cases lexes with
  | rule wins => exact wins.run_of_isLetter letter
  | halfLabel wins => exact wins.run_of_isLetter letter
  | unterminated _ none => exact absurd none some
  | unexpected _ none => exact absurd none some

theorem Lexes.kind_ne_eof {kind : TokenKind} {text : String} (lexes : Lexes w rest kind text) :
    kind ≠ .eof := by
  cases lexes with
  | @rule r => cases r <;> simp [Rule.kind]
  | _ => simp

end Lexemes

end Lexeme

/-! ## Tokens of a text -/

section Tokens

variable {offset : Nat} {cs : List Char} {t : Token} {text : String}

/-- A token covers characters of the text that make a token by the rules. -/
theorem exists_slice_of_mem_tokensFrom (small : offset + byteLength cs ≤ Span.limit)
    (member : t ∈ tokensFrom offset 0 cs) :
    ∃ pre w rest, cs = pre ++ (w ++ rest) ∧ t.start = offset + byteLength pre ∧
      t.stop = t.start + byteLength w ∧ w ≠ [] ∧ Lexeme.Lexes w rest t.kind t.text := by
  obtain ⟨before, after, tokens⟩ := List.append_of_mem member
  obtain ⟨pre, c, post, rfl, -, visible, -, right⟩ := exists_boundary_of_tokensFrom tokens
  obtain ⟨w, rest, rfl, covered, rfl, -⟩ := exists_lexeme_of_tokensFrom visible right
  refine ⟨pre, c :: w, rest, rfl, ?_, ?_, List.cons_ne_nil c w,
    Lexeme.lexes_read visible covered⟩
  · simp only [byteLength_append, byteLength_cons] at small
    simp only [Lexeme.place, Token.start, Span.ofOffsets]
    omega
  · simp only [byteLength_append, byteLength_cons] at small
    simp only [Lexeme.place, Token.start, Token.stop, Span.ofOffsets, covered]
    rw [List.take_of_length_le (by simp)]
    simp only [byteLength_cons]
    omega

/-- A byte that no token covers belongs to a separator. -/
theorem isSeparator_of_uncovered (small : offset + byteLength cs ≤ Span.limit) {pre post : List Char}
    {c : Char} (split : cs = pre ++ c :: post) {b : Nat} (first : offset + byteLength pre ≤ b)
    (last : b < offset + byteLength pre + c.utf8Size)
    (uncovered : ∀ t ∈ tokensFrom offset 0 cs, ¬ (t.start ≤ b ∧ b < t.stop)) :
    isSeparator c = true := by
  induction cs using lexemeInduction generalizing offset pre with
  | nil => simp at split
  | separator d cs separator ih =>
      rw [tokensFrom_separator separator] at uncovered
      cases pre with
      | nil =>
          cases (List.cons.inj split).1
          exact separator
      | cons d' pre =>
          obtain ⟨rfl, split'⟩ := List.cons.inj split
          simp only [byteLength_cons] at small first last
          exact ih (by omega) split' (by omega) (by omega) uncovered
  | lexeme d w rest visible covered ih =>
      rw [tokensFrom_lexeme visible offset covered] at uncovered
      rw [← List.cons_append, byteLength_append] at small
      rw [← List.cons_append] at split
      have others : ∀ t ∈ tokensFrom (offset + byteLength (d :: w)) 0 rest,
          ¬ (t.start ≤ b ∧ b < t.stop) := fun t member =>
        uncovered t (List.mem_cons_of_mem _ member)
      rcases List.append_eq_append_iff.mp split with ⟨front, rfl, split'⟩ | ⟨inside, within, tail⟩
      · rw [byteLength_append] at first last
        exact ih (by omega) split' (by omega) (by omega) others
      · cases inside with
        | nil =>
            rw [List.append_nil] at within
            rw [← within] at first last
            have tail' : rest = [] ++ c :: post := tail.symm
            refine ih (by omega) tail' ?_ ?_ others
            · simpa using first
            · simpa using last
        | cons c' inside =>
            -- The byte lies within the first token.
            exfalso
            obtain ⟨rfl, -⟩ := List.cons.inj tail
            refine uncovered _ List.mem_cons_self ?_
            have covers : offset + byteLength pre + c.utf8Size ≤ offset + byteLength (d :: w) := by
              rw [within, byteLength_append, byteLength_cons]
              omega
            simp only [Lexeme.place, Token.start, Token.stop, Span.ofOffsets, covered]
            rw [List.take_of_length_le (by simp)]
            omega

theorem endOf_eq (small : text.utf8ByteSize ≤ Span.limit) :
    endOf text = ⟨.eof, "", text.utf8ByteSize, text.utf8ByteSize⟩ := by
  rw [endOf, Token.endOfText, byteLength_toList, Span.ofOffsets_of_le (Nat.le_refl _) small]

/-- Every token in a text covers at least one byte of it. -/
theorem span_of_mem_tokensOf (small : text.utf8ByteSize ≤ Span.limit) (member : t ∈ tokensOf text) :
    t.start < t.stop ∧ t.stop ≤ text.utf8ByteSize := by
  have small' : 0 + byteLength text.toList ≤ Span.limit := by simpa using small
  have span := span_of_mem_tokensFrom small' member
  rw [Nat.zero_add, byteLength_toList] at span
  exact span.2

theorem pairwise_tokensOf (small : text.utf8ByteSize ≤ Span.limit) :
    (tokensOf text).Pairwise fun a b => a.stop ≤ b.start :=
  pairwise_tokensFrom (by simpa using small)

/-- The tokens of a text stand one after the other, up to the one for its end. -/
theorem pairwise_tokenize (small : text.utf8ByteSize ≤ Span.limit) :
    (tokenize text).Pairwise fun a b => a.stop ≤ b.start := by
  rw [tokenize, List.pairwise_append]
  refine ⟨pairwise_tokensOf small, List.pairwise_singleton _ _, ?_⟩
  intro a inside b stop
  cases List.mem_singleton.mp stop
  rw [endOf_eq small]
  exact (span_of_mem_tokensOf small inside).2

end Tokens

/-- The tokens of a text. They stand one after the other, none of them empty, up to one for the end
of the text, and the bytes between them belong to separators. Each is what the rules say at its
place: the longest match of all rules, a label before an identifier before a bare literal of the
same length, an error for a quote that is not closed or for a character where no rule matches; only
a label before a wide blank is an identifier that keeps its colon. So a token that starts with a
letter goes on to the next blank or delimiter. -/
theorem tokenize_longestMatch (text : String) (small : text.utf8ByteSize ≤ Span.limit) :
    tokenize text = tokensOf text ++ [⟨.eof, "", text.utf8ByteSize, text.utf8ByteSize⟩] ∧
    (tokenize text).Pairwise (fun a b => a.stop ≤ b.start) ∧
    (∀ t ∈ tokensOf text, t.kind ≠ .eof ∧ t.start < t.stop ∧
      ∃ pre w rest, text.toList = pre ++ (w ++ rest) ∧ t.start = byteLength pre ∧
        t.stop = byteLength pre + byteLength w ∧ Lexeme.Lexes w rest t.kind t.text ∧
        ((∃ c ∈ w.head?, isLetter c = true) →
          (∀ c ∈ w, isBare c = true) ∧ ∀ c ∈ rest.head?, isBare c = false)) ∧
    ∀ (pre post : List Char) (c : Char) (b : Nat), text.toList = pre ++ c :: post →
      byteLength pre ≤ b → b < byteLength pre + c.utf8Size →
      (∀ t ∈ tokensOf text, ¬ (t.start ≤ b ∧ b < t.stop)) → isSeparator c = true := by
  have small' : 0 + byteLength text.toList ≤ Span.limit := by simpa using small
  refine ⟨by rw [tokenize, endOf_eq small], pairwise_tokenize small, ?_, ?_⟩
  · intro t member
    obtain ⟨pre, w, rest, split, start, stop, nonempty, lexes⟩ :=
      exists_slice_of_mem_tokensFrom small' member
    rw [Nat.zero_add] at start
    rw [start] at stop
    refine ⟨lexes.kind_ne_eof, (span_of_mem_tokensFrom small' member).2.1, pre, w, rest, split,
      start, stop, lexes, ?_⟩
    intro letter
    cases w with
    | nil => exact absurd rfl nonempty
    | cons c w => exact lexes.run_of_isLetter (by simpa using letter)
  · intro pre post c b split first bound uncovered
    exact isSeparator_of_uncovered small' split (by omega) (by omega) uncovered

/-- A doubled quote belongs to the literal around it. -/
theorem tokenize_longestMatch_quoted :
    ∃ pre w rest, "k: 'it''s'".toList = pre ++ (w ++ rest) ∧ byteLength pre = 3 ∧
      byteLength w = 7 ∧ Lexeme.Lexes w rest .literal "it's" := by
  obtain ⟨-, -, tokens, -⟩ := tokenize_longestMatch "k: 'it''s'" (by decide)
  obtain ⟨-, -, pre, w, rest, split, start, stop, lexes, -⟩ :=
    tokens ⟨.literal, "it's", 3, 10⟩ (by decide)
  have start' : 3 = byteLength pre := start
  have stop' : 10 = byteLength pre + byteLength w := stop
  exact ⟨pre, w, rest, split, by omega, by omega, lexes⟩

/-- Before a wide blank the rule for labels wins, and the token is an identifier. -/
theorem label_wins_before_wideBlank :
    Lexeme.Rule.label.Wins ['a', ':'] ['\u00a0'] "a" ∧
      tokensOf "a:\u00a0" = [⟨.identifier, "a:", 0, 2⟩,
        ⟨.error .unexpectedCharacter, "\u00a0", 2, 4⟩] := by
  refine ⟨?_, by decide⟩
  have fits : Lexeme.Rule.label.Matches (['a'] ++ [':']) ['\u00a0'] (String.ofList ['a']) :=
    .label rfl
  refine Lexeme.Rule.wins_run fits rfl (by simp [isBare, isBlank]) ?_
  intro r' rest' text' _
  cases r' <;> decide

end StreamLang
