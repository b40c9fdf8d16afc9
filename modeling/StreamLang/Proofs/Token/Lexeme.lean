import Mathlib.Data.List.TakeWhile
import StreamLang.Token.Lexeme

/-!
One lexeme and the text after it.

A lexeme is decided by the characters it covers and the one after them. So reading it again
from a text that goes on with a *break* gives it back (`Lexeme.read_append`), and so does reading
it from a text that ends with it (`Lexeme.read_take`), with one exception: a name that keeps its
colon before a wide blank is a label when nothing follows it (`Lexeme.alone`).
-/

namespace StreamLang

/-! ## Classes -/

theorem toNat_of_isNameChar {c : Char} (h : isNameChar c = true) :
    (0x30 ≤ c.toNat ∧ c.toNat ≤ 0x39) ∨ (0x41 ≤ c.toNat ∧ c.toNat ≤ 0x5A) ∨
      (0x61 ≤ c.toNat ∧ c.toNat ≤ 0x7A) ∨ c.toNat = 0x5F ∨ c.toNat = 0x2E := by
  have spelled : (decide ('A'.val ≤ c.val ∧ c.val ≤ 'Z'.val) || ('a'.val ≤ c.val && c.val ≤ 'z'.val)
      || ('0'.val ≤ c.val && c.val ≤ '9'.val) || c == '_' || c == '.') = true := h
  simp only [Bool.or_eq_true, Bool.and_eq_true, decide_eq_true_eq, beq_iff_eq,
    UInt32.le_iff_toNat_le] at spelled
  rcases spelled with (((upper | lower) | digit) | rfl) | rfl
  · exact Or.inr (Or.inl upper)
  · exact Or.inr (Or.inr (Or.inl lower))
  · exact Or.inl digit
  · decide
  · decide

/-- A name character is no blank and no delimiter. -/
theorem isBare_of_isNameChar {c : Char} (h : isNameChar c = true) : isBare c = true := by
  have range := toNat_of_isNameChar h
  simp only [isBare, isBlank, isDelimiter, Bool.not_eq_true', Bool.or_eq_false_iff,
    Bool.and_eq_false_iff, decide_eq_false_iff_not, beq_eq_false_iff_ne, ne_eq]
  refine ⟨by omega, ⟨⟨⟨?_, ?_⟩, ?_⟩, ?_⟩, ?_⟩ <;> rintro rfl <;> simp at range

theorem isBare_of_ne {c : Char} (visible : ¬ isBlank c = true) (pipe : c ≠ '|') (single : c ≠ '\'')
    (double : c ≠ '"') (equals : c ≠ '=') (gt : c ≠ '>') : isBare c = true := by
  simp only [isBare, isDelimiter, Bool.not_eq_true', Bool.or_eq_false_iff, beq_eq_false_iff_ne]
  exact ⟨Bool.eq_false_iff.mpr visible, ⟨⟨⟨pipe, single⟩, double⟩, equals⟩, gt⟩

theorem isNameChar_of_isLetter {c : Char} (h : isLetter c = true) : isNameChar c = true := by
  simp only [isLetter] at h
  simp [isNameChar, Char.isAlphanum, h]

theorem isSeparator_of_isBare {c : Char} (h : isBare c = true) : isSeparator c = false := by
  cases separator : isSeparator c with
  | false => rfl
  | true => simp [isBare, isBlank_of_isSeparator separator] at h

theorem isName_cons {c : Char} {cs : List Char} :
    isName (c :: cs) = true ↔ isLetter c = true ∧ ∀ d ∈ cs, isNameChar d = true := by
  simp [isName]

theorem ne_nil_of_isName {cs : List Char} (name : isName cs = true) : cs ≠ [] := by
  rintro rfl
  cases name

theorem isNameChar_of_isName {cs : List Char} (name : isName cs = true) :
    ∀ c ∈ cs, isNameChar c = true := by
  cases cs with
  | nil => cases name
  | cons c cs =>
      obtain ⟨letter, rest⟩ := isName_cons.mp name
      intro d member
      rcases List.mem_cons.mp member with rfl | later
      · exact isNameChar_of_isLetter letter
      · exact rest d later

theorem not_isName_colon (cs : List Char) : isName (cs ++ [':']) = false := by
  cases named : isName (cs ++ [':']) with
  | false => rfl
  | true =>
      have colon := isNameChar_of_isName named ':' (by simp)
      cases colon

/-! ## Breaks -/

/-- A break ends every unquoted token before it: a separator, a pipe, an equals sign or an
arrow. -/
def isBreak (c : Char) : Bool :=
  isSeparator c || c == '|' || c == '=' || c == '>'

/-- Whether a text is at its end or goes on with a break. -/
def StartsBreak (rest : List Char) : Prop :=
  ∀ c ∈ rest.head?, isBreak c = true

@[simp] theorem startsBreak_nil : StartsBreak [] := by simp [StartsBreak]

@[simp] theorem startsBreak_cons {c : Char} {cs : List Char} :
    StartsBreak (c :: cs) ↔ isBreak c = true := by simp [StartsBreak]

theorem isBare_of_isBreak {c : Char} (h : isBreak c = true) : isBare c = false := by
  simp only [isBreak, Bool.or_eq_true, beq_iff_eq] at h
  rcases h with ((separator | rfl) | rfl) | rfl
  · simp [isBare, isBlank_of_isSeparator separator]
  · decide
  · decide
  · decide

theorem isNameChar_of_isBreak {c : Char} (h : isBreak c = true) : isNameChar c = false := by
  cases named : isNameChar c with
  | false => rfl
  | true =>
      have bare := isBare_of_isNameChar named
      rw [isBare_of_isBreak h] at bare
      cases bare

/-- Breaks are ASCII characters. -/
theorem toNat_of_isBreak {c : Char} (h : isBreak c = true) : c.toNat < 0x80 := by
  simp only [isBreak, isSeparator, Bool.or_eq_true, beq_iff_eq] at h
  rcases h with ((((((rfl | rfl) | rfl) | rfl) | rfl) | rfl) | rfl) | rfl <;> decide

section Scanning

variable {p : Char → Bool} {cs ds : List Char}

/-- A scan does not go past a text whose successor stops it. -/
theorem takeWhile_append_of_stop (stop : ∀ d ∈ ds.head?, p d = false) :
    (cs ++ ds).takeWhile p = cs.takeWhile p := by
  induction cs with
  | nil =>
      cases ds with
      | nil => rfl
      | cons d ds => simp [stop d (by simp)]
  | cons c cs ih => simp only [List.cons_append, List.takeWhile_cons, ih]

theorem dropWhile_append_of_stop (stop : ∀ d ∈ ds.head?, p d = false) :
    (cs ++ ds).dropWhile p = cs.dropWhile p ++ ds := by
  induction cs with
  | nil =>
      cases ds with
      | nil => rfl
      | cons d ds => simp [stop d (by simp)]
  | cons c cs ih =>
      simp only [List.cons_append, List.dropWhile_cons, ih]
      split <;> rfl

theorem take_length_takeWhile : cs.take (cs.takeWhile p).length = cs.takeWhile p :=
  (List.prefix_iff_eq_take.mp (List.takeWhile_prefix p)).symm

theorem drop_length_takeWhile : cs.drop (cs.takeWhile p).length = cs.dropWhile p := by
  induction cs with
  | nil => rfl
  | cons c cs ih =>
      cases passes : p c with
      | true => simpa [passes] using ih
      | false => simp [passes]

theorem dropWhile_takeWhile : (cs.takeWhile p).dropWhile p = [] :=
  List.dropWhile_eq_nil_iff.mpr fun _ member => List.mem_takeWhile_imp member

end Scanning

namespace Lexeme

/-! ## Quoted literals -/

/-- Whether a backslash before the character means the character, inside a literal quoted with
`q`. -/
def Escapes (q d : Char) : Prop := d = q ∨ d = '|' ∨ d = '\\'

/-- The inside of a literal quoted with `q`, before the rest of a text: what it means, and the number
of characters up to and with the closing quote. -/
inductive Inside (q : Char) : List Char → List Char → Nat → Prop
  | close {cs : List Char} : cs.head? ≠ some q → Inside q (q :: cs) [] 1
  | doubled {cs value : List Char} {n : Nat} : Inside q cs value n →
    Inside q (q :: q :: cs) (q :: value) (n + 2)
  | escaped {d : Char} {cs value : List Char} {n : Nat} : Escapes q d → Inside q cs value n →
    Inside q ('\\' :: d :: cs) (d :: value) (n + 2)
  | backslash {cs value : List Char} {n : Nat} : (∀ d ∈ cs.head?, ¬ Escapes q d) →
    Inside q cs value n → Inside q ('\\' :: cs) ('\\' :: value) (n + 1)
  | plain {c : Char} {cs value : List Char} {n : Nat} : c ≠ q → c ≠ '\\' → Inside q cs value n →
    Inside q (c :: cs) (c :: value) (n + 1)

/-- Reading a literal finds what its inside is. -/
theorem quoted?_eq_some_iff {q : Char} {cs value : List Char} {n : Nat} (quote : q ≠ '\\') :
    quoted? q cs = some (value, n) ↔ Inside q cs value n := by
  constructor
  · intro closed
    fun_induction quoted? q cs generalizing value n with
    | case1 => cases closed
    | case2 d cs escaped ih =>
        obtain ⟨⟨inner, m⟩, read, pair⟩ := Option.map_eq_some_iff.mp closed
        cases pair
        exact .escaped escaped (ih read)
    | case3 d cs kept ih =>
        obtain ⟨⟨inner, m⟩, read, pair⟩ := Option.map_eq_some_iff.mp closed
        cases pair
        exact .backslash (by simpa [Escapes] using kept) (ih read)
    | case4 cs _ ih =>
        obtain ⟨⟨inner, m⟩, read, pair⟩ := Option.map_eq_some_iff.mp closed
        cases pair
        exact .doubled (ih read)
    | case5 d cs different =>
        cases closed
        exact .close (by simpa using different)
    | case6 c d cs other apart ih =>
        obtain ⟨⟨inner, m⟩, read, pair⟩ := Option.map_eq_some_iff.mp closed
        cases pair
        exact .plain apart other (ih read)
    | case7 =>
        cases closed
        exact .close (by simp)
    | case8 => cases closed
  · intro inside
    induction inside with
    | @close cs single =>
        cases cs with
        | nil => simp [quoted?]
        | cons d cs =>
            have different : d ≠ q := by simpa using single
            simp [quoted?, different]
    | doubled _ ih => simp [quoted?, ih]
    | escaped escapes _ ih =>
        rw [Escapes] at escapes
        rw [quoted?, if_pos escapes, ih]
        rfl
    | @backslash cs value n verbatim inside ih =>
        cases cs with
        | nil => cases inside
        | cons d cs =>
            have kept := verbatim d rfl
            rw [Escapes] at kept
            rw [quoted?, if_neg kept, ih]
            rfl
    | @plain c cs value n noQuote noBackslash inside ih =>
        cases cs with
        | nil => cases inside
        | cons d cs => simp [quoted?, noQuote, ih]

/-- A closed literal has at least its closing quote, and lies within the text. -/
theorem Inside.length {q : Char} {cs value : List Char} {n : Nat} (inside : Inside q cs value n) :
    0 < n ∧ n ≤ cs.length := by
  induction inside <;> simp only [List.length_cons] <;> omega

/-- A closed literal stays as it is when the text goes on, unless its closing quote is doubled
there. -/
theorem Inside.append {q : Char} {cs value rest : List Char} {n : Nat}
    (inside : Inside q cs value n) (single : rest.head? ≠ some q) :
    Inside q (cs ++ rest) value n := by
  induction inside with
  | @close cs alone =>
      refine .close ?_
      cases cs with
      | nil => exact single
      | cons d cs => exact alone
  | doubled _ ih => exact .doubled ih
  | escaped escapes _ ih => exact .escaped escapes ih
  | @backslash cs value n verbatim inside ih =>
      refine .backslash ?_ ih
      cases cs with
      | nil => cases inside
      | cons d cs => exact verbatim
  | plain noQuote noBackslash _ ih => exact .plain noQuote noBackslash ih

/-- A closed literal is read to its closing quote and no further. -/
theorem Inside.take {q : Char} {cs value : List Char} {n : Nat} (inside : Inside q cs value n) :
    Inside q (cs.take n) value n := by
  induction inside with
  | close => exact .close (by simp)
  | doubled _ ih => exact .doubled ih
  | escaped escapes _ ih => exact .escaped escapes ih
  | @backslash cs value n verbatim inside ih =>
      refine .backslash ?_ ih
      cases cs with
      | nil => cases inside
      | cons d cs =>
          obtain ⟨k, rfl⟩ := Nat.exists_eq_succ_of_ne_zero inside.length.1.ne'
          exact verbatim
  | plain noQuote noBackslash _ ih => exact .plain noQuote noBackslash ih

/-- The quote that closes a literal is not doubled. -/
theorem Inside.head?_drop {q : Char} {cs value : List Char} {n : Nat}
    (inside : Inside q cs value n) : (cs.drop n).head? ≠ some q := by
  induction inside with
  | close single => simpa using single
  | doubled _ ih | escaped _ _ ih | backslash _ _ ih | plain _ _ _ ih => simpa using ih

/-! ## Which lexeme a character starts -/

theorem read_dash (cs : List Char) :
    read '-' cs = if cs.head? = some '-' then ⟨.doubleDash, "--", 2⟩ else unexpected '-' := rfl

theorem read_colon (cs : List Char) : read ':' cs = destination cs := rfl

/-- A bare character other than a dash or a colon starts a run. -/
theorem read_run {c : Char} (bare : isBare c = true) (dash : c ≠ '-') (colon : c ≠ ':')
    (cs : List Char) : read c cs = ofRun (c :: cs.takeWhile isBare) (cs.dropWhile isBare) := by
  fun_cases read c cs with
  | case4 | case5 => exact absurd rfl dash
  | case6 => exact absurd rfl colon
  | case9 _ _ _ _ _ _ _ _ blank => simp [isBare, blank] at bare
  | case10 => rfl
  | _ => exact absurd bare (by decide)

/-- A blank starts no token. -/
theorem read_blank {c : Char} (blank : isBlank c = true) (cs : List Char) :
    read c cs = unexpected c := by
  fun_cases read c cs with
  | case9 => rfl
  | case10 _ _ _ _ _ _ _ _ visible => exact absurd blank visible
  | _ => exact absurd blank (by decide)

theorem length_ofRun (run rest : List Char) : (ofRun run rest).length = run.length := by
  simp only [ofRun]
  split
  · rfl
  · split
    · split <;> rfl
    · rfl

theorem length_quoted {q : Char} (quote : q ≠ '\\') (cs : List Char) :
    0 < (quoted q cs).length ∧ (quoted q cs).length ≤ cs.length + 1 := by
  fun_cases quoted q cs with
  | case1 value n closed =>
      have bound := ((quoted?_eq_some_iff quote).mp closed).length
      exact ⟨Nat.succ_pos n, Nat.succ_le_succ bound.2⟩
  | case2 => exact ⟨Nat.succ_pos _, Nat.le_refl _⟩

theorem length_destination (cs : List Char) :
    0 < (destination cs).length ∧ (destination cs).length ≤ cs.length + 1 := by
  have prefixed := (List.takeWhile_prefix isNameChar (l := cs)).length_le
  simp only [destination]
  split
  · exact ⟨Nat.succ_pos _, Nat.succ_le_succ prefixed⟩
  · simp [unexpected]

/-- A lexeme covers at least the character it starts at, and lies within the text. -/
theorem length_read (c : Char) (cs : List Char) :
    0 < (read c cs).length ∧ (read c cs).length ≤ cs.length + 1 := by
  fun_cases read c cs with
  | case4 second =>
      cases cs with
      | nil => cases second
      | cons d cs => simp
  | case6 => exact length_destination cs
  | case7 | case8 => exact length_quoted (by decide) cs
  | case10 =>
      have prefixed := (List.takeWhile_prefix isBare (l := cs)).length_le
      rw [length_ofRun]
      exact ⟨Nat.succ_pos _, Nat.succ_le_succ prefixed⟩
  | _ => simp [unexpected]

/-! ## Reading before a break -/

theorem beforeWideBlank_of_startsBreak {rest : List Char} (next : StartsBreak rest) :
    beforeWideBlank rest = false := by
  cases rest with
  | nil => rfl
  | cons c cs =>
      have narrow := toNat_of_isBreak (startsBreak_cons.mp next)
      simp only [beforeWideBlank, List.head?_cons, Option.any_some, Bool.and_eq_false_iff,
        decide_eq_false_iff_not]
      omega

/-- A break after the rest of a run does not change what the run is. -/
theorem ofRun_append {run rest ds : List Char} (next : StartsBreak ds) :
    ofRun run (rest ++ ds) = ofRun run rest := by
  cases rest with
  | nil =>
      simp only [ofRun, List.nil_append, beforeWideBlank_of_startsBreak next,
        beforeWideBlank_of_startsBreak startsBreak_nil]
  | cons c rest => rfl

theorem quoted_append {q : Char} {cs ds : List Char} (quote : q ≠ '\\')
    (closed : (quoted q cs).kind ≠ .error .unterminatedLiteral) (single : ds.head? ≠ some q) :
    quoted q (cs ++ ds) = quoted q cs := by
  cases read : quoted? q cs with
  | none => simp [quoted, read] at closed
  | some pair =>
      obtain ⟨value, n⟩ := pair
      have inside := ((quoted?_eq_some_iff quote).mp read).append single
      simp [quoted, read, (quoted?_eq_some_iff quote).mpr inside]

/-- Reading a lexeme that is no open literal does not depend on what follows the text, as long as
that starts with a break. -/
theorem read_append {c : Char} {cs ds : List Char}
    (closed : (read c cs).kind ≠ .error .unterminatedLiteral) (next : StartsBreak ds) :
    read c (cs ++ ds) = read c cs := by
  have noQuote : ∀ q, isBreak q = false → ds.head? ≠ some q := by
    intro q ordinary head
    rw [next q head] at ordinary
    cases ordinary
  have bareStop : ∀ d ∈ ds.head?, isBare d = false := fun d head => isBare_of_isBreak (next d head)
  have nameStop : ∀ d ∈ ds.head?, isNameChar d = false := fun d head =>
    isNameChar_of_isBreak (next d head)
  fun_cases read c cs with
  | case1 | case2 | case3 => rfl
  | case4 second =>
      have second' : (cs ++ ds).head? = some '-' := by simp [List.head?_append, second]
      rw [read_dash, if_pos second']
  | case5 single =>
      have single' : (cs ++ ds).head? ≠ some '-' := by
        cases cs with
        | nil => exact noQuote '-' (by decide)
        | cons d cs => exact single
      rw [read_dash, if_neg single']
  | case6 => simp only [read_colon, destination, takeWhile_append_of_stop nameStop]
  | case7 => exact quoted_append (by decide) closed (noQuote '\'' (by decide))
  | case8 => exact quoted_append (by decide) closed (noQuote '"' (by decide))
  | case9 _ _ _ _ _ _ _ _ blank => exact read_blank blank (cs ++ ds)
  | case10 _ pipe equals gt dash colon single double visible =>
      have bare := isBare_of_ne visible pipe single double equals gt
      rw [read_run bare dash colon, takeWhile_append_of_stop bareStop,
        dropWhile_append_of_stop bareStop, ofRun_append next]

/-! ## Reading one character ahead -/

/-- A name stands after a colon exactly when a letter does. -/
theorem isName_takeWhile (cs : List Char) :
    isName (cs.takeWhile isNameChar) = cs.head?.any isLetter := by
  cases cs with
  | nil => rfl
  | cons c cs =>
      cases letter : isLetter c with
      | true =>
          simp [List.takeWhile_cons_of_pos (isNameChar_of_isLetter letter), isName, letter]
      | false =>
          rw [List.takeWhile_cons]
          split <;> simp [isName, letter]

theorem beforeWideBlank_congr {rest rest' : List Char} (head : rest.head? = rest'.head?) :
    beforeWideBlank rest = beforeWideBlank rest' := by
  simp only [beforeWideBlank, head]

/-- A scan passes what it takes and stops at what comes next. -/
theorem passed_of_takeWhile {p : Char → Bool} {w rest : List Char}
    (whole : (w ++ rest).takeWhile p = w) :
    (∀ c ∈ w, p c = true) ∧ ∀ d ∈ rest.head?, p d = false := by
  have passed : ∀ c ∈ w, p c = true := by
    intro c member
    rw [← whole] at member
    exact List.mem_takeWhile_imp member
  refine ⟨passed, ?_⟩
  rw [List.takeWhile_append_of_pos passed, List.append_right_eq_self] at whole
  cases rest with
  | nil => simp
  | cons d rest =>
      cases passes : p d with
      | false => simpa using passes
      | true => simp [passes] at whole

/-- A scan that stops at a place depends on what stands there only. -/
theorem takeWhile_append_congr {p : Char → Bool} {w rest rest' : List Char}
    (stop : ((w ++ rest).takeWhile p).length = w.length) (head : rest.head? = rest'.head?) :
    (w ++ rest).takeWhile p = w ∧ (w ++ rest').takeWhile p = w ∧
      (w ++ rest).dropWhile p = rest ∧ (w ++ rest').dropWhile p = rest' := by
  have whole : (w ++ rest).takeWhile p = w :=
    (List.prefix_of_prefix_length_le (List.takeWhile_prefix p) (List.prefix_append w rest)
      stop.le).eq_of_length stop
  obtain ⟨passed, stopped⟩ := passed_of_takeWhile whole
  have all : w.takeWhile p = w := List.takeWhile_eq_self_iff.mpr passed
  have none : w.dropWhile p = [] := List.dropWhile_eq_nil_iff.mpr passed
  have stopped' : ∀ d ∈ rest'.head?, p d = false := head ▸ stopped
  refine ⟨whole, ?_, ?_, ?_⟩
  · rw [takeWhile_append_of_stop stopped', all]
  · rw [dropWhile_append_of_stop stopped, none, List.nil_append]
  · rw [dropWhile_append_of_stop stopped', none, List.nil_append]

theorem quoted_congr {q : Char} {w rest rest' : List Char} (quote : q ≠ '\\')
    (length : (quoted q (w ++ rest)).length = w.length + 1) (head : rest.head? = rest'.head?) :
    quoted q (w ++ rest') = quoted q (w ++ rest) := by
  cases read : quoted? q (w ++ rest) with
  | none =>
      simp only [quoted, read, List.length_append] at length
      have ended : rest = [] := List.eq_nil_of_length_eq_zero (by omega)
      subst ended
      have ended' : rest' = [] := by simpa using head.symm
      rw [ended']
  | some pair =>
      obtain ⟨value, n⟩ := pair
      simp only [quoted, read, Nat.add_right_cancel_iff] at length
      subst length
      have inside := (quoted?_eq_some_iff quote).mp read
      have inner := inside.take
      have single := inside.head?_drop
      rw [List.take_left] at inner
      rw [List.drop_left, head] at single
      simp only [quoted, read, (quoted?_eq_some_iff quote).mpr (inner.append single)]

theorem destination_congr {w rest rest' : List Char}
    (length : (destination (w ++ rest)).length = w.length + 1) (head : rest.head? = rest'.head?) :
    destination (w ++ rest') = destination (w ++ rest) := by
  by_cases name : isName ((w ++ rest).takeWhile isNameChar) = true
  · simp only [destination, name, if_true, Nat.add_right_cancel_iff] at length
    obtain ⟨same, same', -, -⟩ := takeWhile_append_congr length head
    simp only [destination, same, same']
  · have short : w = [] := by
      simp only [destination, name, Bool.false_eq_true, if_false, unexpected] at length
      exact List.eq_nil_of_length_eq_zero (by omega)
    subst short
    have name' : ¬ isName (rest'.takeWhile isNameChar) = true := by
      rwa [isName_takeWhile, ← head, ← isName_takeWhile]
    simp only [List.nil_append] at name
    simp [destination, name, name']

/-- A lexeme is decided by the characters it covers and the one after them. -/
theorem read_congr {c : Char} {w rest rest' : List Char}
    (length : (read c (w ++ rest)).length = w.length + 1) (head : rest.head? = rest'.head?) :
    read c (w ++ rest') = read c (w ++ rest) := by
  fun_cases read c (w ++ rest) with
  | case1 | case2 | case3 => rfl
  | case4 second =>
      rw [read_dash, if_pos second] at length
      obtain ⟨d, rfl⟩ : ∃ d, w = [d] := List.length_eq_one_iff.mp (Nat.succ.inj length).symm
      exact if_pos second
  | case5 single =>
      rw [read_dash, if_neg single] at length
      have short : w = [] := List.eq_nil_of_length_eq_zero (Nat.succ.inj length).symm
      subst short
      rw [List.nil_append, head] at single
      exact if_neg single
  | case6 => exact destination_congr length head
  | case7 => exact quoted_congr (by decide) length head
  | case8 => exact quoted_congr (by decide) length head
  | case9 _ _ _ _ _ _ _ _ blank => exact read_blank blank _
  | case10 _ pipe equals gt dash colon single double visible =>
      have bare := isBare_of_ne visible pipe single double equals gt
      rw [read_run bare dash colon, length_ofRun, List.length_cons,
        Nat.add_right_cancel_iff] at length
      obtain ⟨same, same', left, left'⟩ := takeWhile_append_congr length head
      rw [read_run bare dash colon, same, same', left, left']
      simp only [ofRun, beforeWideBlank_congr head]

/-! ## Reading before the end of the text -/

/-- Whether the lexeme is an identifier and no name: a name that keeps its colon. -/
def isHalfLabel (x : Lexeme) : Bool :=
  x.kind == .identifier && !isName x.text.toList

/-- What the characters of a lexeme are when the text ends after them. A name that keeps its colon
is a label there. -/
def alone (x : Lexeme) : Lexeme :=
  if x.isHalfLabel then ⟨.label, String.ofList x.text.toList.dropLast, x.length⟩ else x

theorem alone_of_kind {x : Lexeme} (kind : x.kind ≠ .identifier) : x.alone = x := by
  simp [alone, isHalfLabel, kind]

/-- A name keeps its colon before a wide blank only. -/
theorem beforeWideBlank_of_isHalfLabel {run rest : List Char}
    (half : (ofRun run rest).isHalfLabel = true) : beforeWideBlank rest = true := by
  cases wide : beforeWideBlank rest with
  | true => rfl
  | false =>
      exfalso
      revert half
      simp only [ofRun, wide]
      split
      · next name => simp [isHalfLabel, name]
      · split <;> simp [isHalfLabel]

theorem isHalfLabel_of_kind {x : Lexeme} (kind : x.kind ≠ .identifier) : x.isHalfLabel = false := by
  simp [isHalfLabel, kind]

theorem kind_destination (cs : List Char) : (destination cs).kind ≠ .identifier := by
  simp only [destination]
  split <;> simp [unexpected]

theorem kind_quoted (q : Char) (cs : List Char) : (quoted q cs).kind ≠ .identifier := by
  fun_cases quoted q cs <;> simp

/-- What stands after a name that keeps its colon is a wide blank. -/
theorem exists_wideBlank_of_isHalfLabel {c : Char} {cs : List Char}
    (half : (read c cs).isHalfLabel = true) :
    ∃ d ds, cs.drop ((read c cs).length - 1) = d :: ds ∧ isBlank d = true ∧ 0x80 ≤ d.toNat := by
  revert half
  fun_cases read c cs with
  | case6 => simp [isHalfLabel_of_kind (kind_destination cs)]
  | case7 | case8 => simp [isHalfLabel_of_kind (kind_quoted _ cs)]
  | case10 =>
      intro half
      have wide := beforeWideBlank_of_isHalfLabel half
      rw [length_ofRun, List.length_cons, Nat.add_sub_cancel, drop_length_takeWhile]
      cases after : cs.dropWhile isBare with
      | nil => simp [after, beforeWideBlank] at wide
      | cons d ds =>
          simp only [after, beforeWideBlank, List.head?_cons, Option.any_some, Bool.and_eq_true,
            decide_eq_true_eq] at wide
          exact ⟨d, ds, rfl, wide⟩
  | _ => simp [isHalfLabel, unexpected]

theorem length_alone (x : Lexeme) : x.alone.length = x.length := by
  simp only [alone]
  split <;> rfl

/-- A run is a name that keeps its colon only before a wide blank, and else does not depend on what
follows it. -/
theorem ofRun_nil (run rest : List Char) : ofRun run [] = (ofRun run rest).alone := by
  by_cases name : isName run = true
  · simp [ofRun, name, alone, isHalfLabel]
  · by_cases labelled : run.getLast? = some ':' ∧ isName run.dropLast = true
    · by_cases wide : beforeWideBlank rest = true
      · have narrow : beforeWideBlank [] = false := rfl
        simp [ofRun, name, labelled, wide, narrow, alone, isHalfLabel]
      · have narrow : beforeWideBlank [] = false := rfl
        simp [ofRun, name, labelled, wide, narrow, alone, isHalfLabel]
    · simp [ofRun, name, labelled, alone, isHalfLabel]

theorem quoted_take {q : Char} (quote : q ≠ '\\') (cs : List Char) :
    quoted q (cs.take ((quoted q cs).length - 1)) = quoted q cs := by
  cases read : quoted? q cs with
  | none => simp [quoted, read]
  | some pair =>
      obtain ⟨value, n⟩ := pair
      have inner := ((quoted?_eq_some_iff quote).mp read).take
      simp [quoted, read, (quoted?_eq_some_iff quote).mpr inner]

theorem destination_take (cs : List Char) :
    destination (cs.take ((destination cs).length - 1)) = destination cs := by
  by_cases name : isName (cs.takeWhile isNameChar) = true
  · have length : (destination cs).length - 1 = (cs.takeWhile isNameChar).length := by
      simp [destination, name]
    rw [length, take_length_takeWhile]
    simp only [destination, List.takeWhile_idem]
  · have length : (destination cs).length - 1 = 0 := by
      simp [destination, name, unexpected]
    have empty : isName [] = false := rfl
    rw [length, List.take_zero]
    simp [destination, name, empty]

/-- Reading a lexeme from a text that ends with it. -/
theorem read_take (c : Char) (cs : List Char) :
    read c (cs.take ((read c cs).length - 1)) = (read c cs).alone := by
  fun_cases read c cs with
  | case1 | case2 | case3 => rfl
  | case4 second =>
      cases cs with
      | nil => cases second
      | cons d cs =>
          simp only [List.head?_cons, Option.some.injEq] at second
          subst second
          rfl
  | case5 single => rfl
  | case6 =>
      rw [alone_of_kind (kind_destination cs), read_colon, destination_take]
  | case7 | case8 =>
      rw [alone_of_kind (kind_quoted _ cs)]
      exact quoted_take (by decide) cs
  | case9 _ _ _ _ _ _ _ _ blank =>
      rw [read_blank blank]
      rfl
  | case10 _ pipe equals gt dash colon single double visible =>
      have bare := isBare_of_ne visible pipe single double equals gt
      rw [read_run bare dash colon, length_ofRun, List.length_cons, Nat.add_sub_cancel,
        take_length_takeWhile, List.takeWhile_idem, dropWhile_takeWhile]
      exact ofRun_nil _ _

/-! ## Names -/

/-- The text of a label or a destination is a name. -/
theorem isName_text_read {c : Char} {cs : List Char}
    (named : (read c cs).kind = .label ∨ (read c cs).kind = .destination) :
    isName (read c cs).text.toList = true := by
  revert named
  fun_cases read c cs with
  | case6 =>
      simp only [destination]
      split
      · next name => simp [name]
      · simp [unexpected]
  | case7 | case8 => fun_cases quoted <;> simp
  | case10 =>
      simp only [ofRun]
      split
      · simp
      · split
        · next labelled =>
            split
            · simp
            · simp [labelled.2]
        · simp
  | _ => simp [unexpected]

end Lexeme

end StreamLang
