import Mathlib.Data.List.TakeWhile
import Offside.Proofs.Source.Lexemes

/-!
What tokens look like. A sign, a run of decimal digits and a word are the matches of token patterns
(`IsMatch`); one of them is the longest in front of a text if no other match begins there and goes
further (`LongestMatch`). A token is written as some of these texts (`Token.WrittenAs`). A text that
begins with no match, or with digits that write no number, has a fault in front (`Faulty`). Reading
a lexeme finds the longest match and the token written as it, or else the fault
(`read_eq_ok_iff`, `read_eq_error_iff`).
-/

set_option autoImplicit false
set_option relaxedAutoImplicit false

namespace Offside

/-! ### Matches -/

/-- The operators and delimiters as they are written, those of two characters before those of one
that begin like them. -/
def signs : List String :=
  ["==", "!=", "<=", ">=", "<", ">", "+", "-", "*", "/", "=", "(", ")", "[", "]", ":", ",", "."]

/-- A text that a token pattern matches as a whole: a sign, digits of any script, or a word. -/
inductive IsMatch : List Char → Prop
  | sign (s : String) (hs : s ∈ signs) : IsMatch s.toList
  | digits (cs : List Char) (hne : cs ≠ []) (h : ∀ c ∈ cs, Text.isDecimalDigit c = true) :
    IsMatch cs
  | word (c : Char) (more : List Char) (hc : Lexeme.isWordStart c = true)
    (hmore : ∀ d ∈ more, Lexeme.isWordPart d = true) : IsMatch (c :: more)

/-- The slice is a match in front of the text, and no match in front of it is longer. -/
structure LongestMatch (slice text : List Char) : Prop where
  isMatch : IsMatch slice
  front : slice <+: text
  longest : ∀ other, IsMatch other → other <+: text → other.length ≤ slice.length

/-- Digits of ASCII whose value is not above the largest integer. -/
def IsNumeral (cs : List Char) : Prop :=
  (∀ c ∈ cs, c.isDigit = true) ∧ (Nat.ofDigitChars 10 cs 0 : Int) ≤ Int64.maxValue.toInt

/-- What a token is written as. The tokens that make up the layout are written as nothing. -/
def Token.WrittenAs : Token → List Char → Prop
  | .identifier name, cs => IsName name ∧ cs = name.toList
  | .number value, cs =>
    cs ≠ [] ∧ (∀ c ∈ cs, c.isDigit = true) ∧ value.toInt = Nat.ofDigitChars 10 cs 0
  | .keyword word, cs => cs = word.spelling.toList
  | .compare op, cs => cs = op.symbol.toList
  | .arith op, cs => cs = op.symbol.toList
  | .punctuation mark, cs => cs = mark.spelling.toList
  | _, _ => False

/-- A text with a fault in front: a character that is not blank and begins no match, or a run of
decimal digits, as long as it goes, that is no numeral. -/
inductive Faulty : List Char → LexemeFault → Prop
  | character (c : Char) (cs : List Char) (hblank : Text.isBlank c = false)
    (hnone : ∀ other, IsMatch other → ¬other <+: c :: cs) :
    Faulty (c :: cs) (.unexpectedCharacter c)
  | number (run cs : List Char) (hne : run ≠ [])
    (hrun : ∀ c ∈ run, Text.isDecimalDigit c = true)
    (hmaximal : ∀ c ∈ cs.head?, Text.isDecimalDigit c = false) (hnumeral : ¬IsNumeral run) :
    Faulty (run ++ cs) (.invalidNumber (String.ofList run))

/-! ### The beginnings of matches -/

section

variable {c : Char} {cs slice other text : List Char} {s : String}

/-- The characters that are signs by themselves. -/
def markChars : List Char :=
  ['<', '>', '+', '-', '*', '/', '=', '(', ')', '[', ']', ':', ',', '.']

/-- The characters that become signs with `=` behind them. -/
def completedChars : List Char := ['=', '!', '<', '>']

/-- A sign has one character, or else two, the second of which completes a comparison. -/
theorem sign_shape (hs : s ∈ signs) : ∃ d more, s.toList = d :: more ∧
    Text.isDecimalDigit d = false ∧ Lexeme.isWordStart d = false ∧ Text.isBlank d = false ∧
      (more = [] ∧ d ∈ markChars ∨ more = ['='] ∧ d ∈ completedChars) := by
  simp only [signs, List.mem_cons, List.not_mem_nil, or_false] at hs
  rcases hs with rfl | rfl | rfl | rfl | rfl | rfl | rfl | rfl | rfl | rfl | rfl | rfl | rfl | rfl |
    rfl | rfl | rfl | rfl <;> exact ⟨_, _, rfl, by decide, by decide, by decide, by decide⟩

theorem IsMatch.ne_nil (h : IsMatch cs) : cs ≠ [] := by
  cases h with
  | sign s hs =>
    obtain ⟨d, more, hd, -⟩ := sign_shape hs
    rw [hd]
    exact List.cons_ne_nil d more
  | digits _ hne h => exact hne
  | word c more hc hmore => exact List.cons_ne_nil c more

/-- What is matched in front of a text with a decimal digit in front is a run of digits. -/
theorem IsMatch.of_digit (h : IsMatch other) (hother : other <+: c :: cs)
    (hc : Text.isDecimalDigit c = true) : ∀ d ∈ other, Text.isDecimalDigit d = true := by
  cases h with
  | sign s hs =>
    obtain ⟨d, more, hd, hdigit, -⟩ := sign_shape hs
    rw [hd, List.cons_prefix_cons] at hother
    rw [hother.1, hc] at hdigit
    cases hdigit
  | digits _ hne h => exact h
  | word d more hd hmore =>
    rw [List.cons_prefix_cons] at hother
    have hdigit := Source.isDecimalDigit_of_wordStart hd
    rw [hother.1, hc] at hdigit
    cases hdigit

/-- What is matched in front of a text with a letter in front is a word. -/
theorem IsMatch.of_wordStart (h : IsMatch other) (hother : other <+: c :: cs)
    (hc : Lexeme.isWordStart c = true) :
    ∃ more, other = c :: more ∧ ∀ d ∈ more, Lexeme.isWordPart d = true := by
  cases h with
  | sign s hs =>
    obtain ⟨d, more, hd, -, hword, -⟩ := sign_shape hs
    rw [hd, List.cons_prefix_cons] at hother
    rw [hother.1, hc] at hword
    cases hword
  | digits _ hne h =>
    obtain ⟨d, more, rfl⟩ := List.exists_cons_of_ne_nil hne
    rw [List.cons_prefix_cons] at hother
    have hdigit := h d List.mem_cons_self
    rw [hother.1, Source.isDecimalDigit_of_wordStart hc] at hdigit
    cases hdigit
  | word d more hd hmore =>
    rw [List.cons_prefix_cons] at hother
    exact ⟨more, by rw [hother.1], hmore⟩

/-- What is matched in front of any other text is a sign. -/
theorem IsMatch.of_neither (h : IsMatch other) (hother : other <+: c :: cs)
    (hdigit : Text.isDecimalDigit c = false) (hword : Lexeme.isWordStart c = false) :
    ∃ s ∈ signs, other = s.toList := by
  cases h with
  | sign s hs => exact ⟨s, hs, rfl⟩
  | digits _ hne h =>
    obtain ⟨d, more, rfl⟩ := List.exists_cons_of_ne_nil hne
    rw [List.cons_prefix_cons] at hother
    rw [← hother.1, h d List.mem_cons_self] at hdigit
    cases hdigit
  | word d more hd hmore =>
    rw [List.cons_prefix_cons] at hother
    rw [← hother.1, hd] at hword
    cases hword

end

/-! ### Numerals -/

/-- Digits that are read from the left have their decimal value, which is below the limit. -/
theorem extendNatural_eq_ok {limit value n : Nat} {digits : List Char}
    (h : Text.extendNatural limit value digits = .ok n) :
    (∀ d ∈ digits, d.isDigit = true) ∧ n = Nat.ofDigitChars 10 digits value ∧
      (value < limit → n < limit) := by
  induction digits generalizing value with
  | nil =>
    cases h
    exact ⟨nofun, Nat.ofDigitChars_nil.symm, id⟩
  | cons d digits ih =>
    rw [Text.extendNatural] at h
    by_cases hd : d.isDigit = true
    · rw [if_pos hd] at h
      by_cases hnext : 10 * value + (d.toNat - '0'.toNat) < limit
      · simp only [if_pos hnext] at h
        obtain ⟨hdigits, hn, hlimit⟩ := ih h
        refine ⟨List.forall_mem_cons.mpr ⟨hd, hdigits⟩, ?_, fun _ ↦ hlimit hnext⟩
        rw [Nat.ofDigitChars_cons]
        exact hn
      · simp only [if_neg hnext] at h
        cases h
    · rw [if_neg hd] at h
      cases h

/-- A literal is read if it is a numeral, and then it is read as its decimal value. -/
theorem natural_eq_ok_iff {c : Char} {more : List Char} {n : Nat} (hc : c ≠ '+') :
    Text.natural Lexeme.literalLimit (c :: more) = .ok n ↔
      IsNumeral (c :: more) ∧ n = Nat.ofDigitChars 10 (c :: more) 0 := by
  have hmax : Int64.maxValue.toInt = (Lexeme.literalLimit : Int) - 1 := by decide
  rw [Source.natural_of_ne_plus hc]
  constructor
  · intro h
    obtain ⟨hdigits, rfl, hlimit⟩ := extendNatural_eq_ok h
    have hlt := hlimit (by decide)
    exact ⟨⟨hdigits, by rw [hmax]; omega⟩, rfl⟩
  · rintro ⟨⟨hdigits, hle⟩, rfl⟩
    rw [hmax] at hle
    exact Source.extendNatural_digits hdigits (by omega)

/-! ### Signs -/

section

variable {c : Char} {cs : List Char} {lexeme : Lexeme}

/-- A sign that can be completed by `=` is. -/
theorem mark?_completed (hc : c ∈ completedChars) (rest : List Char) :
    ∃ op, Lexeme.mark? c ('=' :: rest) = some ⟨.compare op, 1⟩ := by
  simp only [completedChars, List.mem_cons, List.not_mem_nil, or_false] at hc
  rcases hc with rfl | rfl | rfl | rfl <;> exact ⟨_, rfl⟩

theorem mark?_ne_none (hc : c ∈ markChars) (cs : List Char) : Lexeme.mark? c cs ≠ none := by
  simp only [markChars, List.mem_cons, List.not_mem_nil, or_false] at hc
  rcases hc with rfl | rfl | rfl | rfl | rfl | rfl | rfl | rfl | rfl | rfl | rfl | rfl | rfl |
    rfl <;> unfold Lexeme.mark? <;> split <;> simp_all

/-- Where a sign is in front there is a mark. -/
theorem mark?_ne_none_of_sign {s : String} (hs : s ∈ signs) (hfront : s.toList <+: c :: cs) :
    Lexeme.mark? c cs ≠ none := by
  obtain ⟨d, more, hd, -, -, -, ⟨rfl, hmark⟩ | ⟨rfl, hcompleted⟩⟩ := sign_shape hs
  · rw [hd, List.cons_prefix_cons] at hfront
    exact mark?_ne_none (hfront.1 ▸ hmark) cs
  · rw [hd, List.cons_prefix_cons] at hfront
    obtain ⟨rfl, rest, rfl⟩ := hfront
    obtain ⟨op, hop⟩ := mark?_completed hcompleted rest
    exact hop ▸ Option.some_ne_none _

end

/-- The sign that a token is, if it is one. -/
def Token.sign? : Token → Option String
  | .compare op => some op.symbol
  | .arith op => some op.symbol
  | .punctuation mark => some mark.spelling
  | _ => none

theorem Token.mem_signs {t : Token} {s : String} (h : t.sign? = some s) :
    s ∈ signs ∧ t.WrittenAs s.toList := by
  cases t with
  | compare op =>
    cases h
    exact ⟨by cases op <;> decide, rfl⟩
  | arith op =>
    cases h
    exact ⟨by cases op <;> decide, rfl⟩
  | punctuation mark =>
    cases h
    exact ⟨by cases mark <;> decide, rfl⟩
  | _ => cases h

/-- A mark is a sign in front of the text. -/
theorem mark?_sign {c : Char} {cs : List Char} {lexeme : Lexeme}
    (h : Lexeme.mark? c cs = some lexeme) : ∃ s, lexeme.token.sign? = some s ∧
      s.toList = c :: cs.take lexeme.further ∧ lexeme.further ≤ cs.length := by
  unfold Lexeme.mark? at h
  split at h <;> cases h <;> exact ⟨_, rfl, rfl, by simp⟩

/-! ### Longest matches -/

section

variable {c : Char} {cs more slice other text : List Char}

theorem LongestMatch.unique (h : LongestMatch slice text) (h' : LongestMatch other text) :
    slice = other := by
  have hle := h'.longest slice h.isMatch h.front
  have hge := h.longest other h'.isMatch h'.front
  exact (List.prefix_of_prefix_length_le h.front h'.front hle).eq_of_length_le hge

/-- A text of characters of a kind is no longer than what is taken of that kind. -/
theorem length_le_takeWhile {p : Char → Bool} (hfront : more <+: cs)
    (hmore : ∀ d ∈ more, p d = true) : more.length ≤ (cs.takeWhile p).length := by
  obtain ⟨rest, rfl⟩ := hfront
  rw [List.takeWhile_append_of_pos hmore, List.length_append]
  exact Nat.le_add_right _ _

theorem longestMatch_digits (hc : Text.isDecimalDigit c = true) (cs : List Char) :
    LongestMatch (c :: cs.takeWhile Text.isDecimalDigit) (c :: cs) where
  isMatch := .digits _ (List.cons_ne_nil _ _)
    (List.forall_mem_cons.mpr ⟨hc, fun _ ↦ List.mem_takeWhile_imp⟩)
  front := List.cons_prefix_cons.mpr ⟨rfl, List.takeWhile_prefix _⟩
  longest other hmatch hfront := by
    have hdigits := hmatch.of_digit hfront hc
    obtain ⟨d, more, rfl⟩ := List.exists_cons_of_ne_nil hmatch.ne_nil
    rw [List.cons_prefix_cons] at hfront
    exact Nat.succ_le_succ (length_le_takeWhile hfront.2 (List.forall_mem_cons.mp hdigits).2)

theorem longestMatch_word (hc : Lexeme.isWordStart c = true) (cs : List Char) :
    LongestMatch (c :: cs.takeWhile Lexeme.isWordPart) (c :: cs) where
  isMatch := .word c _ hc fun _ ↦ List.mem_takeWhile_imp
  front := List.cons_prefix_cons.mpr ⟨rfl, List.takeWhile_prefix _⟩
  longest other hmatch hfront := by
    obtain ⟨more, rfl, hmore⟩ := hmatch.of_wordStart hfront hc
    rw [List.cons_prefix_cons] at hfront
    exact Nat.succ_le_succ (length_le_takeWhile hfront.2 hmore)

/-- The mark in front of a text is the longest sign there. -/
theorem longestMatch_mark {lexeme : Lexeme} (hdigit : Text.isDecimalDigit c = false)
    (hword : Lexeme.isWordStart c = false) (h : Lexeme.mark? c cs = some lexeme) :
    LongestMatch (c :: cs.take lexeme.further) (c :: cs) := by
  obtain ⟨s, hs, hslice, -⟩ := mark?_sign h
  refine ⟨hslice ▸ .sign s (Token.mem_signs hs).1,
    List.cons_prefix_cons.mpr ⟨rfl, List.take_prefix _ _⟩, fun other hmatch hfront ↦ ?_⟩
  obtain ⟨s', hs', rfl⟩ := hmatch.of_neither hfront hdigit hword
  obtain ⟨d, more, hd, -, -, -, ⟨rfl, -⟩ | ⟨rfl, hcompleted⟩⟩ := sign_shape hs'
  · rw [hd]
    exact Nat.succ_le_succ (Nat.zero_le _)
  · -- A sign of two characters in front is the mark that was read.
    rw [hd, List.cons_prefix_cons] at hfront
    obtain ⟨rfl, rest, rfl⟩ := hfront
    obtain ⟨op, hop⟩ := mark?_completed hcompleted rest
    obtain rfl := Option.some.inj (hop.symm.trans h)
    rw [hd]
    exact Nat.le_refl 2

end

/-! ### Reading -/

section

variable {c : Char} {cs more : List Char} {t : Token} {fault : LexemeFault} {lexeme : Lexeme}

theorem read_digits (hc : Text.isDecimalDigit c = true) (cs : List Char) :
    Lexeme.read c cs =
      match Text.natural Lexeme.literalLimit (c :: cs.takeWhile Text.isDecimalDigit) with
      | .ok n => .ok ⟨.number (.ofNat n), (cs.takeWhile Text.isDecimalDigit).length⟩
      | .error _ =>
        .error (.invalidNumber (String.ofList (c :: cs.takeWhile Text.isDecimalDigit))) := by
  unfold Lexeme.read
  exact if_pos hc

theorem read_word (hc : Lexeme.isWordStart c = true) (cs : List Char) :
    Lexeme.read c cs = .ok ⟨Lexeme.ofWord (String.ofList (c :: cs.takeWhile Lexeme.isWordPart)),
      (cs.takeWhile Lexeme.isWordPart).length⟩ := by
  rw [Lexeme.read, if_neg (by simp [Source.isDecimalDigit_of_wordStart hc]), if_pos hc]

theorem read_mark (hdigit : Text.isDecimalDigit c = false) (hword : Lexeme.isWordStart c = false)
    (cs : List Char) :
    Lexeme.read c cs =
      match Lexeme.mark? c cs with
      | some lexeme => .ok lexeme
      | none => .error (.unexpectedCharacter c) := by
  unfold Lexeme.read
  exact (if_neg (by simp [hdigit])).trans (if_neg (by simp [hword]))

theorem ne_plus_of_digit (hc : Text.isDecimalDigit c = true) : c ≠ '+' := by
  rintro rfl
  cases hc

theorem isWordPart_of_wordStart (hc : Lexeme.isWordStart c = true) :
    Lexeme.isWordPart c = true := by
  obtain halpha | hline := (Bool.or_eq_true _ _).mp hc
  · exact (Bool.or_eq_true _ _).mpr (.inl ((Bool.or_eq_true _ _).mpr (.inl halpha)))
  · exact (Bool.or_eq_true _ _).mpr (.inr hline)

/-- A word is written as it is, be it a keyword or a name. -/
theorem ofWord_writtenAs (hc : Lexeme.isWordStart c = true)
    (hmore : ∀ d ∈ more, Lexeme.isWordPart d = true) :
    (Lexeme.ofWord (String.ofList (c :: more))).WrittenAs (c :: more) := by
  unfold Lexeme.ofWord
  split
  · next k hk =>
    have hspelling := Keyword.spelling_of_ofSpelling? hk
    exact (String.toList_ofList ▸ congrArg String.toList hspelling).symm
  · next hk =>
    have hstart := isWordPart_of_wordStart hc
    refine ⟨⟨?_, ?_, ?_⟩, String.toList_ofList.symm⟩
    · rw [String.toList_ofList]
      exact hc
    · rw [String.toList_ofList]
      exact List.all_eq_true.mpr (List.forall_mem_cons.mpr ⟨hstart, hmore⟩)
    · simpa [Keyword.ofSpelling?] using hk

/-- A lexeme that is read is the longest match in front, and its token is written as that. -/
theorem longestMatch_of_read (h : Lexeme.read c cs = .ok lexeme) :
    LongestMatch (c :: cs.take lexeme.further) (c :: cs) ∧
      lexeme.token.WrittenAs (c :: cs.take lexeme.further) ∧ lexeme.further ≤ cs.length := by
  have htaken (p : Char → Bool) : cs.take (cs.takeWhile p).length = cs.takeWhile p :=
    (List.prefix_iff_eq_take.mp (List.takeWhile_prefix p)).symm
  by_cases hdigit : Text.isDecimalDigit c = true
  · rw [read_digits hdigit] at h
    split at h <;> cases h
    next n hn =>
    obtain ⟨hnumeral, rfl⟩ := (natural_eq_ok_iff (ne_plus_of_digit hdigit)).mp hn
    rw [htaken]
    refine ⟨longestMatch_digits hdigit cs, ⟨List.cons_ne_nil _ _, hnumeral.1, ?_⟩,
      (List.takeWhile_prefix _).length_le⟩
    have hmax : Int64.maxValue.toInt = 2 ^ 63 - 1 := by decide
    have hle := hnumeral.2
    exact Int64.toInt_ofNat_of_lt (by omega)
  · by_cases hword : Lexeme.isWordStart c = true
    · rw [read_word hword] at h
      cases h
      rw [htaken]
      exact ⟨longestMatch_word hword cs, ofWord_writtenAs hword fun _ ↦ List.mem_takeWhile_imp,
        (List.takeWhile_prefix _).length_le⟩
    · rw [Bool.not_eq_true] at hdigit hword
      rw [read_mark hdigit hword] at h
      split at h <;> cases h
      next hmark =>
      obtain ⟨s, hs, hslice, hle⟩ := mark?_sign hmark
      exact ⟨longestMatch_mark hdigit hword hmark, hslice ▸ (Token.mem_signs hs).2, hle⟩

/-- Where no lexeme can be read there is a fault in front. -/
theorem faulty_of_read (hblank : Text.isBlank c = false) (h : Lexeme.read c cs = .error fault) :
    Faulty (c :: cs) fault := by
  by_cases hdigit : Text.isDecimalDigit c = true
  · rw [read_digits hdigit] at h
    split at h <;> cases h
    next hn =>
    have hsplit : c :: cs = (c :: cs.takeWhile Text.isDecimalDigit) ++
        cs.dropWhile Text.isDecimalDigit := by
      rw [List.cons_append, List.takeWhile_append_dropWhile]
    rw [hsplit]
    refine .number _ _ (List.cons_ne_nil _ _)
      (List.forall_mem_cons.mpr ⟨hdigit, fun _ ↦ List.mem_takeWhile_imp⟩) ?_ fun hnumeral ↦ ?_
    · intro d hd
      have hnot := List.head?_dropWhile_not Text.isDecimalDigit cs
      rwa [hd] at hnot
    · rw [(natural_eq_ok_iff (ne_plus_of_digit hdigit)).mpr ⟨hnumeral, rfl⟩] at hn
      cases hn
  · by_cases hword : Lexeme.isWordStart c = true
    · rw [read_word hword] at h
      cases h
    · rw [Bool.not_eq_true] at hdigit hword
      rw [read_mark hdigit hword] at h
      split at h <;> cases h
      next hmark =>
      refine .character c cs hblank fun other hmatch hfront ↦ ?_
      obtain ⟨s, hs, rfl⟩ := hmatch.of_neither hfront hdigit hword
      exact mark?_ne_none_of_sign hs hfront hmark

end

/-! ### What is read -/

section

variable {c : Char} {cs more slice : List Char} {t u : Token} {fault : LexemeFault}

theorem isBlank_of_digit (hc : Text.isDecimalDigit c = true) : Text.isBlank c = false := by
  by_cases hsmall : c.toNat < 0x80
  · rw [Text.isDecimalDigit, if_pos hsmall] at hc
    have hbounds := Source.toNat_of_isDigit hc
    exact Source.isBlank_of_printable (by omega) (by omega)
  · rw [Text.isDecimalDigit, if_neg hsmall] at hc
    obtain ⟨first, hfirst, hrun⟩ := List.any_eq_true.mp hc
    simp only [Bool.and_eq_true, decide_eq_true_eq] at hrun
    -- No run of digits starts at or near a blank character.
    have hgaps : ∀ first ∈ Text.digitZeros, first = 0x30 ∨ 0x660 ≤ first ∧ first ≤ 0x1090 ∨
        0x17E0 ≤ first ∧ first ≤ 0x1C50 ∨ 0xA620 ≤ first := by decide
    have hgap := hgaps first hfirst
    simp only [Text.isBlank, Bool.or_eq_false_iff, Bool.and_eq_false_iff, decide_eq_false_iff_not,
      beq_eq_false_iff_ne]
    omega

theorem isBlank_of_wordPart (hc : Lexeme.isWordPart c = true) : Text.isBlank c = false := by
  simp only [Lexeme.isWordPart, Char.isAlphanum, Bool.or_eq_true, decide_eq_true_eq] at hc
  obtain (halpha | hdigit) | rfl := hc
  · have hbounds := Source.toNat_of_wordStart ((Bool.or_eq_true _ _).mpr (.inl halpha))
    exact Source.isBlank_of_printable (by omega) (by omega)
  · exact isBlank_of_digit (Text.isDecimalDigit_of_isDigit hdigit)
  · decide

/-- No pattern matches a blank character. -/
theorem IsMatch.no_blank (h : IsMatch cs) : ∀ c ∈ cs, Text.isBlank c = false := by
  cases h with
  | sign s hs =>
    obtain ⟨d, more, hd, -, -, hblank, ⟨rfl, -⟩ | ⟨rfl, -⟩⟩ := sign_shape hs
    · rw [hd]
      exact List.forall_mem_cons.mpr ⟨hblank, nofun⟩
    · rw [hd]
      exact List.forall_mem_cons.mpr ⟨hblank, List.forall_mem_singleton.mpr (by decide)⟩
  | digits _ hne h => exact fun c hc ↦ isBlank_of_digit (h c hc)
  | word c more hc hmore =>
    exact List.forall_mem_cons.mpr ⟨isBlank_of_wordPart (isWordPart_of_wordStart hc),
      fun d hd ↦ isBlank_of_wordPart (hmore d hd)⟩

theorem Faulty.exists_cons (h : Faulty cs fault) :
    ∃ c more, cs = c :: more ∧ Text.isBlank c = false := by
  cases h with
  | character c cs hblank hnone => exact ⟨c, cs, rfl, hblank⟩
  | number run cs hne hrun hmaximal hnumeral =>
    obtain ⟨c, more, rfl⟩ := List.exists_cons_of_ne_nil hne
    exact ⟨c, more ++ cs, rfl, isBlank_of_digit (hrun c List.mem_cons_self)⟩

/-- A fault is what reading it comes to. -/
theorem read_of_faulty (h : Faulty (c :: cs) fault) : Lexeme.read c cs = .error fault := by
  generalize htext : c :: cs = text at h
  cases h with
  | character c' cs' hblank hnone =>
    cases htext
    have hdigit : Text.isDecimalDigit c = false := by
      refine Bool.eq_false_iff.mpr fun hc ↦ ?_
      have hlongest := longestMatch_digits hc cs
      exact hnone _ hlongest.isMatch hlongest.front
    have hword : Lexeme.isWordStart c = false := by
      refine Bool.eq_false_iff.mpr fun hc ↦ ?_
      have hlongest := longestMatch_word hc cs
      exact hnone _ hlongest.isMatch hlongest.front
    rw [read_mark hdigit hword]
    cases hmark : Lexeme.mark? c cs with
    | none => rfl
    | some lexeme =>
      have hlongest := longestMatch_mark hdigit hword hmark
      exact absurd hlongest.front (hnone _ hlongest.isMatch)
  | number run cs' hne hrun hmaximal hnumeral =>
    obtain ⟨c', more, rfl⟩ := List.exists_cons_of_ne_nil hne
    obtain ⟨rfl, rfl⟩ := List.cons.inj (List.cons_append ▸ htext)
    have hc := hrun c List.mem_cons_self
    rw [read_digits hc, Source.takeWhile_append (List.forall_mem_cons.mp hrun).2 hmaximal]
    cases hnatural : Text.natural Lexeme.literalLimit (c :: more) with
    | ok n => exact absurd ((natural_eq_ok_iff (ne_plus_of_digit hc)).mp hnatural).1 hnumeral
    | error _ => rfl

/-- No lexeme is read exactly if there is a fault in front. -/
theorem read_eq_error_iff (hblank : Text.isBlank c = false) :
    Lexeme.read c cs = .error fault ↔ Faulty (c :: cs) fault :=
  ⟨faulty_of_read hblank, read_of_faulty⟩

/-- What a token is written as is split into that token. -/
theorem Token.WrittenAs.splits (h : t.WrittenAs cs) : Source.Splits cs [t] := by
  have hwhole {S : Char → Bool} {text : String} (hlexes : Source.Lexes S text [t]) :
      Source.Splits text.toList [t] := by
    have hsplits := hlexes.splits [] [] nofun .nil
    rwa [List.append_nil] at hsplits
  cases t with
  | identifier name =>
    obtain ⟨hname, rfl⟩ := h
    exact hwhole (.name hname)
  | number value =>
    obtain ⟨hne, hdigits, hvalue⟩ := h
    obtain ⟨c, more, rfl⟩ := List.exists_cons_of_ne_nil hne
    have hc := Text.isDecimalDigit_of_isDigit (hdigits c List.mem_cons_self)
    have htake : more.takeWhile Text.isDecimalDigit = more :=
      List.takeWhile_eq_self_iff.mpr fun d hd ↦
        Text.isDecimalDigit_of_isDigit (hdigits d (List.mem_cons_of_mem c hd))
    have hnatural := (natural_eq_ok_iff (ne_plus_of_digit hc)).mpr
      ⟨⟨hdigits, hvalue ▸ value.toInt_le⟩, rfl⟩
    have hread := read_digits hc more
    have hrounded : Int64.ofNat (Nat.ofDigitChars 10 (c :: more) 0) = value := by
      rw [← Int64.ofInt_toInt value, hvalue]
      exact Int64.ofInt_eq_ofNat.symm
    rw [htake, hnatural] at hread
    simp only [hrounded] at hread
    have hnothing : Source.Splits (more.drop more.length) [] := by
      rw [List.drop_length]
      exact .nil
    exact .lexeme (isBlank_of_digit hc) hread hnothing
  | keyword word =>
    subst h
    exact hwhole (.keyword word)
  | compare op =>
    subst h
    exact hwhole (.compare op)
  | arith op =>
    subst h
    exact hwhole (.arith op)
  | punctuation mark =>
    subst h
    by_cases hassign : mark = .assign
    · subst hassign
      exact hwhole .assign
    · exact hwhole (.mark mark hassign)
  | _ => exact h.elim

/-- No two tokens are written alike. -/
theorem Token.WrittenAs.unique (ht : t.WrittenAs cs) (hu : u.WrittenAs cs) : t = u := by
  obtain ⟨placed, hplaced, hts⟩ := ht.splits 1 1
  obtain ⟨placed', hplaced', hus⟩ := hu.splits 1 1
  obtain rfl := Except.ok.inj (hplaced.symm.trans hplaced')
  exact List.head_eq_of_cons_eq (hts.symm.trans hus)

/-- The longest match in front of a fault is written as no token. -/
theorem Faulty.not_writtenAs (h : Faulty cs fault) (hlongest : LongestMatch slice cs) :
    ¬t.WrittenAs slice := by
  intro hwritten
  cases h with
  | character c cs hblank hnone => exact hnone slice hlongest.isMatch hlongest.front
  | number run cs hne hrun hmaximal hnumeral =>
    obtain ⟨c, more, rfl⟩ := List.exists_cons_of_ne_nil hne
    have hc := hrun c List.mem_cons_self
    have hdigits := longestMatch_digits hc (more ++ cs)
    rw [Source.takeWhile_append (List.forall_mem_cons.mp hrun).2 hmaximal] at hdigits
    obtain rfl := hlongest.unique hdigits
    -- The run by itself has the same fault, but is split into the token it is written as.
    have hfault := Faulty.number _ [] hne hrun nofun hnumeral
    rw [List.append_nil] at hfault
    have hread := read_of_faulty hfault
    obtain ⟨placed, hplaced, -⟩ := hwritten.splits 1 1
    rw [Layout.tokens, if_neg (by simp [isBlank_of_digit hc]), hread] at hplaced
    cases hplaced

/-- A lexeme is read exactly if it is the longest match in front and its token is written so. -/
theorem read_eq_ok_iff : Lexeme.read c (more ++ cs) = .ok ⟨t, more.length⟩ ↔
    LongestMatch (c :: more) (c :: (more ++ cs)) ∧ t.WrittenAs (c :: more) := by
  constructor
  · intro h
    obtain ⟨hlongest, hwritten, -⟩ := longestMatch_of_read h
    rw [List.take_left] at hlongest hwritten
    exact ⟨hlongest, hwritten⟩
  · rintro ⟨hlongest, hwritten⟩
    cases hread : Lexeme.read c (more ++ cs) with
    | error fault =>
      have hblank := hlongest.isMatch.no_blank c List.mem_cons_self
      exact absurd hwritten ((faulty_of_read hblank hread).not_writtenAs hlongest)
    | ok lexeme =>
      obtain ⟨hlongest', hwritten', hle⟩ := longestMatch_of_read hread
      have hslice := hlongest.unique hlongest'
      rw [← hslice] at hwritten'
      have hlength : more.length = lexeme.further := by
        have hlengths := congrArg List.length (List.cons.inj hslice).2
        rwa [List.length_take_of_le hle] at hlengths
      rw [hwritten.unique hwritten', hlength]

end

/-! ### Blanks behind a text -/

section

variable {text slice other blanks : List Char} {fault : LexemeFault}

/-- No match goes on into blanks. -/
theorem IsMatch.front_of_append (h : IsMatch other) (hfront : other <+: text ++ blanks)
    (hblanks : ∀ c ∈ blanks, Text.isBlank c = true) : other <+: text := by
  obtain hshort | ⟨further, hlong⟩ :=
    List.prefix_or_prefix_of_prefix hfront (List.prefix_append text blanks)
  · exact hshort
  · have hnothing : further = [] := by
      refine List.eq_nil_iff_forall_not_mem.mpr fun c hc ↦ ?_
      rw [← hlong, List.prefix_append_right_inj] at hfront
      have hblank := h.no_blank c (hlong ▸ List.mem_append_right text hc)
      rw [hblanks c (hfront.subset hc)] at hblank
      cases hblank
    have hsame : other = text := by rw [← hlong, hnothing, List.append_nil]
    exact hsame ▸ List.prefix_rfl

theorem LongestMatch.append_blanks (h : LongestMatch slice text)
    (hblanks : ∀ c ∈ blanks, Text.isBlank c = true) : LongestMatch slice (text ++ blanks) where
  isMatch := h.isMatch
  front := h.front.trans (List.prefix_append text blanks)
  longest other hmatch hfront := h.longest other hmatch (hmatch.front_of_append hfront hblanks)

theorem Faulty.append_blanks (h : Faulty text fault)
    (hblanks : ∀ c ∈ blanks, Text.isBlank c = true) : Faulty (text ++ blanks) fault := by
  cases h with
  | character c cs hblank hnone =>
    refine .character c (cs ++ blanks) hblank fun other hmatch hfront ↦ hnone other hmatch ?_
    rw [← List.cons_append] at hfront
    exact hmatch.front_of_append hfront hblanks
  | number run cs hne hrun hmaximal hnumeral =>
    rw [List.append_assoc]
    refine .number run (cs ++ blanks) hne hrun (fun c hc ↦ ?_) hnumeral
    cases cs with
    | nil =>
      refine Bool.eq_false_iff.mpr fun hdigit ↦ ?_
      have hblank := isBlank_of_digit hdigit
      rw [hblanks c (List.mem_of_mem_head? hc)] at hblank
      cases hblank
    | cons d cs => exact hmaximal c hc

end

end Offside
