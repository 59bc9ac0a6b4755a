import Offside.Proofs.Source.Text
import Offside.Token.Layout

/-!
The lexemes of a written text. `Lexes S text ts` says that the text is split into the tokens `ts`
wherever it ends or goes on with a character of `S`: words and numbers must not go on, and an
operator must not be completed by `=`. Texts are put together piece by piece, so that no lexeme has
to be looked for in a text as a whole.
-/

set_option autoImplicit false
set_option relaxedAutoImplicit false

namespace Offside.Source

variable {c : Char} {cs : List Char} {ts us : List Token} {S T : Char → Bool}
variable {text first second : String}

/-! ### Splitting -/

/-- Code is split into the given tokens, wherever it stands. -/
def Splits (cs : List Char) (ts : List Token) : Prop :=
  ∀ line column, ∃ placed,
    Layout.tokens line column cs = .ok placed ∧ placed.map PlacedToken.token = ts

theorem Splits.nil : Splits [] [] :=
  fun line column ↦ ⟨[], by rw [Layout.tokens], rfl⟩

theorem Splits.blank (hc : Text.isBlank c = true) (h : Splits cs ts) : Splits (c :: cs) ts := by
  intro line column
  rw [Layout.tokens, if_pos hc]
  exact h line (column + c.utf8Size)

theorem Splits.lexeme {lexeme : Lexeme} (hc : Text.isBlank c = false)
    (hread : Lexeme.read c cs = .ok lexeme) (h : Splits (cs.drop lexeme.further) ts) :
    Splits (c :: cs) (lexeme.token :: ts) := by
  intro line column
  obtain ⟨placed, hplaced, htokens⟩ :=
    h line (column + Layout.byteCount (c :: cs.take lexeme.further))
  refine ⟨⟨lexeme.token, line, column⟩ :: placed, ?_, congrArg (lexeme.token :: ·) htokens⟩
  rw [Layout.tokens, if_neg (by simp [hc]), hread]
  simp only [hplaced]
  rfl

/-! ### Where a text goes on -/

/-- Every character. -/
def anything (_ : Char) : Bool :=
  true

/-- The characters with which no word and no number goes on. -/
def parting (c : Char) : Bool :=
  !Lexeme.isWordPart c && !Text.isDecimalDigit c

/-- The characters that complete no comparison. -/
def uncompleting (c : Char) : Bool :=
  c ≠ '='

/-- The characters that end neither a line nor the code of one. -/
def coding (c : Char) : Bool :=
  c ≠ '\n' && c ≠ '\r' && c ≠ '#'

/-- What stands behind a text is empty or begins with a character of `S`. -/
def Behind (S : Char → Bool) (cs : List Char) : Prop :=
  ∀ c ∈ cs.head?, S c = true

/-- A text that begins with a character of `S`. -/
def Begins (S : Char → Bool) (text : String) : Prop :=
  text.toList.head?.any S = true

theorem Begins.exists_cons (h : Begins S text) : ∃ c cs, text.toList = c :: cs ∧ S c = true := by
  unfold Begins at h
  cases htext : text.toList with
  | nil =>
    rw [htext] at h
    cases h
  | cons c cs =>
    rw [htext] at h
    exact ⟨c, cs, rfl, h⟩

theorem Begins.behind (h : Begins S text) (cs : List Char) : Behind S (text.toList ++ cs) := by
  obtain ⟨c, rest, htext, hc⟩ := h.exists_cons
  rw [htext]
  rintro _ ⟨⟩
  exact hc

theorem Begins.append (h : Begins S first) : Begins S (first ++ second) := by
  obtain ⟨c, cs, hfirst, hc⟩ := h.exists_cons
  rw [Begins, String.toList_append, hfirst]
  exact hc

theorem toList_blanks (n : Nat) : (blanks n).toList = List.replicate n ' ' :=
  String.toList_ofList

/-- Blanks may stand in between. -/
theorem Behind.blanks (hblank : S ' ' = true) (n : Nat) (h : Behind S cs) :
    Behind S ((blanks n).toList ++ cs) := by
  rw [toList_blanks]
  cases n with
  | zero => exact h
  | succ n =>
    rintro _ ⟨⟩
    exact hblank

/-- A text inside of a line that is split into the given tokens where it ends or goes on with a
character of `S`. -/
structure Lexes (S : Char → Bool) (text : String) (ts : List Token) : Prop where
  inline : text.toList.all coding = true
  splits : ∀ cs us, Behind S cs → Splits cs us → Splits (text.toList ++ cs) (ts ++ us)

namespace Lexes

/-- What may go on with anything may go on with some characters. -/
theorem free (h : Lexes anything text ts) : Lexes S text ts :=
  ⟨h.inline, fun cs us _ ↦ h.splits cs us fun _ _ ↦ rfl⟩

theorem append (hfirst : Lexes S first ts) (hsecond : Lexes T second us)
    (hbehind : ∀ cs, Behind T cs → Behind S (second.toList ++ cs)) :
    Lexes T (first ++ second) (ts ++ us) where
  inline := by
    rw [String.toList_append, List.all_append, hfirst.inline, hsecond.inline]
    rfl
  splits cs vs hcs h := by
    rw [String.toList_append, List.append_assoc, List.append_assoc]
    exact hfirst.splits _ _ (hbehind cs hcs) (hsecond.splits cs vs hcs h)

/-- A text that may go on with anything may stand before any. -/
theorem before (hfirst : Lexes anything first ts) (hsecond : Lexes T second us) :
    Lexes T (first ++ second) (ts ++ us) :=
  hfirst.append hsecond fun _ _ _ _ ↦ rfl

/-- A text goes on up to one that begins as it demands. -/
theorem upTo (hfirst : Lexes S first ts) (hsecond : Lexes T second us)
    (hbegins : Begins S second) : Lexes T (first ++ second) (ts ++ us) :=
  hfirst.append hsecond fun cs _ ↦ hbegins.behind cs

/-! ### Blanks and marks -/

theorem empty : Lexes anything "" [] :=
  ⟨rfl, fun _ _ _ h ↦ h⟩

theorem blanks (n : Nat) : Lexes anything (blanks n) [] where
  inline := by
    rw [toList_blanks, List.all_eq_true]
    intro c hc
    obtain rfl := List.eq_of_mem_replicate hc
    rfl
  splits cs us _ h := by
    rw [toList_blanks]
    induction n with
    | zero => exact h
    | succ n ih => exact .blank (by decide) ih

/-- A text that is one lexeme. -/
theorem lexeme {more : List Char} {t : Token} (htext : text.toList = c :: more)
    (hinline : (c :: more).all coding = true) (hblank : Text.isBlank c = false)
    (hread : ∀ cs, Behind S cs → Lexeme.read c (more ++ cs) = .ok ⟨t, more.length⟩) :
    Lexes S text [t] where
  inline := htext ▸ hinline
  splits cs us hcs h := by
    rw [htext]
    refine .lexeme hblank (hread cs hcs) ?_
    rwa [List.drop_left]

theorem read_of_mark? {lexeme : Lexeme} (hdigit : Text.isDecimalDigit c = false)
    (hword : Lexeme.isWordStart c = false) (h : Lexeme.mark? c cs = some lexeme) :
    Lexeme.read c cs = .ok lexeme := by
  rw [Lexeme.read, if_neg (by simp [hdigit]), if_neg (by simp [hword]), h]

theorem mark (m : Punctuation) (hm : m ≠ .assign) :
    Lexes anything m.spelling [.punctuation m] := by
  cases m with
  | assign => exact absurd rfl hm
  | _ => exact lexeme rfl rfl rfl fun _ _ ↦ rfl

theorem arith (op : ArithOp) : Lexes anything op.symbol [.arith op] := by
  cases op <;> exact lexeme rfl rfl rfl fun _ _ ↦ rfl

/-- A sign that `=` could complete is read as it is if none stands behind it. -/
theorem mark?_of_behind (h : Behind uncompleting cs) :
    Lexeme.mark? '=' cs = some ⟨.punctuation .assign, 0⟩ ∧
      Lexeme.mark? '<' cs = some ⟨.compare .lt, 0⟩ ∧
      Lexeme.mark? '>' cs = some ⟨.compare .gt, 0⟩ := by
  cases cs with
  | nil => exact ⟨rfl, rfl, rfl⟩
  | cons c cs =>
    have hc : c ≠ '=' := by simpa [uncompleting] using h c rfl
    simp [Lexeme.mark?, hc]

theorem assign : Lexes uncompleting "=" [.punctuation .assign] :=
  lexeme rfl rfl rfl fun _ h ↦
    read_of_mark? rfl rfl (mark?_of_behind h).1

theorem compare (op : CompareOp) : Lexes uncompleting op.symbol [.compare op] := by
  cases op with
  | lt =>
    exact lexeme rfl rfl rfl fun _ h ↦
      read_of_mark? rfl rfl (mark?_of_behind h).2.1
  | gt =>
    exact lexeme rfl rfl rfl fun _ h ↦
      read_of_mark? rfl rfl (mark?_of_behind h).2.2
  | _ => exact lexeme rfl rfl rfl fun _ _ ↦ rfl

end Lexes

/-! ### Characters of words and numbers -/

/-- What is taken ends with the text if it does not go on. -/
theorem takeWhile_append {p : Char → Bool} {more : List Char} (hmore : ∀ d ∈ more, p d = true)
    (hcs : ∀ d ∈ cs.head?, p d = false) : (more ++ cs).takeWhile p = more := by
  rw [List.takeWhile_append_of_pos hmore]
  cases cs with
  | nil => exact List.append_nil more
  | cons d cs => rw [List.takeWhile_cons_of_neg (by simp [hcs d rfl]), List.append_nil]

theorem Behind.not_wordPart (h : Behind parting cs) (d : Char) (hd : d ∈ cs.head?) :
    Lexeme.isWordPart d = false := by
  simpa using (Bool.and_eq_true_iff.mp (h d hd)).1

theorem Behind.not_digit (h : Behind parting cs) (d : Char) (hd : d ∈ cs.head?) :
    Text.isDecimalDigit d = false := by
  simpa using (Bool.and_eq_true_iff.mp (h d hd)).2

/-- Characters of a kind that the ends of lines and of code do not have stand inside of a line. -/
theorem all_coding {p : Char → Bool} (hp : p '\n' = false ∧ p '\r' = false ∧ p '#' = false)
    (hcs : cs.all p = true) : cs.all coding = true := by
  rw [List.all_eq_true] at hcs ⊢
  intro c hc
  have hne {d : Char} (hd : p d = false) : c ≠ d := by
    rintro rfl
    simp [hcs c hc] at hd
  simp [coding, hne hp.1, hne hp.2.1, hne hp.2.2]

theorem toNat_of_isDigit (h : c.isDigit = true) : 48 ≤ c.toNat ∧ c.toNat ≤ 57 :=
  Char.isDigit_iff_toNat.mp h

theorem toNat_of_wordStart (h : Lexeme.isWordStart c = true) :
    (65 ≤ c.toNat ∧ c.toNat ≤ 90) ∨ (97 ≤ c.toNat ∧ c.toNat ≤ 122) ∨ c.toNat = 95 := by
  obtain halpha | hline := (Bool.or_eq_true _ _).mp h
  · obtain hupper | hlower := (Bool.or_eq_true _ _).mp halpha
    · exact .inl (of_decide_eq_true hupper)
    · obtain ⟨hlow, hhigh⟩ := (Bool.and_eq_true _ _).mp hlower
      exact .inr (.inl ⟨of_decide_eq_true hlow, of_decide_eq_true hhigh⟩)
  · obtain rfl := of_decide_eq_true hline
    exact .inr (.inr rfl)

/-- Printable characters of ASCII are no blanks. -/
theorem isBlank_of_printable (hlow : 33 ≤ c.toNat) (hhigh : c.toNat ≤ 126) :
    Text.isBlank c = false := by
  simp only [Text.isBlank, Bool.or_eq_false_iff, Bool.and_eq_false_iff, decide_eq_false_iff_not,
    beq_eq_false_iff_ne]
  omega

/-- What begins a word is no digit. -/
theorem isDecimalDigit_of_wordStart (h : Lexeme.isWordStart c = true) :
    Text.isDecimalDigit c = false := by
  have hbounds := toNat_of_wordStart h
  have hdigit : c.isDigit = false :=
    Bool.eq_false_iff.mpr fun hdigit ↦ by have := toNat_of_isDigit hdigit; omega
  rw [Text.isDecimalDigit, if_pos (by omega), hdigit]

/-- Digits are read from the left as long as their value is below the limit. -/
theorem extendNatural_digits {limit value : Nat} {digits : List Char}
    (hdigits : ∀ d ∈ digits, d.isDigit = true)
    (hlimit : Nat.ofDigitChars 10 digits value < limit) :
    Text.extendNatural limit value digits = .ok (Nat.ofDigitChars 10 digits value) := by
  induction digits generalizing value with
  | nil => rw [Text.extendNatural, Nat.ofDigitChars_nil]
  | cons d digits ih =>
    rw [Nat.ofDigitChars_cons] at hlimit ⊢
    -- Further digits make the value no smaller, so the limit is not reached on the way.
    have hle (next : Nat) : next ≤ Nat.ofDigitChars 10 digits next := by
      rw [Nat.ofDigitChars_eq_ofDigitChars_zero]
      exact Nat.le_add_right_of_le (Nat.le_mul_of_pos_left next (Nat.pow_pos (by decide)))
    rw [Text.extendNatural, if_pos (hdigits d (.head _))]
    simp only [if_pos (Nat.lt_of_le_of_lt (hle _) hlimit)]
    exact ih (fun e he ↦ hdigits e (.tail d he)) hlimit

/-- The text of a number: digits, at least one, whose value is the number. -/
theorem toList_toString (n : Nat) : ∃ c more, (toString n).toList = c :: more ∧
    (∀ d ∈ c :: more, d.isDigit = true) ∧ Nat.ofDigitChars 10 (c :: more) 0 = n := by
  have htext : (toString n).toList = Nat.toDigits 10 n := Nat.toList_repr
  obtain ⟨c, more, hcons⟩ :=
    List.exists_cons_of_ne_nil (Nat.toDigits_ne_nil : Nat.toDigits 10 n ≠ [])
  refine ⟨c, more, htext.trans hcons, ?_, ?_⟩ <;> rw [← hcons]
  · exact fun d ↦ Nat.isDigit_of_mem_toDigits (by decide) (by decide)
  · exact Nat.ofDigitChars_ten_toDigits

/-- Text that does not begin with a sign is read from its first character on. -/
theorem natural_of_ne_plus {limit : Nat} (hc : c ≠ '+') :
    Text.natural limit (c :: cs) = Text.extendNatural limit 0 (c :: cs) := by
  unfold Text.natural
  split
  · next h => cases h
  · next h =>
    cases h
    exact absurd rfl hc
  · next h =>
    cases h
    exact absurd rfl hc
  · rfl

/-! ### Words and numbers -/

namespace Lexes

/-- A word goes as far as its letters. -/
theorem word {more : List Char} (htext : text.toList = c :: more)
    (hc : Lexeme.isWordStart c = true) (hmore : (c :: more).all Lexeme.isWordPart = true) :
    Lexes parting text [Lexeme.ofWord text] := by
  have hdigit := isDecimalDigit_of_wordStart hc
  have hbounds := toNat_of_wordStart hc
  have hpart := List.all_eq_true.mp hmore
  refine lexeme htext (all_coding (by decide) hmore)
    (isBlank_of_printable (by omega) (by omega)) fun cs hcs ↦ ?_
  have htake : (more ++ cs).takeWhile Lexeme.isWordPart = more :=
    takeWhile_append (fun d hd ↦ hpart d (.tail c hd)) hcs.not_wordPart
  have hword : String.ofList (c :: more) = text := by rw [← htext, String.ofList_toList]
  rw [Lexeme.read, if_neg (by simp [hdigit]), if_pos hc, htake]
  simp only [hword]

theorem keyword (k : Keyword) : Lexes parting k.spelling [.keyword k] := by
  have hword : Lexeme.ofWord k.spelling = .keyword k := by
    rw [Lexeme.ofWord, Keyword.ofSpelling?_spelling]
  rw [← hword]
  cases k <;> exact word rfl rfl rfl

theorem name (h : IsName text) : Lexes parting text [.identifier text] := by
  obtain ⟨hstart, hparts, hkeyword⟩ := h
  obtain ⟨c, more, htext, hc⟩ := Begins.exists_cons hstart
  have hword : Lexeme.ofWord text = .identifier text := by
    rw [Lexeme.ofWord, Keyword.ofSpelling?, List.find?_eq_none.mpr (by simpa using hkeyword)]
  rw [← hword]
  exact word htext hc (htext ▸ hparts)

/-- A number is as long as its digits go, and the digits are those of its value. -/
theorem number {n : Nat} (hn : n < Lexeme.literalLimit) :
    Lexes parting (toString n) [.number (.ofNat n)] := by
  obtain ⟨c, more, htext, hdigits, hdecimal⟩ := toList_toString n
  have hvalue : Text.extendNatural Lexeme.literalLimit 0 (c :: more) = .ok n := by
    rw [extendNatural_digits hdigits (by rwa [hdecimal]), hdecimal]
  have hc := hdigits c (.head more)
  have hbounds := toNat_of_isDigit hc
  have hplus : c ≠ '+' := by
    rintro rfl
    cases hc
  refine lexeme htext (all_coding (by decide) (List.all_eq_true.mpr hdigits))
    (isBlank_of_printable (by omega) (by omega)) fun cs hcs ↦ ?_
  have htake : (more ++ cs).takeWhile Text.isDecimalDigit = more :=
    takeWhile_append (fun d hd ↦ Text.isDecimalDigit_of_isDigit (hdigits d (.tail c hd)))
      hcs.not_digit
  rw [Lexeme.read, if_pos (Text.isDecimalDigit_of_isDigit hc), htake]
  simp only [natural_of_ne_plus hplus, hvalue]

end Lexes

end Offside.Source
