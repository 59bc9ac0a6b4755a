import Offside.Proofs.Token.Split

/-!
What lines come to. A line is bare, or it is indented with a tab, or its width does not fit the open
blocks, or its text stumbles over a fault, or it gives the tokens of its pieces between those of its
layout and a newline (`lineTokens_reads`). Lines are read one behind the other (`readLines`), and
the first that fails decides how the whole text fails (`linesTokens_eq_error_iff`).
-/

set_option autoImplicit false
set_option relaxedAutoImplicit false

namespace Offside

open Piece

/-- The line that an error is about. -/
def LexError.line : LexError → Nat
  | .inconsistentDedent _ line => line
  | .unexpectedCharacter _ line _ => line
  | .tabIndentation line => line
  | .invalidNumber _ line _ => line

theorem LexError.line_ofFault (line column : Nat) (fault : LexemeFault) :
    (LexError.ofFault line column fault).line = line := by
  cases fault <;> rfl

theorem LexError.ofFault_ne_dedent (line column width line' : Nat) (fault : LexemeFault) :
    ofFault line column fault ≠ inconsistentDedent width line' := by
  cases fault <;> exact nofun

namespace Layout

/-! ### The text of a line -/

/-- A line in front of its comment. -/
def uncommented (text : List Char) : List Char :=
  text.takeWhile (· ≠ '#')

/-- A line without code. -/
def Bare (text : List Char) : Prop :=
  ∀ c ∈ uncommented text, Text.isBlank c = true

instance (text : List Char) : Decidable (Bare text) :=
  decidable_of_iff ((uncommented text).all Text.isBlank = true) List.all_eq_true

/-- The width of a line, the number of spaces in front. -/
def indentation (text : List Char) : Nat :=
  (text.takeWhile (· = ' ')).length

/-- A line with a tab behind the spaces in front. -/
def TabIndented (text : List Char) : Prop :=
  (text.dropWhile (· = ' ')).head? = some '\t'

instance (text : List Char) : Decidable (TabIndented text) :=
  inferInstanceAs (Decidable ((text.dropWhile (· = ' ')).head? = some '\t'))

variable {line column : Nat} {blocks kept : List Nat} {text : List Char} {error : LexError}
variable {ts : List PlacedToken}

theorem dropTailWhile_append (p : Char → Bool) (cs : List Char) :
    ∃ tail, cs = Text.dropTailWhile p cs ++ tail ∧ ∀ c ∈ tail, p c = true := by
  refine ⟨(cs.reverse.takeWhile p).reverse, ?_, fun c hc ↦ ?_⟩
  · rw [Text.dropTailWhile, ← List.reverse_append, List.takeWhile_append_dropWhile,
      List.reverse_reverse]
  · exact List.mem_takeWhile_imp (List.mem_reverse.mp hc)

/-- The code of a line is the line in front of its comment, but for blanks at the end. -/
theorem uncommented_eq (text : List Char) :
    ∃ blanks, uncommented text = code text ++ blanks ∧ ∀ c ∈ blanks, Text.isBlank c = true := by
  obtain ⟨returns, htext, hreturns⟩ := dropTailWhile_append (· = '\r') text
  have hreturns : ∀ c ∈ returns, c = '\r' := fun c hc ↦ of_decide_eq_true (hreturns c hc)
  by_cases hhash : ∀ c ∈ Text.dropTailWhile (· = '\r') text, decide (c ≠ '#') = true
  · refine ⟨returns, ?_, fun c hc ↦ hreturns c hc ▸ rfl⟩
    have hnone : ∀ c ∈ returns, decide (c ≠ '#') = true := fun c hc ↦ hreturns c hc ▸ rfl
    rw [uncommented, code, htext, List.takeWhile_append_of_pos hhash, ← htext,
      List.takeWhile_eq_self_iff.mpr hhash, List.takeWhile_eq_self_iff.mpr hnone]
  · -- The comment begins in front of the carriage returns that end the line.
    refine ⟨[], ?_, nofun⟩
    have hshort : ((Text.dropTailWhile (· = '\r') text).takeWhile (· ≠ '#')).length ≠
        (Text.dropTailWhile (· = '\r') text).length := by
      intro hlength
      have hsame := (List.takeWhile_prefix _).eq_of_length hlength
      exact hhash (List.takeWhile_eq_self_iff.mp hsame)
    rw [List.append_nil, uncommented, code]
    refine (congrArg (List.takeWhile _) htext).trans ?_
    rw [List.takeWhile_append, if_neg hshort]

theorem code_prefix (text : List Char) : code text <+: text := by
  obtain ⟨returns, htext, -⟩ := dropTailWhile_append (· = '\r') text
  exact (List.takeWhile_prefix _).trans ⟨returns, htext.symm⟩

theorem all_blank_code : (code text).all Text.isBlank = true ↔ Bare text := by
  obtain ⟨blanks, hcode, hblanks⟩ := uncommented_eq text
  rw [Bare, hcode, List.forall_mem_append, List.all_eq_true]
  exact (and_iff_left hblanks).symm

theorem all_space_replicate (n : Nat) : ∀ c ∈ List.replicate n ' ', decide (c = ' ') = true :=
  fun _ hc ↦ decide_eq_true (List.eq_of_mem_replicate hc)

section

variable {c : Char}

theorem indentation_spaces (hc : c ≠ ' ') (n : Nat) (cs : List Char) :
    indentation (List.replicate n ' ' ++ c :: cs) = n := by
  have hstop : ∀ d ∈ (c :: cs).head?, decide (d = ' ') = false := by
    rintro _ ⟨⟩
    exact decide_eq_false hc
  rw [indentation, Source.takeWhile_append (all_space_replicate n) hstop, List.length_replicate]

theorem dropWhile_spaces (hc : c ≠ ' ') (n : Nat) (cs : List Char) :
    (List.replicate n ' ' ++ c :: cs).dropWhile (· = ' ') = c :: cs := by
  rw [List.dropWhile_append_of_pos (all_space_replicate n)]
  exact List.dropWhile_cons_of_neg (by simpa using hc)

/-- Every text begins with spaces, and goes on with another character, if it goes on. -/
theorem exists_spaces (cs : List Char) :
    ∃ n rest, cs = List.replicate n ' ' ++ rest ∧ ∀ c ∈ rest.head?, c ≠ ' ' := by
  refine ⟨indentation cs, cs.dropWhile (· = ' '), ?_, fun c hc ↦ ?_⟩
  · have hspaces : cs.takeWhile (· = ' ') = List.replicate (indentation cs) ' ' :=
      List.eq_replicate_of_mem fun c hc ↦
        of_decide_eq_true (List.mem_takeWhile_imp (p := fun c ↦ decide (c = ' ')) hc)
    rw [← hspaces, List.takeWhile_append_dropWhile]
  · have hfront := List.head?_dropWhile_not (fun c ↦ decide (c = ' ')) cs
    rw [Option.mem_def.mp hc] at hfront
    exact of_decide_eq_false hfront

end

/-- Code begins with the spaces of its line, and what stands behind them there. -/
theorem code_cases (hcode : ¬Bare text) : ∃ c rest more, c ≠ ' ' ∧
    code text = List.replicate (indentation text) ' ' ++ c :: rest ∧
      text = List.replicate (indentation text) ' ' ++ c :: more := by
  obtain ⟨n, rest, hsplit, hfront⟩ := exists_spaces (code text)
  obtain ⟨more, hmore⟩ := code_prefix text
  cases rest with
  | nil =>
    rw [List.append_nil] at hsplit
    rw [← all_blank_code, hsplit, List.all_eq_true] at hcode
    exact absurd (fun c hc ↦ List.eq_of_mem_replicate hc ▸ rfl) hcode
  | cons c rest =>
    have hc := hfront c rfl
    have htext : text = List.replicate n ' ' ++ c :: (rest ++ more) := by
      rw [← hmore, hsplit, List.append_assoc, List.cons_append]
    have hwidth : indentation text = n := by
      rw [htext, indentation_spaces hc]
    rw [hwidth]
    exact ⟨c, rest, rest ++ more, hc, hsplit, htext⟩

theorem byteCount_replicate_space (n : Nat) : byteCount (List.replicate n ' ') = n := by
  induction n with
  | zero => rfl
  | succ n ih =>
    have hspace : ' '.utf8Size = 1 := rfl
    rw [List.replicate_succ, byteCount, ih, hspace, Nat.add_comm]

/-! ### One line -/

theorem lineTokens_of_bare (h : Bare text) : lineTokens line blocks text = .ok ([], blocks) := by
  rw [lineTokens]
  exact if_pos (all_blank_code.mpr h)

/-- A line of code is rejected if it is indented with a tab. Else it gives the tokens that fit its
width to the open blocks, those of its text in front of a comment, and a newline. -/
theorem lineTokens_of_code (h : ¬Bare text) : lineTokens line blocks text =
    if TabIndented text then .error (.tabIndentation line)
    else
      (adjust blocks line (indentation text)).bind fun (layout, kept) ↦
        (tokens line 1 (uncommented text)).bind fun body ↦
          .ok (layout ++ body ++ [⟨.newline, line, byteCount (code text) + 1⟩], kept) := by
  obtain ⟨blanks, huncommented, hblanks⟩ := uncommented_eq text
  obtain ⟨c, rest, more, hc, hcode, htext⟩ := code_cases h
  have hwidth : ((code text).takeWhile (· = ' ')).length = indentation text :=
    (congrArg indentation hcode).trans (indentation_spaces hc _ rest)
  have hbody : (code text).dropWhile (· = ' ') = c :: rest := by
    rw [hcode, dropWhile_spaces hc]
  have htab : TabIndented text ↔ c = '\t' := by
    have hbehind : text.dropWhile (· = ' ') = c :: more :=
      (congrArg _ htext).trans (dropWhile_spaces hc _ more)
    rw [TabIndented, hbehind, List.head?_cons, Option.some_inj]
  have htokens : tokens line (indentation text + 1) (c :: rest) =
      tokens line 1 (uncommented text) := by
    have hblank : ∀ d ∈ List.replicate (indentation text) ' ', Text.isBlank d = true :=
      fun d hd ↦ List.eq_of_mem_replicate hd ▸ rfl
    have hgap := tokens_of_blanks hblank line 1 (c :: rest)
    rw [byteCount_replicate_space, Nat.add_comm] at hgap
    rw [huncommented, tokens_append_blanks hblanks, hcode, hgap]
  rw [lineTokens]
  simp only [hbody, hwidth, htokens, List.head?_cons, Option.some_inj]
  rw [if_neg (mt all_blank_code.mp h)]
  by_cases htabbed : c = '\t'
  · rw [if_pos htabbed, if_pos (htab.mpr htabbed)]
  · rw [if_neg htabbed, if_neg (mt htab.mp htabbed)]
    rfl

/-- What a line can come to. -/
inductive Reads (line : Nat) (blocks : List Nat) (text : List Char) :
    Except LexError (List PlacedToken × List Nat) → Prop
  | bare (hbare : Bare text) : Reads line blocks text (.ok ([], blocks))
  | tab (hcode : ¬Bare text) (htab : TabIndented text) :
    Reads line blocks text (.error (.tabIndentation line))
  | unfit (hcode : ¬Bare text) (htab : ¬TabIndented text) (error : LexError)
    (hadjust : adjust blocks line (indentation text) = .error error) :
    Reads line blocks text (.error error)
  | faulty (hcode : ¬Bare text) (htab : ¬TabIndented text) (layout : List PlacedToken)
    (kept : List Nat) (hadjust : adjust blocks line (indentation text) = .ok (layout, kept))
    (before : List Char) (fault : LexemeFault)
    (hstumbles : Stumbles before (uncommented text) fault) :
    Reads line blocks text (.error (.ofFault line (byteCount before + 1) fault))
  | code (hcode : ¬Bare text) (htab : ¬TabIndented text) (layout : List PlacedToken)
    (kept : List Nat) (hadjust : adjust blocks line (indentation text) = .ok (layout, kept))
    (pieces : List Piece) (hcovers : Covers pieces (uncommented text)) :
    Reads line blocks text (.ok (layout ++ place line [] pieces ++
      [⟨.newline, line, byteCount (code text) + 1⟩], kept))

theorem lineTokens_reads (line : Nat) (blocks : List Nat) (text : List Char) :
    Reads line blocks text (lineTokens line blocks text) := by
  by_cases hbare : Bare text
  · rw [lineTokens_of_bare hbare]
    exact .bare hbare
  · rw [lineTokens_of_code hbare]
    by_cases htab : TabIndented text
    · rw [if_pos htab]
      exact .tab hbare htab
    · rw [if_neg htab]
      cases hadjust : adjust blocks line (indentation text) with
      | error error => exact .unfit hbare htab error hadjust
      | ok adjusted =>
        obtain ⟨layout, kept⟩ := adjusted
        obtain ⟨pieces, hcovers⟩ | ⟨before, fault, hstumbles⟩ := munches_total (uncommented text)
        · simp only [Except.bind, tokens_of_covers hcovers]
          exact .code hbare htab layout kept hadjust pieces hcovers
        · simp only [Except.bind, tokens_of_stumbles hstumbles]
          exact .faulty hbare htab layout kept hadjust before fault hstumbles

/-- An indent, or dedents, if any, in front of a line. -/
def IsLayout (line : Nat) (ts : List PlacedToken) : Prop :=
  ts = [⟨.indent, line, 1⟩] ∨ ∃ n, ts = List.replicate n ⟨.dedent, line, 1⟩

theorem IsLayout.of_mem {t : PlacedToken} (h : IsLayout line ts) (ht : t ∈ ts) :
    (t.token = .indent ∨ t.token = .dedent) ∧ t.line = line ∧ t.column = 1 := by
  obtain rfl | ⟨n, rfl⟩ := h
  · rw [List.mem_singleton.mp ht]
    exact ⟨.inl rfl, rfl, rfl⟩
  · rw [List.eq_of_mem_replicate ht]
    exact ⟨.inr rfl, rfl, rfl⟩

theorem adjust_isLayout {width : Nat} (h : adjust blocks line width = .ok (ts, kept)) :
    IsLayout line ts := by
  rw [adjust] at h
  split at h
  · cases h
    exact .inl rfl
  · dsimp only at h
    split at h <;> cases h
    exact .inr ⟨_, List.map_const' ..⟩

theorem adjust_eq_error {width : Nat} (h : adjust blocks line width = .error error) :
    error = .inconsistentDedent width line := by
  rw [adjust] at h
  split at h
  · cases h
  · dsimp only at h
    split at h <;> cases h
    rfl

/-- The tokens of a line stand on it. -/
theorem line_of_mem_lineTokens {t : PlacedToken} (h : lineTokens line blocks text = .ok (ts, kept))
    (ht : t ∈ ts) : t.line = line := by
  have hreads := lineTokens_reads line blocks text
  rw [h] at hreads
  cases hreads with
  | bare hbare => cases ht
  | code hcode htab layout _ hadjust pieces hcovers =>
    obtain ⟨left, hmunches, -⟩ := hcovers
    obtain ht | ht := List.mem_append.mp ht
    · obtain ht | ht := List.mem_append.mp ht
      · exact ((adjust_isLayout hadjust).of_mem ht).2.1
      · exact (hmunches.mem_place ht).1
    · rw [List.mem_singleton.mp ht]

/-- An error of a line is about that line. -/
theorem line_of_lineTokens_eq_error (h : lineTokens line blocks text = .error error) :
    error.line = line := by
  have hreads := lineTokens_reads line blocks text
  rw [h] at hreads
  cases hreads with
  | tab hcode htab => rfl
  | unfit hcode htab _ hadjust =>
    rw [adjust_eq_error hadjust]
    rfl
  | faulty hcode htab layout kept hadjust before fault hstumbles =>
    exact LexError.line_ofFault line _ fault

/-- A line that is indented well fails with a fault exactly if its text stumbles over that. -/
theorem lineTokens_eq_fault_iff {fault : LexemeFault} (hcode : ¬Bare text)
    (htab : lineTokens line blocks text ≠ .error (.tabIndentation line))
    (hdedent : ∀ width, lineTokens line blocks text ≠ .error (.inconsistentDedent width line)) :
    lineTokens line blocks text = .error (.ofFault line column fault) ↔
      ∃ front, Stumbles front (uncommented text) fault ∧ column = byteCount front + 1 := by
  have htokens := @tokens_eq_fault_iff (uncommented text) fault line column
  rw [← htokens]
  have hreads := lineTokens_reads line blocks text
  generalize lineTokens line blocks text = result at hreads htab hdedent ⊢
  cases hreads with
  | bare hbare => exact absurd hbare hcode
  | tab _ _ => exact absurd rfl htab
  | unfit _ _ error hadjust => exact absurd (congrArg _ (adjust_eq_error hadjust)) (hdedent _)
  | faulty _ _ layout kept hadjust before fault' hstumbles =>
    rw [tokens_of_stumbles hstumbles]
    constructor
    · intro h
      exact congrArg _ (Except.error.inj h)
    · intro h
      exact congrArg _ (Except.error.inj h)
  | code _ _ layout kept hadjust pieces hcovers =>
    rw [tokens_of_covers hcovers]
    constructor
    · intro h
      cases h
    · intro h
      cases h

/-! ### Line after line -/

/-- The tokens of the lines from the given line on, and the blocks that are open behind them. -/
def readLines (line : Nat) (blocks : List Nat) :
    List (List Char) → Except LexError (List PlacedToken × List Nat)
  | [] => .ok ([], blocks)
  | text :: texts => do
    let (first, kept) ← lineTokens line blocks text
    let (rest, last) ← readLines (line + 1) kept texts
    .ok (first ++ rest, last)

/-- The tokens that close the open blocks and end the input. -/
def closing (line : Nat) (blocks : List Nat) : List PlacedToken :=
  blocks.map (fun _ ↦ ⟨.dedent, line, 1⟩) ++ [⟨.endOfInput, line, 1⟩]

variable {texts before after : List (List Char)} {last : List Nat}

theorem readLines_cons_eq_ok : readLines line blocks (text :: texts) = .ok (ts, last) ↔
    ∃ first kept rest, lineTokens line blocks text = .ok (first, kept) ∧
      readLines (line + 1) kept texts = .ok (rest, last) ∧ ts = first ++ rest := by
  rw [readLines]
  constructor
  · intro h
    obtain ⟨⟨first, kept⟩, hfirst, h⟩ := bind_eq_ok.mp h
    obtain ⟨⟨rest, _⟩, hrest, h⟩ := bind_eq_ok.mp h
    cases h
    exact ⟨first, kept, rest, hfirst, hrest, rfl⟩
  · rintro ⟨first, kept, rest, hfirst, hrest, rfl⟩
    exact bind_eq_ok.mpr ⟨(first, kept), hfirst, bind_eq_ok.mpr ⟨(rest, last), hrest, rfl⟩⟩

/-- The tokens of a whole text are those of its lines, and what closes them. -/
theorem linesTokens_eq (line : Nat) (blocks : List Nat) (texts : List (List Char)) :
    linesTokens line blocks texts =
      (readLines line blocks texts).map fun (ts, last) ↦
        ts ++ closing (line + texts.length) last := by
  induction texts generalizing line blocks with
  | nil => rfl
  | cons text texts ih =>
    rw [linesTokens, readLines]
    cases lineTokens line blocks text with
    | error error => rfl
    | ok read =>
      obtain ⟨first, kept⟩ := read
      simp only [bind, Except.bind]
      rw [ih]
      cases readLines (line + 1) kept texts with
      | error error => rfl
      | ok read =>
        have hlength : line + (text :: texts).length = line + 1 + texts.length := by
          rw [List.length_cons]
          omega
        rw [hlength]
        exact congrArg Except.ok (List.append_assoc first _ _).symm

theorem linesTokens_eq_ok : linesTokens line blocks texts = .ok ts ↔
    ∃ us last, readLines line blocks texts = .ok (us, last) ∧
      ts = us ++ closing (line + texts.length) last := by
  rw [linesTokens_eq, map_eq_ok]
  constructor
  · rintro ⟨⟨us, last⟩, hread, rfl⟩
    exact ⟨us, last, hread, rfl⟩
  · rintro ⟨us, last, hread, rfl⟩
    exact ⟨(us, last), hread, rfl⟩

theorem linesTokens_eq_error :
    linesTokens line blocks texts = .error error ↔ readLines line blocks texts = .error error := by
  rw [linesTokens_eq]
  cases readLines line blocks texts with
  | error error' => exact ⟨fun h ↦ by cases h; rfl, fun h ↦ by cases h; rfl⟩
  | ok read => exact ⟨nofun, nofun⟩

/-- The first lines are read, and then the others. -/
theorem readLines_append (line : Nat) (blocks : List Nat) (before after : List (List Char)) :
    readLines line blocks (before ++ after) = do
      let (us, kept) ← readLines line blocks before
      let (vs, last) ← readLines (line + before.length) kept after
      return (us ++ vs, last) := by
  induction before generalizing line blocks with
  | nil =>
    rw [List.nil_append, readLines, List.length_nil, Nat.add_zero]
    simp only [bind, Except.bind, pure, Except.pure]
    cases readLines line blocks after <;> rfl
  | cons text before ih =>
    have hlength : line + (text :: before).length = line + 1 + before.length := by
      rw [List.length_cons]
      omega
    rw [List.cons_append, readLines, readLines, hlength]
    cases lineTokens line blocks text with
    | error error => rfl
    | ok read =>
      obtain ⟨first, kept⟩ := read
      simp only [bind, Except.bind, pure, Except.pure, ih]
      cases readLines (line + 1) kept before with
      | error error => rfl
      | ok read =>
        obtain ⟨us, inner⟩ := read
        dsimp only
        cases readLines (line + 1 + before.length) inner after with
        | error error => rfl
        | ok read => simp only [List.append_assoc]

theorem readLines_append_eq_ok : readLines line blocks (before ++ after) = .ok (ts, last) ↔
    ∃ us kept vs, readLines line blocks before = .ok (us, kept) ∧
      readLines (line + before.length) kept after = .ok (vs, last) ∧ ts = us ++ vs := by
  rw [readLines_append]
  constructor
  · intro h
    obtain ⟨⟨us, kept⟩, hus, h⟩ := bind_eq_ok.mp h
    obtain ⟨⟨vs, _⟩, hvs, h⟩ := bind_eq_ok.mp h
    cases h
    exact ⟨us, kept, vs, hus, hvs, rfl⟩
  · rintro ⟨us, kept, vs, hus, hvs, rfl⟩
    exact bind_eq_ok.mpr ⟨(us, kept), hus, bind_eq_ok.mpr ⟨(vs, last), hvs, rfl⟩⟩

/-- Where lines have no tokens, one of them has none behind those in front of it. -/
theorem exists_failing_line (h : readLines line blocks texts = .error error) :
    ∃ before text after us kept, texts = before ++ text :: after ∧
      readLines line blocks before = .ok (us, kept) ∧
        lineTokens (line + before.length) kept text = .error error := by
  induction texts generalizing line blocks with
  | nil => cases h
  | cons text texts ih =>
    cases hfirst : lineTokens line blocks text with
    | error error' =>
      rw [readLines, hfirst] at h
      cases h
      exact ⟨[], text, texts, [], blocks, rfl, rfl, hfirst⟩
    | ok read =>
      obtain ⟨first, kept⟩ := read
      cases hrest : readLines (line + 1) kept texts with
      | ok read =>
        rw [readLines_cons_eq_ok.mpr ⟨first, kept, read.1, hfirst, hrest, rfl⟩] at h
        cases h
      | error error' =>
        rw [readLines, hfirst] at h
        simp only [bind, Except.bind, hrest] at h
        cases h
        obtain ⟨before, text', after, us, kept', rfl, hus, hfail⟩ := ih hrest
        refine ⟨text :: before, text', after, first ++ us, kept', rfl,
          readLines_cons_eq_ok.mpr ⟨first, kept, us, hfirst, hus, rfl⟩, ?_⟩
        rwa [List.length_cons, Nat.add_comm before.length, ← Nat.add_assoc]

theorem mem_closing {t : PlacedToken} (ht : t ∈ closing line blocks) :
    t = ⟨.dedent, line, 1⟩ ∨ t = ⟨.endOfInput, line, 1⟩ := by
  obtain ht | ht := List.mem_append.mp ht
  · obtain ⟨_, -, rfl⟩ := List.mem_map.mp ht
    exact .inl rfl
  · exact .inr (List.mem_singleton.mp ht)

theorem line_of_mem_closing {t : PlacedToken} (ht : t ∈ closing line blocks) : t.line = line := by
  obtain rfl | rfl := mem_closing ht
  · rfl
  · rfl

/-- An error of lines is about one of them. -/
theorem line_of_readLines_eq_error (h : readLines line blocks texts = .error error) :
    line ≤ error.line := by
  obtain ⟨before, text, after, us, kept, -, -, hfail⟩ := exists_failing_line h
  rw [line_of_lineTokens_eq_error hfail]
  exact Nat.le_add_right line before.length

/-- The tokens of lines stand on these lines. -/
theorem line_of_mem_readLines {t : PlacedToken} (h : readLines line blocks texts = .ok (ts, last))
    (ht : t ∈ ts) : line ≤ t.line ∧ t.line < line + texts.length := by
  induction texts generalizing line blocks ts with
  | nil =>
    cases h
    cases ht
  | cons text texts ih =>
    obtain ⟨first, kept, rest, hfirst, hrest, rfl⟩ := readLines_cons_eq_ok.mp h
    rw [List.length_cons]
    obtain ht | ht := List.mem_append.mp ht
    · have hline := line_of_mem_lineTokens hfirst ht
      omega
    · have hlines := ih hrest ht
      omega

/-- Where the lines in front of a line are read, a text fails with an error about that line exactly
if the line does. -/
theorem linesTokens_eq_error_iff {us : List PlacedToken}
    (hbefore : readLines line blocks before = .ok (us, kept))
    (herror : error.line = line + before.length) :
    linesTokens line blocks (before ++ text :: after) = .error error ↔
      lineTokens (line + before.length) kept text = .error error := by
  rw [linesTokens_eq_error, readLines_append, hbefore]
  simp only [bind, Except.bind, readLines]
  cases lineTokens (line + before.length) kept text with
  | error error' => exact ⟨fun h ↦ by cases h; rfl, fun h ↦ by cases h; rfl⟩
  | ok read =>
    obtain ⟨first, inner⟩ := read
    dsimp only
    cases hrest : readLines (line + before.length + 1) inner after with
    | ok read => exact ⟨nofun, nofun⟩
    | error error' =>
      -- What fails behind the line is about a line behind it.
      have hline := line_of_readLines_eq_error hrest
      refine ⟨fun h ↦ ?_, nofun⟩
      cases h
      omega

/-! ### The tokens on a line -/

/-- The tokens on a line. -/
def onLine (line : Nat) (ts : List PlacedToken) : List PlacedToken :=
  ts.filter (·.line = line)

/-- The tokens on a line and on those in front of it. -/
def upToLine (line : Nat) (ts : List PlacedToken) : List PlacedToken :=
  ts.filter (·.line ≤ line)

/-- On a line of a text that has tokens there are those of the line, between those of the lines in
front of it and those behind. -/
theorem linesTokens_at (h : linesTokens line blocks (before ++ text :: after) = .ok ts) :
    ∃ us kept first inner, readLines line blocks before = .ok (us, kept) ∧
      lineTokens (line + before.length) kept text = .ok (first, inner) ∧
        onLine (line + before.length) ts = first ∧
          upToLine (line + before.length) ts = us ++ first := by
  obtain ⟨read, last, hread, rfl⟩ := linesTokens_eq_ok.mp h
  obtain ⟨us, kept, vs, hus, hvs, rfl⟩ := readLines_append_eq_ok.mp hread
  obtain ⟨first, inner, rest, hfirst, hrest, rfl⟩ := readLines_cons_eq_ok.mp hvs
  have hbefore (t : PlacedToken) (ht : t ∈ us) := (line_of_mem_readLines hus ht).2
  have hon (t : PlacedToken) (ht : t ∈ first) := line_of_mem_lineTokens hfirst ht
  have hbehind : ∀ t ∈ rest ++ closing (line + (before ++ text :: after).length) last,
      line + before.length < t.line := by
    intro t ht
    obtain ht | ht := List.mem_append.mp ht
    · exact (line_of_mem_readLines hrest ht).1
    · rw [line_of_mem_closing ht, List.length_append, List.length_cons]
      omega
  refine ⟨us, kept, first, inner, hus, hfirst, ?_, ?_⟩
  · have hnone : onLine (line + before.length) us = [] :=
      List.filter_eq_nil_iff.mpr fun t ht ↦ by simpa using Nat.ne_of_lt (hbefore t ht)
    have hall : onLine (line + before.length) first = first :=
      List.filter_eq_self.mpr fun t ht ↦ decide_eq_true (hon t ht)
    have hnone' : onLine (line + before.length) _ = [] :=
      List.filter_eq_nil_iff.mpr fun t ht ↦ by simpa using Nat.ne_of_gt (hbehind t ht)
    rw [List.append_assoc, List.append_assoc, onLine, List.filter_append, List.filter_append,
      ← onLine, ← onLine, ← onLine, hnone, hall, hnone', List.nil_append, List.append_nil]
  · have hall : upToLine (line + before.length) us = us :=
      List.filter_eq_self.mpr fun t ht ↦ decide_eq_true (Nat.le_of_lt (hbefore t ht))
    have hall' : upToLine (line + before.length) first = first :=
      List.filter_eq_self.mpr fun t ht ↦ decide_eq_true (Nat.le_of_eq (hon t ht))
    have hnone : upToLine (line + before.length) _ = [] :=
      List.filter_eq_nil_iff.mpr fun t ht ↦ by simpa using hbehind t ht
    rw [List.append_assoc, List.append_assoc, upToLine, List.filter_append, List.filter_append,
      ← upToLine, ← upToLine, ← upToLine, hall, hall', hnone, List.append_nil]

end Layout

end Offside
