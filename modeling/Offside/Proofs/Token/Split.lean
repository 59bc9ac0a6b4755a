import Offside.Proofs.Except
import Offside.Proofs.Token.Patterns

/-!
How a text is split from the left. A piece is a slice with the blank characters in front of it and
the token that is written so; `Munches pieces text left` splits a text into such pieces, each slice
the longest match where it stands, up to what is left. Every text is split so up to blanks or up to
a fault (`munches_total`), and in one way (`Covers.unique`). The tokens of a text are those of its pieces,
each placed at the byte where its slice starts (`tokens_eq_ok_iff`), and it fails where the split
comes to a fault (`tokens_eq_fault_iff`).
-/

set_option autoImplicit false
set_option relaxedAutoImplicit false

namespace Offside

theorem LexError.ofFault_inj {line column column' : Nat} {fault fault' : LexemeFault}
    (h : ofFault line column fault = ofFault line column' fault') :
    column = column' ∧ fault = fault' := by
  cases fault <;> cases fault' <;> cases h <;> exact ⟨rfl, rfl⟩

/-- A slice of a text with the gap in front of it and the token that the slice is read as. -/
structure Piece where
  gap : List Char
  slice : List Char
  token : Token

namespace Piece

def text (p : Piece) : List Char :=
  p.gap ++ p.slice

/-- The text of pieces that follow each other. -/
def texts (pieces : List Piece) : List Char :=
  pieces.flatMap text

/-- The tokens of pieces that stand on a line behind the given text. The column of each counts the
bytes of all that is in front of its slice. -/
def place (line : Nat) (before : List Char) : List Piece → List PlacedToken
  | [] => []
  | p :: pieces =>
    ⟨p.token, line, Layout.byteCount (before ++ p.gap) + 1⟩ :: place line (before ++ p.text) pieces

end Piece

open Piece

/-- The text is split into the pieces from the left, down to what is left. Each slice is as long as
a match in front of all that is behind its gap can be. -/
inductive Munches : List Piece → List Char → List Char → Prop
  | nil (left : List Char) : Munches [] left left
  | cons (p : Piece) (pieces : List Piece) (text left : List Char)
    (hgap : ∀ c ∈ p.gap, Text.isBlank c = true)
    (hlongest : LongestMatch p.slice (p.slice ++ text)) (hwritten : p.token.WrittenAs p.slice)
    (h : Munches pieces text left) : Munches (p :: pieces) (p.gap ++ (p.slice ++ text)) left

/-- The pieces are what the text is split into, but for blanks at its end. -/
def Covers (pieces : List Piece) (text : List Char) : Prop :=
  ∃ left, Munches pieces text left ∧ ∀ c ∈ left, Text.isBlank c = true

/-- The text is split down to a fault, which stands behind `before`. -/
def Stumbles (before text : List Char) (fault : LexemeFault) : Prop :=
  ∃ pieces gap left, Munches pieces text (gap ++ left) ∧ (∀ c ∈ gap, Text.isBlank c = true) ∧
    Faulty left fault ∧ before = texts pieces ++ gap

variable {p : Piece} {pieces others : List Piece} {before text left : List Char}
variable {fault : LexemeFault}

/-! ### Pieces -/

namespace Munches

theorem text_eq (h : Munches pieces text left) : text = texts pieces ++ left := by
  induction h with
  | nil left => rfl
  | cons p pieces text left hgap hlongest hwritten h ih =>
    rw [texts, List.flatMap_cons, ← texts, Piece.text]
    simp only [List.append_assoc]
    rw [← ih]

/-- The slices are what the text has of other characters than blanks, but for what is left. -/
theorem flatMap_slice (h : Munches pieces text left) :
    text.filter (!Text.isBlank ·) =
      pieces.flatMap Piece.slice ++ left.filter (!Text.isBlank ·) := by
  induction h with
  | nil left => rfl
  | cons p pieces text left hgap hlongest hwritten h ih =>
    have hempty : p.gap.filter (!Text.isBlank ·) = [] :=
      List.filter_eq_nil_iff.mpr fun c hc ↦ by simp [hgap c hc]
    have hfull : p.slice.filter (!Text.isBlank ·) = p.slice :=
      List.filter_eq_self.mpr fun c hc ↦ by simp [hlongest.isMatch.no_blank c hc]
    rw [List.filter_append, List.filter_append, hempty, hfull, ih, List.flatMap_cons,
      List.nil_append, List.append_assoc]

end Munches

theorem Covers.flatMap_slice (h : Covers pieces text) :
    pieces.flatMap Piece.slice = text.filter (!Text.isBlank ·) := by
  obtain ⟨left, hmunches, hleft⟩ := h
  have hempty : left.filter (!Text.isBlank ·) = [] :=
    List.filter_eq_nil_iff.mpr fun c hc ↦ by simp [hleft c hc]
  rw [hmunches.flatMap_slice, hempty, List.append_nil]

/-- The gap in front of a match is as long as there are blanks. -/
theorem gap_unique {gap gap' slice slice' text text' : List Char}
    (hgap : ∀ c ∈ gap, Text.isBlank c = true) (hgap' : ∀ c ∈ gap', Text.isBlank c = true)
    (hslice : IsMatch slice) (hslice' : IsMatch slice')
    (h : gap ++ (slice ++ text) = gap' ++ (slice' ++ text')) :
    gap = gap' ∧ slice ++ text = slice' ++ text' := by
  have htaken {gap slice text : List Char} (hgap : ∀ c ∈ gap, Text.isBlank c = true)
      (hslice : IsMatch slice) : (gap ++ (slice ++ text)).takeWhile Text.isBlank = gap := by
    obtain ⟨c, more, rfl⟩ := List.exists_cons_of_ne_nil hslice.ne_nil
    refine Source.takeWhile_append hgap ?_
    rintro _ ⟨⟩
    exact hslice.no_blank c List.mem_cons_self
  have hsame : gap = gap' := by rw [← htaken hgap hslice, h, htaken hgap' hslice']
  subst hsame
  exact ⟨rfl, List.append_cancel_left h⟩

/-- A match is not in front of blanks. -/
theorem Munches.not_blank (h : Munches (p :: pieces) text left) :
    ¬∀ c ∈ text, Text.isBlank c = true := by
  intro hblank
  cases h with
  | cons _ _ text left hgap hlongest hwritten h =>
    obtain ⟨c, more, hslice⟩ := List.exists_cons_of_ne_nil hlongest.isMatch.ne_nil
    have hc : c ∈ p.slice := hslice ▸ List.mem_cons_self
    have hnot := hlongest.isMatch.no_blank c hc
    rw [hblank c (List.mem_append_right _ (List.mem_append_left _ hc))] at hnot
    cases hnot

/-! ### Ways to split -/

/-- A text is split in one way. -/
theorem Covers.unique (h : Covers pieces text) (h' : Covers others text) : pieces = others := by
  obtain ⟨left, hmunches, hleft⟩ := h
  induction hmunches generalizing others with
  | nil left =>
    obtain ⟨left', hmunches', -⟩ := h'
    cases others with
    | nil => rfl
    | cons p others => exact absurd hleft hmunches'.not_blank
  | cons p pieces text left hgap hlongest hwritten hmunches ih =>
    obtain ⟨left', hmunches', hleft'⟩ := h'
    generalize htext : p.gap ++ (p.slice ++ text) = whole at hmunches'
    cases hmunches' with
    | nil =>
      rw [← htext] at hleft'
      have hwhole := Munches.cons p pieces text left hgap hlongest hwritten hmunches
      exact absurd hleft' hwhole.not_blank
    | cons p' pieces' text' _ hgap' hlongest' hwritten' hmunches' =>
      obtain ⟨hsameGap, hrest⟩ :=
        gap_unique hgap hgap' hlongest.isMatch hlongest'.isMatch htext
      have hslice : p.slice = p'.slice := (hrest ▸ hlongest).unique hlongest'
      have htoken : p.token = p'.token := hwritten.unique (hslice ▸ hwritten')
      rw [hslice] at hrest
      obtain rfl := List.append_cancel_left hrest
      have hpiece : p = p' := by
        cases p
        cases p'
        simp_all
      rw [hpiece, ih ⟨left', hmunches', hleft'⟩ hleft]

/-- Behind its blanks a text ends, or has a fault, or begins with a piece. -/
theorem front_cases (text : List Char) : ∃ gap left, text = gap ++ left ∧
    (∀ c ∈ gap, Text.isBlank c = true) ∧
      (left = [] ∨ (∃ fault, Faulty left fault) ∨
        ∃ slice rest t, left = slice ++ rest ∧ LongestMatch slice (slice ++ rest) ∧
          Token.WrittenAs t slice) := by
  refine ⟨text.takeWhile Text.isBlank, text.dropWhile Text.isBlank,
    List.takeWhile_append_dropWhile.symm, fun c ↦ List.mem_takeWhile_imp, ?_⟩
  have hfront := List.head?_dropWhile_not Text.isBlank text
  cases hleft : text.dropWhile Text.isBlank with
  | nil => exact .inl rfl
  | cons c cs =>
    rw [hleft] at hfront
    cases hread : Lexeme.read c cs with
    | error fault => exact .inr (.inl ⟨fault, faulty_of_read hfront hread⟩)
    | ok lexeme =>
      obtain ⟨hlongest, hwritten, -⟩ := longestMatch_of_read hread
      have hcs : c :: cs = (c :: cs.take lexeme.further) ++ cs.drop lexeme.further := by
        rw [List.cons_append, List.take_append_drop]
      exact .inr (.inr ⟨_, _, lexeme.token, hcs, hcs ▸ hlongest, hwritten⟩)

/-- A text is split up to blanks or up to a fault. -/
theorem munches_total (text : List Char) :
    (∃ pieces, Covers pieces text) ∨ ∃ before fault, Stumbles before text fault := by
  induction hn : text.length using Nat.strongRecOn generalizing text with
  | _ n ih =>
    subst hn
    obtain ⟨gap, left, rfl, hgap, rfl | ⟨fault, hfault⟩ |
      ⟨slice, rest, t, rfl, hlongest, hwritten⟩⟩ := front_cases text
    · exact .inl ⟨[], gap ++ [], .nil _, by rwa [List.append_nil]⟩
    · exact .inr ⟨gap, fault, [], gap, left, .nil _, hgap, hfault, rfl⟩
    · have hshorter : rest.length < (gap ++ (slice ++ rest)).length := by
        have hpos := List.length_pos_iff.mpr hlongest.isMatch.ne_nil
        rw [List.length_append, List.length_append]
        omega
      obtain ⟨pieces, left, hmunches, hleft⟩ | ⟨_, fault, pieces, gap', left, hmunches, hstop⟩ :=
        ih rest.length hshorter rest rfl
      · exact .inl ⟨⟨gap, slice, t⟩ :: pieces, left,
          .cons ⟨gap, slice, t⟩ pieces rest left hgap hlongest hwritten hmunches, hleft⟩
      · exact .inr ⟨_, fault, ⟨gap, slice, t⟩ :: pieces, gap', left,
          .cons ⟨gap, slice, t⟩ pieces rest _ hgap hlongest hwritten hmunches,
          hstop.1, hstop.2.1, rfl⟩

/-- Blanks behind a text are left by the pieces it is split into. -/
theorem Munches.append_blanks {blanks : List Char} (h : Munches pieces text left)
    (hblanks : ∀ c ∈ blanks, Text.isBlank c = true) :
    Munches pieces (text ++ blanks) (left ++ blanks) := by
  induction h with
  | nil left => exact .nil (left ++ blanks)
  | cons p pieces text left hgap hlongest hwritten h ih =>
    rw [List.append_assoc, List.append_assoc]
    refine .cons p pieces (text ++ blanks) (left ++ blanks) hgap ?_ hwritten ih
    rw [← List.append_assoc]
    exact hlongest.append_blanks hblanks

theorem Covers.append_blanks {blanks : List Char} (h : Covers pieces text)
    (hblanks : ∀ c ∈ blanks, Text.isBlank c = true) : Covers pieces (text ++ blanks) := by
  obtain ⟨left, hmunches, hleft⟩ := h
  exact ⟨left ++ blanks, hmunches.append_blanks hblanks,
    List.forall_mem_append.mpr ⟨hleft, hblanks⟩⟩

theorem Stumbles.append_blanks {blanks : List Char} (h : Stumbles before text fault)
    (hblanks : ∀ c ∈ blanks, Text.isBlank c = true) :
    Stumbles before (text ++ blanks) fault := by
  obtain ⟨pieces, gap, left, hmunches, hgap, hfault, hbefore⟩ := h
  have hmore := hmunches.append_blanks hblanks
  rw [List.append_assoc] at hmore
  exact ⟨pieces, gap, left ++ blanks, hmore, hgap, hfault.append_blanks hblanks, hbefore⟩

/-! ### Tokens -/

namespace Layout

variable {line column : Nat} {ts : List PlacedToken}

theorem tokens_of_blanks {gap : List Char} (hgap : ∀ c ∈ gap, Text.isBlank c = true)
    (line column : Nat) (cs : List Char) :
    tokens line column (gap ++ cs) = tokens line (column + byteCount gap) cs := by
  induction gap generalizing column with
  | nil => rfl
  | cons c gap ih =>
    obtain ⟨hc, hgap⟩ := List.forall_mem_cons.mp hgap
    rw [List.cons_append, tokens, if_pos hc, ih hgap, byteCount, Nat.add_assoc]

/-- The tokens of a text are those of its pieces and of what is left. -/
theorem tokens_of_munches (h : Munches pieces text left) (line : Nat) (before : List Char) :
    tokens line (byteCount before + 1) text =
      (tokens line (byteCount (before ++ texts pieces) + 1) left).map
        (place line before pieces ++ ·) := by
  induction h generalizing before with
  | nil left =>
    have hbefore : before ++ texts [] = before := List.append_nil before
    rw [hbefore]
    cases tokens line (byteCount before + 1) left <;> rfl
  | cons p pieces text left hgap hlongest hwritten h ih =>
    obtain ⟨gap, slice, t⟩ := p
    obtain ⟨c, more, rfl⟩ := List.exists_cons_of_ne_nil hlongest.isMatch.ne_nil
    have hblank := hlongest.isMatch.no_blank c List.mem_cons_self
    have hread := read_eq_ok_iff.mpr ⟨hlongest, hwritten⟩
    have hcolumn : byteCount before + 1 + byteCount gap = byteCount (before ++ gap) + 1 := by
      rw [byteCount_append]
      omega
    have hnext : byteCount (before ++ gap) + 1 + byteCount (c :: more) =
        byteCount (before ++ (gap ++ c :: more)) + 1 := by
      rw [← List.append_assoc, byteCount_append (before ++ gap)]
      omega
    have hbefore : before ++ texts (⟨gap, c :: more, t⟩ :: pieces) =
        before ++ (gap ++ c :: more) ++ texts pieces :=
      (List.append_assoc _ _ _).symm
    rw [tokens_of_blanks hgap, hcolumn, List.cons_append, tokens, if_neg (by simp [hblank]), hread]
    simp only [List.take_left, List.drop_left]
    rw [hnext, ih, hbefore]
    cases tokens line _ left <;> rfl

theorem tokens_of_covers (h : Covers pieces text) (line : Nat) :
    tokens line 1 text = .ok (place line [] pieces) := by
  obtain ⟨left, hmunches, hleft⟩ := h
  have hrest (column : Nat) : tokens line column left = .ok [] := by
    have hblanks := tokens_of_blanks hleft line column []
    rw [List.append_nil] at hblanks
    rw [hblanks, tokens]
  have htokens := tokens_of_munches hmunches line []
  rw [hrest] at htokens
  exact htokens.trans (congrArg Except.ok (List.append_nil _))

theorem tokens_of_stumbles (h : Stumbles before text fault) (line : Nat) :
    tokens line 1 text = .error (.ofFault line (byteCount before + 1) fault) := by
  obtain ⟨pieces, gap, left, hmunches, hgap, hfault, rfl⟩ := h
  have hfail (column : Nat) : tokens line column left = .error (.ofFault line column fault) := by
    obtain ⟨c, cs, rfl, hblank⟩ := hfault.exists_cons
    rw [tokens, if_neg (by simp [hblank]), read_of_faulty hfault]
  have hcolumn : byteCount (texts pieces) + 1 + byteCount gap =
      byteCount (texts pieces ++ gap) + 1 := by
    rw [byteCount_append]
    omega
  have htokens := tokens_of_munches hmunches line []
  rw [List.nil_append, tokens_of_blanks hgap, hcolumn, hfail] at htokens
  exact htokens

/-- Blanks behind a text do not change its tokens. -/
theorem tokens_append_blanks {blanks : List Char} (hblanks : ∀ c ∈ blanks, Text.isBlank c = true)
    (line : Nat) (text : List Char) : tokens line 1 (text ++ blanks) = tokens line 1 text := by
  obtain ⟨pieces, hcovers⟩ | ⟨before, fault, hstumbles⟩ := munches_total text
  · rw [tokens_of_covers hcovers, tokens_of_covers (hcovers.append_blanks hblanks)]
  · rw [tokens_of_stumbles hstumbles, tokens_of_stumbles (hstumbles.append_blanks hblanks)]

/-- The tokens of a text are those of the pieces it is split into. -/
theorem tokens_eq_ok_iff :
    tokens line 1 text = .ok ts ↔ ∃ pieces, Covers pieces text ∧ ts = place line [] pieces := by
  constructor
  · intro h
    obtain ⟨pieces, hcovers⟩ | ⟨before, fault, hstumbles⟩ := munches_total text
    · rw [tokens_of_covers hcovers] at h
      exact ⟨pieces, hcovers, (Except.ok.inj h).symm⟩
    · rw [tokens_of_stumbles hstumbles] at h
      cases h
  · rintro ⟨pieces, hcovers, rfl⟩
    exact tokens_of_covers hcovers line

/-- A text fails with a fault in a column exactly if it is split up to that fault there. -/
theorem tokens_eq_fault_iff : tokens line 1 text = .error (.ofFault line column fault) ↔
    ∃ before, Stumbles before text fault ∧ column = byteCount before + 1 := by
  constructor
  · intro h
    obtain ⟨pieces, hcovers⟩ | ⟨before, fault', hstumbles⟩ := munches_total text
    · rw [tokens_of_covers hcovers] at h
      cases h
    · rw [tokens_of_stumbles hstumbles] at h
      obtain ⟨rfl, rfl⟩ := LexError.ofFault_inj (Except.error.inj h)
      exact ⟨before, hstumbles, rfl⟩
  · rintro ⟨before, hstumbles, rfl⟩
    exact tokens_of_stumbles hstumbles line

end Layout

/-! ### Places -/

section

variable {line : Nat} {t : PlacedToken}

/-- A token that is not there for the layout alone. -/
def Token.isOrdinary : Token → Bool
  | .newline | .indent | .dedent | .endOfInput => false
  | _ => true

theorem Token.WrittenAs.isOrdinary {t : Token} {cs : List Char} (h : t.WrittenAs cs) :
    t.isOrdinary = true := by
  cases t <;> first | rfl | exact h.elim

/-- An ordinary token opens no block and closes none. -/
theorem Token.flat_of_isOrdinary {t : Token} (h : t.isOrdinary = true) :
    t ≠ .indent ∧ t ≠ .dedent := by
  constructor
  · rintro rfl
    cases h
  · rintro rfl
    cases h

theorem Layout.byteCount_pos {cs : List Char} (h : cs ≠ []) : 0 < byteCount cs := by
  obtain ⟨c, more, rfl⟩ := List.exists_cons_of_ne_nil h
  exact Nat.add_pos_left c.utf8Size_pos _

theorem Munches.exists_writtenAs (h : Munches pieces text left)
    (ht : t ∈ place line before pieces) : ∃ slice, t.token.WrittenAs slice := by
  induction h generalizing before with
  | nil left => cases ht
  | cons p pieces text left hgap hlongest hwritten h ih =>
    obtain rfl | ht := List.mem_cons.mp ht
    · exact ⟨p.slice, hwritten⟩
    · exact ih ht

theorem Munches.isOrdinary (h : Munches pieces text left) (ht : t ∈ place line before pieces) :
    t.token.isOrdinary = true := by
  obtain ⟨slice, hwritten⟩ := h.exists_writtenAs ht
  exact hwritten.isOrdinary

/-- The tokens of pieces stand on their line, in the columns of the text. -/
theorem Munches.mem_place (h : Munches pieces text left) (ht : t ∈ place line before pieces) :
    t.line = line ∧ Layout.byteCount before < t.column ∧
      t.column ≤ Layout.byteCount (before ++ text) := by
  induction h generalizing before with
  | nil left => cases ht
  | cons p pieces text left hgap hlongest hwritten h ih =>
    have hpos := Layout.byteCount_pos hlongest.isMatch.ne_nil
    simp only [Layout.byteCount_append]
    obtain rfl | ht := List.mem_cons.mp ht
    · rw [Layout.byteCount_append]
      exact ⟨rfl, by dsimp only; omega, by dsimp only; omega⟩
    · obtain ⟨hline, hlow, hhigh⟩ := ih ht
      simp only [Piece.text, Layout.byteCount_append] at hlow hhigh
      exact ⟨hline, by omega, by omega⟩

/-- The tokens of pieces stand one behind the other. -/
theorem Munches.pairwise_place (h : Munches pieces text left) (line : Nat) (before : List Char) :
    (place line before pieces).Pairwise (·.column < ·.column) := by
  induction h generalizing before with
  | nil left => exact .nil
  | cons p pieces text left hgap hlongest hwritten h ih =>
    have hpos := Layout.byteCount_pos hlongest.isMatch.ne_nil
    refine .cons (fun t ht ↦ ?_) (ih _)
    obtain ⟨-, hlow, -⟩ := h.mem_place ht
    simp only [Piece.text, Layout.byteCount_append] at hlow ⊢
    omega

end

end Offside
