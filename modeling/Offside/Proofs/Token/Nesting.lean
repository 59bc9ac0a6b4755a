import Offside.Proofs.Token.Lines

/-!
How deep lines stand. The widths around a line form a stack over the width zero: the width of a
wider line is pushed, and for a narrower one all wider widths are popped (`nest`). The open blocks
are that stack but for its bottom, and a line is rejected exactly if it is narrower than the top and
its width is not on the stack (`adjust_eq_error_iff`). Reading lines keeps the stack strictly
increasing, and opens and closes as many blocks as the stack grows and shrinks by
(`readLines_nests`).
-/

set_option autoImplicit false
set_option relaxedAutoImplicit false

namespace Offside

/-! ### Counting blocks -/

/-- How many blocks the tokens open. -/
def opened (ts : List PlacedToken) : Nat :=
  ts.countP (·.token = .indent)

/-- How many blocks the tokens close. -/
def closed (ts : List PlacedToken) : Nat :=
  ts.countP (·.token = .dedent)

/-- Behind `n` open blocks the tokens close none but open ones, and leave `k` of them open. -/
structure Balanced (n : Nat) (ts : List PlacedToken) (k : Nat) : Prop where
  front : ∀ us, us <+: ts → closed us ≤ n + opened us
  whole : n + opened ts = k + closed ts

section

variable {n m k : Nat} {ts us : List PlacedToken}

theorem opened_append (ts us : List PlacedToken) : opened (ts ++ us) = opened ts + opened us :=
  List.countP_append

theorem closed_append (ts us : List PlacedToken) : closed (ts ++ us) = closed ts + closed us :=
  List.countP_append

theorem Balanced.append (h : Balanced n ts m) (h' : Balanced m us k) :
    Balanced n (ts ++ us) k where
  front vs hvs := by
    obtain hshort | ⟨rest, rfl⟩ :=
      List.prefix_or_prefix_of_prefix hvs (List.prefix_append ts us)
    · exact h.front vs hshort
    · rw [List.prefix_append_right_inj] at hvs
      have hwhole := h.whole
      have hfront := h'.front rest hvs
      rw [opened_append, closed_append]
      omega
  whole := by
    have hwhole := h.whole
    have hwhole' := h'.whole
    rw [opened_append, closed_append]
    omega

theorem Balanced.single_indent {t : PlacedToken} (ht : t.token = .indent) :
    Balanced n [t] (n + 1) where
  front us hus := by
    have hclosed : closed us = 0 := List.countP_eq_zero.mpr fun u hu ↦ by
      rw [List.mem_singleton.mp (hus.subset hu), ht]
      decide
    omega
  whole := by simp [opened, closed, ht]

/-- Tokens that open no blocks, and close none or only ones that are open. -/
theorem Balanced.of_opened (hopened : opened ts = 0) (hclosed : n = k + closed ts) :
    Balanced n ts k where
  front us hus := by
    have hle : closed us ≤ closed ts := hus.sublist.countP_le
    omega
  whole := by omega

theorem opened_eq_zero (h : ∀ t ∈ ts, t.token ≠ .indent) : opened ts = 0 :=
  List.countP_eq_zero.mpr fun t ht ↦ by simpa using h t ht

theorem closed_eq_zero (h : ∀ t ∈ ts, t.token ≠ .dedent) : closed ts = 0 :=
  List.countP_eq_zero.mpr fun t ht ↦ by simpa using h t ht

/-- Tokens that open and close no blocks. -/
theorem Balanced.of_flat (h : ∀ t ∈ ts, t.token ≠ .indent ∧ t.token ≠ .dedent) :
    Balanced n ts n :=
  .of_opened (opened_eq_zero fun t ht ↦ (h t ht).1)
    (by rw [closed_eq_zero fun t ht ↦ (h t ht).2, Nat.add_zero])

end

namespace Layout

variable {line width : Nat} {blocks kept last : List Nat} {text : List Char} {error : LexError}
variable {texts : List (List Char)} {ts : List PlacedToken}

/-! ### Stacks of widths -/

/-- The widths around a line of the given width, innermost first, behind lines with the widths of
the stack around them. -/
def nest (stack : List Nat) (width : Nat) : List Nat :=
  if stack.headD 0 < width then width :: stack else stack.dropWhile (width < ·)

/-- The widths around the last of the lines with code, if any. -/
def nesting (stack : List Nat) (texts : List (List Char)) : List Nat :=
  texts.foldl (fun stack text ↦ if Bare text then stack else nest stack (indentation text)) stack

/-- The widths around lines, given the open blocks. -/
def around (blocks : List Nat) : List Nat :=
  blocks ++ [0]

theorem headD_around (blocks : List Nat) : (around blocks).headD 0 = innermost blocks := by
  cases blocks <;> rfl

theorem headD_mem_around (blocks : List Nat) : (around blocks).headD 0 ∈ around blocks := by
  cases blocks with
  | nil => exact List.mem_singleton_self 0
  | cons width blocks => exact List.mem_cons_self

theorem around_append (inner kept : List Nat) : around (inner ++ kept) = inner ++ around kept :=
  List.append_assoc inner kept [0]

/-- The top of a stack is its greatest width. -/
theorem le_headD_around (hsorted : (around blocks).Pairwise (· > ·)) (hw : width ∈ around blocks) :
    width ≤ (around blocks).headD 0 := by
  cases blocks with
  | nil => exact Nat.le_of_eq (List.mem_singleton.mp hw)
  | cons top blocks =>
    obtain rfl | hw := List.mem_cons.mp hw
    · exact Nat.le_refl _
    · exact Nat.le_of_lt ((List.pairwise_cons.mp hsorted).1 width hw)

/-- In a line of the given width blocks are opened or closed, or else the line is rejected. -/
inductive Adjusts (line width : Nat) (blocks : List Nat) :
    Except LexError (List PlacedToken × List Nat) → Prop
  | opens (hwider : (around blocks).headD 0 < width) :
    Adjusts line width blocks (.ok ([⟨.indent, line, 1⟩], width :: blocks))
  | closes (inner kept : List Nat) (hblocks : blocks = inner ++ kept)
    (hinner : ∀ w ∈ inner, width < w) (hkept : (around kept).headD 0 = width) :
    Adjusts line width blocks (.ok (List.replicate inner.length ⟨.dedent, line, 1⟩, kept))
  | fails (hnarrower : width < (around blocks).headD 0) (hoff : width ∉ around blocks) :
    Adjusts line width blocks (.error (.inconsistentDedent width line))

theorem adjust_adjusts (hsorted : (around blocks).Pairwise (· > ·)) (line width : Nat) :
    Adjusts line width blocks (adjust blocks line width) := by
  rw [adjust, ← headD_around]
  by_cases hwider : (around blocks).headD 0 < width
  · rw [if_pos hwider]
    exact .opens hwider
  · rw [if_neg hwider]
    have hsplit := List.takeWhile_append_dropWhile (p := fun w ↦ decide (width < w)) (l := blocks)
    have hinner : ∀ w ∈ blocks.takeWhile (width < ·), width < w := fun w hw ↦
      of_decide_eq_true (List.mem_takeWhile_imp (p := fun w ↦ decide (width < w)) hw)
    by_cases hkept : innermost (blocks.dropWhile (width < ·)) = width
    · simp only [if_pos hkept, List.map_const']
      exact .closes _ _ hsplit.symm hinner ((headD_around _).trans hkept)
    · simp only [if_neg hkept]
      have hoff : width ∉ around blocks := by
        intro hw
        rw [← hsplit, around_append] at hw hsorted
        obtain hw | hw := List.mem_append.mp hw
        · exact Nat.lt_irrefl width (hinner width hw)
        · -- No width that is kept is wider, and the line is no wider than the first of them.
          have hle := le_headD_around (List.pairwise_append.mp hsorted).2.1 hw
          have hfirst := List.head?_dropWhile_not (fun w ↦ decide (width < w)) blocks
          rw [headD_around] at hle
          cases hrest : blocks.dropWhile (width < ·) with
          | nil =>
            rw [hrest] at hkept hle
            exact hkept (Nat.le_zero.mp hle).symm
          | cons top rest =>
            rw [hrest] at hkept hle hfirst
            have htop : ¬width < top := of_decide_eq_false hfirst
            exact hkept (Nat.le_antisymm (Nat.not_lt.mp htop) hle)
      refine .fails (Nat.lt_of_le_of_ne (Nat.not_lt.mp hwider) ?_) hoff
      rintro rfl
      exact hoff (headD_mem_around blocks)

/-- A line is rejected exactly if it is narrower than the top of the stack and its width is not on
the stack. -/
theorem adjust_eq_error_iff (hsorted : (around blocks).Pairwise (· > ·)) :
    adjust blocks line width = .error error ↔ error = .inconsistentDedent width line ∧
      width < (around blocks).headD 0 ∧ width ∉ around blocks := by
  have hadjusts := adjust_adjusts hsorted line width
  generalize adjust blocks line width = result at hadjusts ⊢
  cases hadjusts with
  | opens hwider => exact ⟨nofun, fun h ↦ absurd hwider (Nat.not_lt.mpr (Nat.le_of_lt h.2.1))⟩
  | closes inner kept hblocks hinner hkept =>
    refine ⟨nofun, fun h ↦ absurd ?_ h.2.2⟩
    rw [hblocks, around_append, ← hkept]
    exact List.mem_append_right inner (headD_mem_around kept)
  | fails hnarrower hoff =>
    exact ⟨fun h ↦ ⟨(Except.error.inj h).symm, hnarrower, hoff⟩, fun h ↦ congrArg _ h.1.symm⟩

/-- What reading lines does to the open blocks: the stack of widths grows and shrinks as the tokens
open and close blocks, and stays strictly increasing. -/
structure Nests (blocks : List Nat) (stack : List Nat) (ts : List PlacedToken) (kept : List Nat) :
    Prop where
  stack_eq : around kept = stack
  sorted : (around kept).Pairwise (· > ·)
  balanced : Balanced blocks.length ts kept.length

/-- A line that fits the open blocks has its width on top of the stack. -/
theorem adjust_nests (hsorted : (around blocks).Pairwise (· > ·))
    (h : adjust blocks line width = .ok (ts, kept)) :
    Nests blocks (nest (around blocks) width) ts kept ∧ (around kept).headD 0 = width := by
  have hadjusts := adjust_adjusts hsorted line width
  rw [h] at hadjusts
  cases hadjusts with
  | opens hwider =>
    refine ⟨⟨?_, ?_, .single_indent rfl⟩, rfl⟩
    · rw [nest, if_pos hwider]
      rfl
    · exact .cons (fun w hw ↦ Nat.lt_of_le_of_lt (le_headD_around hsorted hw) hwider) hsorted
  | closes inner _ hblocks hinner hkept =>
    subst hblocks
    rw [around_append] at hsorted
    have hsorted' := (List.pairwise_append.mp hsorted).2.1
    refine ⟨⟨?_, hsorted', .of_opened ?_ ?_⟩, hkept⟩
    · have hlow : ¬(inner ++ around kept).headD 0 < width := by
        cases inner with
        | nil => exact Nat.not_lt.mpr (Nat.le_of_eq hkept.symm)
        | cons w inner => exact Nat.not_lt.mpr (Nat.le_of_lt (hinner w List.mem_cons_self))
      have hpopped : ∀ w ∈ inner, decide (width < w) = true :=
        fun w hw ↦ decide_eq_true (hinner w hw)
      have hstays : (around kept).dropWhile (width < ·) = around kept := by
        cases kept <;> cases hkept <;> exact List.dropWhile_cons_of_neg (by simp [around])
      rw [around_append, nest, if_neg hlow, List.dropWhile_append_of_pos hpopped, hstays]
    · exact opened_eq_zero fun t ht ↦ by simp [List.eq_of_mem_replicate ht]
    · simp [closed, List.countP_replicate, Nat.add_comm]

/-! ### Lines -/

theorem around_pairwise_nil : (around []).Pairwise (· > ·) :=
  List.pairwise_singleton _ 0

/-- A line of code ends with its width on top of the stack, and a bare line leaves the stack. -/
theorem lineTokens_nests (hsorted : (around blocks).Pairwise (· > ·))
    (h : lineTokens line blocks text = .ok (ts, kept)) :
    Nests blocks (nesting (around blocks) [text]) ts kept ∧
      (¬Bare text → (around kept).headD 0 = indentation text) := by
  have hreads := lineTokens_reads line blocks text
  rw [h] at hreads
  rw [nesting, List.foldl_cons, List.foldl_nil]
  cases hreads with
  | bare hbare =>
    rw [if_pos hbare]
    exact ⟨⟨rfl, hsorted, .of_flat nofun⟩, absurd hbare⟩
  | code hcode htab layout _ hadjust pieces hcovers =>
    rw [if_neg hcode]
    obtain ⟨⟨hstack, hsorted', hbalanced⟩, htop⟩ := adjust_nests hsorted hadjust
    obtain ⟨left, hmunches, -⟩ := hcovers
    have hplaced : Balanced kept.length (Piece.place line [] pieces) kept.length :=
      .of_flat fun t ht ↦ Token.flat_of_isOrdinary (hmunches.isOrdinary ht)
    have hnewline : Balanced kept.length [⟨.newline, line, byteCount (code text) + 1⟩]
        kept.length :=
      .of_flat fun t ht ↦ by simp [List.mem_singleton.mp ht]
    exact ⟨⟨hstack, hsorted', (hbalanced.append hplaced).append hnewline⟩, fun _ ↦ htop⟩

/-- A line is rejected for a dedent exactly if it is code, is not indented with a tab, and its width
is below the top of the stack and not on the stack. -/
theorem lineTokens_eq_dedent_iff (hsorted : (around blocks).Pairwise (· > ·)) :
    lineTokens line blocks text = .error (.inconsistentDedent width line) ↔
      ¬Bare text ∧ ¬TabIndented text ∧ width = indentation text ∧
        width < (around blocks).headD 0 ∧ width ∉ around blocks := by
  have hreads := lineTokens_reads line blocks text
  generalize lineTokens line blocks text = result at hreads ⊢
  cases hreads with
  | bare hbare => exact ⟨nofun, fun h ↦ absurd hbare h.1⟩
  | tab _ htab => exact ⟨nofun, fun h ↦ absurd htab h.2.1⟩
  | unfit hcode htab error hadjust =>
    obtain ⟨rfl, hnarrower, hoff⟩ := (adjust_eq_error_iff hsorted).mp hadjust
    constructor
    · intro h
      cases h
      exact ⟨hcode, htab, rfl, hnarrower, hoff⟩
    · rintro ⟨-, -, rfl, -⟩
      rfl
  | faulty _ _ layout kept hadjust before fault hstumbles =>
    constructor
    · intro h
      exact absurd (Except.error.inj h) (LexError.ofFault_ne_dedent _ _ _ _ _)
    · rintro ⟨-, -, rfl, hreject⟩
      rw [(adjust_eq_error_iff hsorted).mpr ⟨rfl, hreject⟩] at hadjust
      cases hadjust
  | code _ _ layout kept hadjust pieces hcovers =>
    constructor
    · intro h
      cases h
    · rintro ⟨-, -, rfl, hreject⟩
      rw [(adjust_eq_error_iff hsorted).mpr ⟨rfl, hreject⟩] at hadjust
      cases hadjust

/-- Reading lines takes the stack of widths along. -/
theorem readLines_nests (hsorted : (around blocks).Pairwise (· > ·))
    (h : readLines line blocks texts = .ok (ts, last)) :
    Nests blocks (nesting (around blocks) texts) ts last := by
  induction texts generalizing line blocks ts with
  | nil =>
    cases h
    exact ⟨rfl, hsorted, .of_flat nofun⟩
  | cons text texts ih =>
    obtain ⟨first, kept, rest, hfirst, hrest, rfl⟩ := readLines_cons_eq_ok.mp h
    obtain ⟨⟨hstack, hsorted', hbalanced⟩, -⟩ := lineTokens_nests hsorted hfirst
    obtain ⟨hstack', hsorted'', hbalanced'⟩ := ih hsorted' hrest
    rw [hstack] at hstack'
    exact ⟨hstack', hsorted'', hbalanced.append hbalanced'⟩

/-- What follows the last line closes the blocks that are open there. -/
theorem closing_balanced (line : Nat) (blocks : List Nat) :
    Balanced blocks.length (closing line blocks) 0 := by
  refine .of_opened (opened_eq_zero fun t ht ↦ ?_) ?_
  · obtain rfl | rfl := mem_closing ht
    · exact nofun
    · exact nofun
  · simp [closing, closed, List.map_const', List.countP_replicate]

/-- The tokens of a text open and close as many blocks. -/
theorem linesTokens_balanced (h : linesTokens line [] texts = .ok ts) : Balanced 0 ts 0 := by
  obtain ⟨us, last, hread, rfl⟩ := linesTokens_eq_ok.mp h
  exact (readLines_nests around_pairwise_nil hread).balanced.append (closing_balanced _ last)

end Layout

end Offside
