import Offside.Proofs.Token.Lines

/-!
Where tokens stand. From each token to the next the place does not go back, and among the tokens
that neither open nor close a block it goes on (`Ordered`). The tokens of a line of code are those
of its layout in the first column, its ordinary tokens and a newline behind its code (`LineShape`),
so they are in order, and those of one line stand in front of those of the next
(`readLines_ordered`).
-/

set_option autoImplicit false
set_option relaxedAutoImplicit false

namespace Offside

/-- One token stands on an earlier line than another, or on the same in an earlier column. -/
def PlacedToken.Precedes (t u : PlacedToken) : Prop :=
  t.line < u.line ∨ t.line = u.line ∧ t.column < u.column

/-- The tokens that neither open nor close a block. -/
def flat (ts : List PlacedToken) : List PlacedToken :=
  ts.filter fun t ↦ t.token ≠ .indent ∧ t.token ≠ .dedent

/-- Tokens one behind the other, but for those that open and close blocks, which can stand in the
place of the next token. -/
structure Ordered (ts : List PlacedToken) : Prop where
  weak : ts.Pairwise fun t u ↦ ¬u.Precedes t
  strict : (flat ts).Pairwise PlacedToken.Precedes

variable {t u : PlacedToken} {ts us : List PlacedToken}

theorem PlacedToken.Precedes.asymm (h : t.Precedes u) : ¬u.Precedes t := by
  unfold Precedes at *
  omega

theorem flat_append (ts us : List PlacedToken) : flat (ts ++ us) = flat ts ++ flat us :=
  List.filter_append ts us

theorem flat_eq_self (h : ∀ t ∈ ts, t.token ≠ .indent ∧ t.token ≠ .dedent) : flat ts = ts :=
  List.filter_eq_self.mpr fun t ht ↦ decide_eq_true (h t ht)

theorem flat_eq_nil (h : ∀ t ∈ ts, t.token = .indent ∨ t.token = .dedent) : flat ts = [] := by
  refine List.filter_eq_nil_iff.mpr fun t ht hflat ↦ ?_
  have hne := of_decide_eq_true hflat
  exact (h t ht).elim hne.1 hne.2

theorem mem_of_mem_flat (h : t ∈ flat ts) : t ∈ ts :=
  (List.mem_filter.mp h).1

/-- Tokens in front of others stay in order. -/
theorem Ordered.append (h : Ordered ts) (h' : Ordered us)
    (hweak : ∀ t ∈ ts, ∀ u ∈ us, ¬u.Precedes t)
    (hstrict : ∀ t ∈ flat ts, ∀ u ∈ flat us, t.Precedes u) : Ordered (ts ++ us) where
  weak := List.pairwise_append.mpr ⟨h.weak, h'.weak, hweak⟩
  strict := by
    rw [flat_append]
    exact List.pairwise_append.mpr ⟨h.strict, h'.strict, hstrict⟩

/-- Lines in front of others stay in order. -/
theorem Ordered.append_lines (h : Ordered ts) (h' : Ordered us)
    (hlines : ∀ t ∈ ts, ∀ u ∈ us, t.line < u.line) : Ordered (ts ++ us) :=
  h.append h' (fun t ht u hu ↦ PlacedToken.Precedes.asymm (.inl (hlines t ht u hu)))
    fun t ht u hu ↦ .inl (hlines t (mem_of_mem_flat ht) u (mem_of_mem_flat hu))

/-- Tokens in one place, none of which stays among the flat ones. -/
theorem Ordered.of_blocks {line column : Nat}
    (h : ∀ t ∈ ts, (t.token = .indent ∨ t.token = .dedent) ∧ t.line = line ∧ t.column = column) :
    Ordered ts where
  weak := by
    refine List.pairwise_of_forall_mem_list fun t ht u hu ↦ ?_
    obtain ⟨-, htline, htcolumn⟩ := h t ht
    obtain ⟨-, huline, hucolumn⟩ := h u hu
    unfold PlacedToken.Precedes
    omega
  strict := by
    rw [flat_eq_nil fun t ht ↦ (h t ht).1]
    exact .nil

theorem Ordered.of_strict (hflat : ∀ t ∈ ts, t.token ≠ .indent ∧ t.token ≠ .dedent)
    (h : ts.Pairwise PlacedToken.Precedes) : Ordered ts where
  weak := h.imp PlacedToken.Precedes.asymm
  strict := by rwa [flat_eq_self hflat]

namespace Layout

open Piece

variable {line : Nat} {blocks kept last : List Nat} {text : List Char}
variable {texts : List (List Char)}

/-! ### The shape of a line -/

/-- The tokens of a line of code: an indent, or dedents, if any, then ordinary tokens, at least one,
and then a newline. -/
structure LineShape (line : Nat) (ts layout body : List PlacedToken) (column : Nat) : Prop where
  eq : ts = layout ++ body ++ [⟨.newline, line, column⟩]
  isLayout : IsLayout line layout
  body_ne : body ≠ []
  ordinary : ∀ t ∈ body, t.token.isOrdinary = true
  lines : ∀ t ∈ body, t.line = line
  columns : body.Pairwise (·.column < ·.column)
  within : ∀ t ∈ body, 1 ≤ t.column ∧ t.column < column

/-- What the line in front of its comment is split into, its code is split into. -/
theorem covers_code {pieces : List Piece} (h : Covers pieces (uncommented text)) :
    Covers pieces (code text) := by
  obtain ⟨blanks, hcode, hblanks⟩ := uncommented_eq text
  have htokens := tokens_append_blanks hblanks 1 (code text)
  rw [← hcode, tokens_of_covers h] at htokens
  obtain ⟨others, hothers, -⟩ := tokens_eq_ok_iff.mp htokens.symm
  have hmore := hothers.append_blanks hblanks
  rw [← hcode] at hmore
  rwa [h.unique hmore]

theorem lineTokens_shape (hcode : ¬Bare text) (h : lineTokens line blocks text = .ok (ts, kept)) :
    ∃ layout body column, LineShape line ts layout body column := by
  have hreads := lineTokens_reads line blocks text
  rw [h] at hreads
  cases hreads with
  | bare hbare => exact absurd hbare hcode
  | code _ htab layout _ hadjust pieces hcovers =>
    obtain ⟨left, hmunches, -⟩ := covers_code hcovers
    refine ⟨layout, place line [] pieces, byteCount (code text) + 1, rfl, adjust_isLayout hadjust,
      ?_, fun t ht ↦ hmunches.isOrdinary ht, fun t ht ↦ (hmunches.mem_place ht).1,
      hmunches.pairwise_place line [], fun t ht ↦ ?_⟩
    · cases pieces with
      | nil =>
        obtain ⟨_, hnil, hblank⟩ := hcovers
        cases hnil
        exact absurd hblank hcode
      | cons p pieces => exact List.cons_ne_nil _ _
    · obtain ⟨-, hlow, hhigh⟩ := hmunches.mem_place ht
      exact ⟨hlow, Nat.lt_succ_of_le hhigh⟩

/-! ### Order -/

theorem LineShape.ordered {layout body : List PlacedToken} {column : Nat}
    (h : LineShape line ts layout body column) : Ordered ts := by
  have hfirst (t : PlacedToken) (ht : t ∈ layout) := h.isLayout.of_mem ht
  have hlayout : Ordered layout := .of_blocks hfirst
  have hbody : Ordered body := by
    refine .of_strict (fun t ht ↦ Token.flat_of_isOrdinary (h.ordinary t ht)) ?_
    refine h.columns.imp_of_mem fun {t u} ht hu hlt ↦ .inr ⟨?_, hlt⟩
    rw [h.lines t ht, h.lines u hu]
  have hnewline : Ordered [⟨.newline, line, column⟩] :=
    .of_strict (fun t ht ↦ by simp [List.mem_singleton.mp ht]) (List.pairwise_singleton _ _)
  have hnone : flat layout = [] := flat_eq_nil fun t ht ↦ (hfirst t ht).1
  have hlow : ∀ t ∈ layout, ∀ u ∈ body, ¬u.Precedes t := by
    intro t ht u hu
    have hline := h.lines u hu
    have hpos := (h.within u hu).1
    obtain ⟨-, hline', hcolumn⟩ := hfirst t ht
    unfold PlacedToken.Precedes
    omega
  have hbehind : ∀ t ∈ layout ++ body, t.Precedes ⟨.newline, line, column⟩ := by
    intro t ht
    obtain ht | ht := List.mem_append.mp ht
    · -- The line has an ordinary token in front of its newline, so that is not in the first column.
      obtain ⟨u, hu⟩ := List.exists_mem_of_ne_nil body h.body_ne
      obtain ⟨-, hline, hcolumn⟩ := hfirst t ht
      have hwithin := h.within u hu
      exact .inr ⟨hline, by dsimp only; omega⟩
    · exact .inr ⟨h.lines t ht, (h.within t ht).2⟩
  rw [h.eq]
  refine (hlayout.append hbody hlow ?_).append hnewline ?_ ?_
  · rw [hnone]
    exact nofun
  · intro t ht u hu
    rw [List.mem_singleton.mp hu]
    exact (hbehind t ht).asymm
  · intro t ht u hu
    rw [List.mem_singleton.mp (mem_of_mem_flat hu)]
    exact hbehind t (mem_of_mem_flat ht)

theorem lineTokens_ordered (h : lineTokens line blocks text = .ok (ts, kept)) : Ordered ts := by
  by_cases hbare : Bare text
  · rw [lineTokens_of_bare hbare] at h
    cases h
    exact .of_strict nofun .nil
  · obtain ⟨layout, body, column, hshape⟩ := lineTokens_shape hbare h
    exact hshape.ordered

theorem readLines_ordered (h : readLines line blocks texts = .ok (ts, last)) : Ordered ts := by
  induction texts generalizing line blocks ts with
  | nil =>
    cases h
    exact .of_strict nofun .nil
  | cons text texts ih =>
    obtain ⟨first, kept, rest, hfirst, hrest, rfl⟩ := readLines_cons_eq_ok.mp h
    refine (lineTokens_ordered hfirst).append_lines (ih hrest) fun t ht u hu ↦ ?_
    rw [line_of_mem_lineTokens hfirst ht]
    exact (line_of_mem_readLines hrest hu).1

theorem closing_ordered (line : Nat) (blocks : List Nat) : Ordered (closing line blocks) := by
  have hdedents : ∀ t ∈ blocks.map (fun _ ↦ (⟨.dedent, line, 1⟩ : PlacedToken)),
      t = ⟨.dedent, line, 1⟩ := by
    intro t ht
    obtain ⟨_, -, rfl⟩ := List.mem_map.mp ht
    rfl
  have hblocks : Ordered (blocks.map fun _ ↦ (⟨.dedent, line, 1⟩ : PlacedToken)) := by
    refine @Ordered.of_blocks _ line 1 fun t ht ↦ ?_
    rw [hdedents t ht]
    exact ⟨.inr rfl, rfl, rfl⟩
  have hend : Ordered [⟨.endOfInput, line, 1⟩] :=
    .of_strict (fun t ht ↦ by simp [List.mem_singleton.mp ht]) (List.pairwise_singleton _ _)
  refine hblocks.append hend (fun t ht u hu ↦ ?_) ?_
  · rw [hdedents t ht, List.mem_singleton.mp hu]
    simp [PlacedToken.Precedes]
  · rw [flat_eq_nil fun t ht ↦ .inr (hdedents t ht ▸ rfl)]
    exact nofun

/-- The tokens of a text are in order. -/
theorem linesTokens_ordered (h : linesTokens line blocks texts = .ok ts) : Ordered ts := by
  obtain ⟨us, last, hread, rfl⟩ := linesTokens_eq_ok.mp h
  refine (readLines_ordered hread).append_lines (closing_ordered _ last) fun t ht u hu ↦ ?_
  rw [line_of_mem_closing hu]
  exact (line_of_mem_readLines hread ht).2

/-! ### The end -/

theorem LineShape.not_end {layout body : List PlacedToken} {column : Nat}
    (h : LineShape line ts layout body column) : ∀ t ∈ ts, t.token ≠ .endOfInput := by
  intro t ht hend
  rw [h.eq] at ht
  obtain ht | ht := List.mem_append.mp ht
  · obtain ht | ht := List.mem_append.mp ht
    · obtain ⟨htoken | htoken, -⟩ := h.isLayout.of_mem ht
      · cases hend.symm.trans htoken
      · cases hend.symm.trans htoken
    · have hordinary := h.ordinary t ht
      rw [hend] at hordinary
      cases hordinary
  · rw [List.mem_singleton.mp ht] at hend
    cases hend

/-- The input does not end on a line. -/
theorem readLines_not_end (h : readLines line blocks texts = .ok (ts, last)) :
    ∀ t ∈ ts, t.token ≠ .endOfInput := by
  induction texts generalizing line blocks ts with
  | nil =>
    cases h
    exact nofun
  | cons text texts ih =>
    obtain ⟨first, kept, rest, hfirst, hrest, rfl⟩ := readLines_cons_eq_ok.mp h
    refine List.forall_mem_append.mpr ⟨?_, ih hrest⟩
    by_cases hbare : Bare text
    · rw [lineTokens_of_bare hbare] at hfirst
      cases hfirst
      exact nofun
    · obtain ⟨layout, body, column, hshape⟩ := lineTokens_shape hbare hfirst
      exact hshape.not_end

/-- The input ends once, behind all lines. -/
theorem linesTokens_end (h : linesTokens line blocks texts = .ok ts) :
    ∃ us, ts = us ++ [⟨.endOfInput, line + texts.length, 1⟩] ∧
      ∀ t ∈ us, t.token ≠ .endOfInput := by
  obtain ⟨us, last, hread, rfl⟩ := linesTokens_eq_ok.mp h
  refine ⟨_, (List.append_assoc us _ _).symm, List.forall_mem_append.mpr
    ⟨readLines_not_end hread, fun t ht ↦ ?_⟩⟩
  obtain ⟨_, -, rfl⟩ := List.mem_map.mp ht
  exact nofun

end Layout

end Offside
