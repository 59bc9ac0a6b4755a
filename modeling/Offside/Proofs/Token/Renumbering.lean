import Offside.Proofs.Token.Lines

/-!
What is read on lines when they have other numbers. A line is read in the same way wherever it
stands, and its tokens, or its error, carry its number (`lineTokens_renumber`). So a bare line that
is inserted between lines moves the numbers of those behind it, and does nothing else
(`linesTokens_insert`).
-/

set_option autoImplicit false
set_option relaxedAutoImplicit false

namespace Offside

variable {f : Nat → Nat}

/-- A token with the number of its line changed. -/
def PlacedToken.renumber (f : Nat → Nat) (t : PlacedToken) : PlacedToken :=
  { t with line := f t.line }

/-- An error with the number of its line changed. -/
def LexError.renumber (f : Nat → Nat) : LexError → LexError
  | .inconsistentDedent width line => .inconsistentDedent width (f line)
  | .unexpectedCharacter character line column => .unexpectedCharacter character (f line) column
  | .tabIndentation line => .tabIndentation (f line)
  | .invalidNumber literal line column => .invalidNumber literal (f line) column

theorem LexError.renumber_ofFault (line column : Nat) (fault : LexemeFault) :
    (ofFault line column fault).renumber f = ofFault (f line) column fault := by
  cases fault <;> rfl

namespace Layout

/-! ### Results on other lines -/

section

variable {α β : Type} {g : α → α} {g' : β → β}

/-- A result with the numbers of lines changed: `g` changes those in what has been read. -/
def renumber (f : Nat → Nat) (g : α → α) : Except LexError α → Except LexError α
  | .ok read => .ok (g read)
  | .error error => .error (error.renumber f)

theorem renumber_bind {result : Except LexError α} {next next' : α → Except LexError β}
    (hnext : ∀ read, next' (g read) = renumber f g' (next read)) :
    (renumber f g result >>= next') = renumber f g' (result >>= next) := by
  cases result with
  | error error => rfl
  | ok read => exact hnext read

end

/-- Tokens with the numbers of their lines changed. -/
def renumberTokens (f : Nat → Nat) (ts : List PlacedToken) : List PlacedToken :=
  ts.map (·.renumber f)

variable {line column : Nat} {blocks : List Nat} {text : List Char}

theorem tokens_renumber (f : Nat → Nat) (line column : Nat) (cs : List Char) :
    tokens (f line) column cs = renumber f (renumberTokens f) (tokens line column cs) := by
  induction column, cs using tokens.induct with
  | case1 => simp only [tokens]; rfl
  | case2 column c cs hblank ih => rw [tokens, if_pos hblank, ih, tokens, if_pos hblank]
  | case3 column c cs hblank fault hread =>
    rw [tokens, if_neg hblank, tokens, if_neg hblank, hread]
    exact congrArg _ (LexError.renumber_ofFault _ _ _).symm
  | case4 column c cs hblank lexeme hread width ih =>
    rw [tokens, if_neg hblank, tokens, if_neg hblank, hread]
    dsimp only
    rw [ih]
    exact renumber_bind fun _ ↦ rfl

theorem adjust_renumber (f : Nat → Nat) (blocks : List Nat) (line width : Nat) :
    adjust blocks (f line) width =
      renumber f (Prod.map (renumberTokens f) id) (adjust blocks line width) := by
  rw [adjust, adjust]
  split
  · rfl
  · dsimp only
    split
    · simp only [renumber, renumberTokens, Prod.map, List.map_map]
      rfl
    · rfl

theorem lineTokens_renumber (f : Nat → Nat) (line : Nat) (blocks : List Nat) (text : List Char) :
    lineTokens (f line) blocks text =
      renumber f (Prod.map (renumberTokens f) id) (lineTokens line blocks text) := by
  rw [lineTokens, lineTokens]
  dsimp only
  split
  · rfl
  · split
    · rfl
    · rw [adjust_renumber]
      refine renumber_bind ?_
      rintro ⟨layout, kept⟩
      dsimp only [Prod.map]
      rw [tokens_renumber]
      refine renumber_bind fun body ↦ ?_
      simp only [renumber, renumberTokens, Prod.map, List.map_append]
      rfl

/-! ### Line after line -/

theorem linesTokens_cons_renumber {texts texts' : List (List Char)}
    (hrest : ∀ kept, linesTokens (f line + 1) kept texts' =
      renumber f (renumberTokens f) (linesTokens (line + 1) kept texts)) :
    linesTokens (f line) blocks (text :: texts') =
      renumber f (renumberTokens f) (linesTokens line blocks (text :: texts)) := by
  rw [linesTokens, linesTokens, lineTokens_renumber]
  refine renumber_bind ?_
  rintro ⟨first, kept⟩
  dsimp only [Prod.map, id]
  rw [hrest]
  refine renumber_bind fun rest ↦ ?_
  simp only [renumber, renumberTokens, List.map_append]

/-- Lines can be read from another line on, if their numbers still follow each other. -/
theorem linesTokens_renumber {texts : List (List Char)}
    (hf : ∀ n, line ≤ n → f (n + 1) = f n + 1) :
    linesTokens (f line) blocks texts =
      renumber f (renumberTokens f) (linesTokens line blocks texts) := by
  induction texts generalizing line blocks with
  | nil =>
    simp only [linesTokens, renumber, renumberTokens, List.map_append, List.map_map]
    rfl
  | cons text texts ih =>
    refine linesTokens_cons_renumber fun kept ↦ ?_
    rw [← hf line (Nat.le_refl line)]
    exact ih fun n hn ↦ hf n (Nat.le_of_succ_le hn)

/-- The number of a line once another one has been inserted, which has the number `inserted`. -/
def moved (inserted line : Nat) : Nat :=
  if line < inserted then line else line + 1

theorem moved_of_lt {inserted : Nat} (h : line < inserted) : moved inserted line = line :=
  if_pos h

theorem moved_of_le {inserted : Nat} (h : inserted ≤ line) : moved inserted line = line + 1 :=
  if_neg (Nat.not_lt.mpr h)

/-- A bare line moves the lines behind it and changes nothing else. -/
theorem linesTokens_insert {before after : List (List Char)} (hbare : Bare text) :
    linesTokens line blocks (before ++ text :: after) =
      renumber (moved (line + before.length)) (renumberTokens (moved (line + before.length)))
        (linesTokens line blocks (before ++ after)) := by
  induction before generalizing line blocks with
  | nil =>
    have hsteps : ∀ n, line ≤ n → moved line (n + 1) = moved line n + 1 := fun n hn ↦ by
      rw [moved_of_le hn, moved_of_le (Nat.le_succ_of_le hn)]
    have hskip : linesTokens line blocks (text :: after) = linesTokens (line + 1) blocks after := by
      rw [linesTokens, lineTokens_of_bare hbare]
      simp only [bind, Except.bind, List.nil_append]
      cases linesTokens (line + 1) blocks after <;> rfl
    rw [List.nil_append, List.nil_append, List.length_nil, Nat.add_zero, hskip,
      ← linesTokens_renumber hsteps, moved_of_le (Nat.le_refl line)]
  | cons first before ih =>
    have hlength : line + (first :: before).length = line + 1 + before.length := by
      rw [List.length_cons]
      omega
    have hline : moved (line + 1 + before.length) line = line := moved_of_lt (by omega)
    have hrest (kept : List Nat) := @ih (line + 1) kept
    rw [hlength]
    generalize moved (line + 1 + before.length) = f at hline hrest ⊢
    have hcons : linesTokens (f line) blocks (first :: (before ++ text :: after)) =
        renumber f (renumberTokens f) (linesTokens line blocks (first :: (before ++ after))) :=
      linesTokens_cons_renumber (by rwa [hline])
    rwa [hline] at hcons

end Layout

end Offside
