import Mathlib
import Offside.Proofs.Token.Renumbering

/-!
Text that is no code. The tokens of a source text are those of the code of its lines, so carriage
returns in front of newlines and comments behind lines leave them as they are, and a bare line that
is inserted moves the lines behind it (`tokenize_ignores_bare_text`).
-/

set_option autoImplicit false
set_option relaxedAutoImplicit false

namespace Offside

namespace Layout

variable {text comment cs : List Char} {texts texts' before after : List (List Char)}

/-! ### Texts and their lines -/

/-- The text of the given lines. -/
def joined (texts : List (List Char)) : String :=
  .ofList (List.intercalate ['\n'] texts)

/-- A character that is no newline stands at the beginning of the first line. -/
theorem lines_cons {c : Char} (hc : c ≠ '\n') (cs : List Char) :
    ∃ first rest, lines cs = first :: rest ∧ lines (c :: cs) = (c :: first) :: rest := by
  obtain ⟨first, rest, hlines⟩ := List.exists_cons_of_ne_nil (lines_ne_nil cs)
  refine ⟨first, rest, hlines, ?_⟩
  rw [lines, if_neg hc, hlines]

theorem lines_eq_splitOn (cs : List Char) : lines cs = cs.splitOn '\n' := by
  rw [List.splitOn_eq_splitOnP]
  induction cs with
  | nil => rfl
  | cons c cs ih =>
    rw [List.splitOnP_cons_eq_if_modifyHead, ← ih]
    by_cases hc : c = '\n'
    · rw [lines, if_pos hc, if_pos (beq_iff_eq.mpr hc)]
    · obtain ⟨first, rest, hlines, hcons⟩ := lines_cons hc cs
      rw [if_neg (mt beq_iff_eq.mp hc), hcons, hlines, List.modifyHead_cons]

/-- The lines of a text are its lines: joined they are the text again. -/
theorem joined_lines (source : String) : joined (lines source.toList) = source := by
  rw [joined, lines_eq_splitOn, List.intercalate_splitOn, String.ofList_toList]

theorem newline_notMem_of_mem_lines (h : text ∈ lines cs) : '\n' ∉ text := by
  induction cs generalizing text with
  | nil => exact List.mem_singleton.mp h ▸ List.not_mem_nil
  | cons c cs ih =>
    by_cases hc : c = '\n'
    · rw [lines, if_pos hc] at h
      obtain rfl | h := List.mem_cons.mp h
      · exact List.not_mem_nil
      · exact ih h
    · obtain ⟨first, rest, hlines, hcons⟩ := lines_cons hc cs
      rw [hlines] at ih
      rw [hcons] at h
      obtain rfl | h := List.mem_cons.mp h
      · exact List.not_mem_cons_of_ne_of_not_mem (Ne.symm hc) (ih List.mem_cons_self)
      · exact ih (List.mem_cons_of_mem first h)

/-- A text with one line that is new, or has another in its place, is read line by line. -/
theorem tokenize_joined (hkept : before ++ after ⊆ lines cs) (hnew : '\n' ∉ text) :
    tokenize (joined (before ++ text :: after)) = linesTokens 1 [] (before ++ text :: after) := by
  have hlines : ∀ line ∈ before ++ text :: after, '\n' ∉ line := by
    intro line hline
    obtain rfl | hline := List.mem_cons.mp (List.perm_middle.mem_iff.mp hline)
    · exact hnew
    · exact newline_notMem_of_mem_lines (hkept hline)
  rw [tokenize, joined, String.toList_ofList, lines_eq_splitOn,
    List.splitOn_intercalate '\n' hlines (by simp)]

/-! ### The code of a line -/

theorem code_append_return (text : List Char) : code (text ++ ['\r']) = code text := by
  rw [code, Text.dropTailWhile_append_singleton_of_pos (decide_eq_true rfl), ← code]

theorem takeWhile_append_hash (cs ds : List Char) :
    (cs ++ '#' :: ds).takeWhile (· ≠ '#') = cs.takeWhile (· ≠ '#') := by
  induction cs with
  | nil => rfl
  | cons c cs ih => rw [List.cons_append, List.takeWhile_cons, List.takeWhile_cons, ih]

theorem code_append_comment (hend : text.getLast? ≠ some '\r') (comment : List Char) :
    code (text ++ '#' :: comment) = code text := by
  have htext : Text.dropTailWhile (· = '\r') text = text := by
    refine List.rdropWhile_eq_self_iff.mpr fun hne hlast ↦ hend ?_
    rw [List.getLast?_eq_some_getLast hne, of_decide_eq_true hlast]
  rw [code, code, Text.dropTailWhile_append_cons (decide_eq_false (by decide)),
    takeWhile_append_hash, htext]

/-- Only the code of lines matters. -/
theorem linesTokens_congr (h : List.Forall₂ (fun text text' ↦ code text = code text') texts texts')
    (line : Nat) (blocks : List Nat) :
    linesTokens line blocks texts = linesTokens line blocks texts' := by
  induction h generalizing line blocks with
  | nil => rfl
  | cons hcode _ ih => simp only [linesTokens, lineTokens, hcode, ih]

/-! ### Carriage returns -/

/-- A text with a carriage return in front of each newline. -/
def withReturns (cs : List Char) : List Char :=
  cs.flatMap fun c ↦ if c = '\n' then ['\r', '\n'] else [c]

/-- In front of a newline a line ends in one more carriage return. -/
theorem lines_withReturns (cs : List Char) :
    List.Forall₂ (fun text text' ↦ text = text' ∨ text = text' ++ ['\r'])
      (lines (withReturns cs)) (lines cs) := by
  induction cs with
  | nil => exact .cons (.inl rfl) .nil
  | cons c cs ih =>
    rw [withReturns, List.flatMap_cons, ← withReturns]
    by_cases hc : c = '\n'
    · subst hc
      simp only [lines]
      exact .cons (.inr rfl) ih
    · obtain ⟨first, rest, hlines, hcons⟩ := lines_cons hc cs
      obtain ⟨first', rest', hlines', hcons'⟩ := lines_cons hc (withReturns cs)
      rw [hlines, hlines'] at ih
      rw [if_neg hc, List.singleton_append, hcons, hcons']
      obtain ⟨hfirst, hrest⟩ := List.forall₂_cons.mp ih
      refine .cons ?_ hrest
      exact hfirst.imp (congrArg _) (congrArg _)

end Layout

open Layout

/-! ### Source texts -/

section

variable {source : String} {before after : List (List Char)} {line bare comment : List Char}

theorem tokenize_withReturns (source : String) :
    tokenize (.ofList (withReturns source.toList)) = tokenize source := by
  rw [tokenize, tokenize, String.toList_ofList]
  refine linesTokens_congr ((lines_withReturns source.toList).imp ?_) 1 []
  rintro _ text (rfl | rfl)
  · rfl
  · exact code_append_return text

theorem tokenize_insert (hlines : lines source.toList = before ++ after) (hbare : Bare bare)
    (hnewline : '\n' ∉ bare) :
    tokenize (joined (before ++ bare :: after)) =
      renumber (moved (before.length + 1)) (renumberTokens (moved (before.length + 1)))
        (tokenize source) := by
  have hkept : before ++ after ⊆ lines source.toList := hlines ▸ List.Subset.refl _
  rw [tokenize_joined hkept hnewline, tokenize, hlines, Nat.add_comm]
  exact linesTokens_insert hbare

theorem tokenize_append_comment (hlines : lines source.toList = before ++ line :: after)
    (hend : line.getLast? ≠ some '\r') (hnewline : '\n' ∉ comment) :
    tokenize (joined (before ++ (line ++ '#' :: comment) :: after)) = tokenize source := by
  have hkept : before ++ after ⊆ lines source.toList := by
    rw [hlines]
    exact ((List.sublist_cons_self line after).append_left before).subset
  have hline : line ∈ lines source.toList := hlines ▸ List.mem_append_right _ List.mem_cons_self
  have hnew : '\n' ∉ line ++ '#' :: comment := by
    rw [List.mem_append, List.mem_cons, not_or, not_or]
    exact ⟨newline_notMem_of_mem_lines hline, by decide, hnewline⟩
  have hsame (texts : List (List Char)) :
      List.Forall₂ (fun text text' ↦ code text = code text') texts texts :=
    List.forall₂_same.mpr fun _ _ ↦ rfl
  rw [tokenize_joined hkept hnew, tokenize, hlines]
  refine linesTokens_congr (List.rel_append (hsame before) ?_) 1 []
  exact .cons (code_append_comment hend comment) (hsame after)

end

/-- Text that is no code does not matter. A carriage return in front of each newline changes
nothing. A bare line can be inserted anywhere between the lines that make up the text: what stands
behind it is then on the line below, be that tokens or an error, and nothing else changes. And a
comment behind a line changes nothing if the line does not end in a carriage return. -/
theorem tokenize_ignores_bare_text (source : String) :
    tokenize (.ofList (withReturns source.toList)) = tokenize source ∧
      joined (lines source.toList) = source ∧
      (∀ before bare after, lines source.toList = before ++ after → Bare bare → '\n' ∉ bare →
        tokenize (joined (before ++ bare :: after)) =
          renumber (moved (before.length + 1)) (renumberTokens (moved (before.length + 1)))
            (tokenize source)) ∧
      ∀ before line after comment, lines source.toList = before ++ line :: after →
        line.getLast? ≠ some '\r' → '\n' ∉ comment →
          tokenize (joined (before ++ (line ++ '#' :: comment) :: after)) = tokenize source :=
  ⟨tokenize_withReturns source, joined_lines source,
    fun _ _ _ hlines hbare hnewline ↦ tokenize_insert hlines hbare hnewline,
    fun _ _ _ _ hlines hend hnewline ↦ tokenize_append_comment hlines hend hnewline⟩

/-- A tab and a comment may stand between the lines of a block: an error behind them is the same one
line below. A comment at the end of a line of the block adds no tokens. -/
theorem tokenize_ignores_bare_text_block :
    tokenize "a\n   b\n\t# c\n d" =
        renumber (moved 3) (renumberTokens (moved 3)) (tokenize "a\n   b\n d") ∧
      tokenize "a\n   b\n\t# c\n d" = .error (.inconsistentDedent 1 4) ∧
      tokenize "a\n   b# c\n   d" = tokenize "a\n   b\n   d" := by
  have hinserted := (tokenize_ignores_bare_text "a\n   b\n d").2.2.1 ["a".toList, "   b".toList]
    "\t# c".toList [" d".toList] (by decide) (by decide) (by decide)
  have hcomment := (tokenize_ignores_bare_text "a\n   b\n   d").2.2.2 ["a".toList] "   b".toList
    ["   d".toList] " c".toList (by decide) (by decide) (by decide)
  exact ⟨hinserted, by cbv, hcomment⟩

end Offside
