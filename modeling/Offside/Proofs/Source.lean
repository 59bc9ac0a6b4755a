import Mathlib
import Offside.Compile
import Offside.Proofs.Except
import Offside.Proofs.Reading.Reads
import Offside.Proofs.Source.Stmt

/-!
Every program that can be written down is read back from its text: `parse_source`. The tokens of the
text derive the program, and what is derived is read.
-/

set_option autoImplicit false
set_option relaxedAutoImplicit false

namespace Offside

open Source

/-- The text of a program is split into tokens that derive it, and the end of the input. -/
theorem tokenize_source (gap : Nat) {p : Block} (h : BlockWritable p) : ∃ placed text,
    tokenize (sourceOfBlock gap 0 p) = .ok placed ∧ Grammar.Program text p ∧
      placed.map PlacedToken.token = text ++ [.endOfInput] := by
  -- The program is a block of level zero, and behind it the text ends.
  obtain ⟨text, htext, hextends, -⟩ := block_stands gap 0 h
  obtain ⟨placed, hplaced, htokens⟩ := hextends [] _ continues_end 0 (Nat.le_refl 0) 1
  rw [List.append_nil] at hplaced
  exact ⟨placed, text, hplaced, htext, htokens⟩

/-- Tokens that derive a program, with the end of the input behind them, are parsed as it. -/
theorem parseTokens_of_derives {p : Block} {text : List Token} {placed : List PlacedToken}
    (h : Grammar.Program text p) (hplaced : placed.map PlacedToken.token = text ++ [.endOfInput]) :
    parseTokens placed = .ok p := by
  obtain ⟨body, ends, rfl, hbody, hends⟩ := List.map_eq_append_iff.mp hplaced
  obtain ⟨last, rfl, hlast⟩ := List.map_eq_singleton_iff.mp hends
  have hend : withEnd (body ++ [last]) = body ++ [last] := by
    rw [withEnd, List.getLast?_concat]
    exact if_pos hlast
  have hbound : text.length ≤ (body ++ [last]).length := by simp [← hbody]
  rw [parseTokens, hend]
  exact map_eq_ok.mpr ⟨_, Reading.reads_program h hbound body [last] hbody hlast, rfl⟩

/-- The text of a program that can be written down is parsed as that program, with any number of
blanks around operators and behind commas. -/
theorem parse_source (gap : Nat) {p : Block} (h : BlockWritable p) :
    parse (sourceOfBlock gap 0 p) = .ok p := by
  obtain ⟨placed, text, hplaced, htext, htokens⟩ := tokenize_source gap h
  rw [parse, hplaced]
  exact mapError_eq_ok.mpr (parseTokens_of_derives htext htokens)

/-- A class with a loop in its method, where four blocks close at once, and a line behind it. -/
def nestedProgram : Block :=
  [.defineClass ⟨"Box", [⟨"fill", ["self", "n"],
    [.whileLoop (.compare .gt (.variable "n") (.number (.int 0)))
      [.ifElse (.compare .eq (.variable "n") (.call "top" []))
        [.return none]
        [.assignAttribute "self" "n" (.arith .sub (.variable "n") (.number (.int 1)))]]]⟩]⟩,
    .print (.list [.number (.int 7), .boolean true])]

/-- The text of `nestedProgram` is parsed as it. -/
theorem parse_source_nested : BlockWritable nestedProgram ∧
    parse ("class Box:\n    def fill(self, n):\n        while (n > 0):\n" ++
      "            if (n == top()):\n                return\n            else:\n" ++
      "                self.n = (n - 1)\nprint([7, True])\n") = .ok nestedProgram := by
  have hwritable : BlockWritable nestedProgram := by
    simp only [nestedProgram, BlockWritable, ClassWritable, MethodsWritable, RoutineWritable,
      Stmt.Writable, Expr.Writable, ExprsWritable]
    decide
  have htext : sourceOfBlock 1 0 nestedProgram =
      "class Box:\n    def fill(self, n):\n        while (n > 0):\n" ++
        "            if (n == top()):\n                return\n            else:\n" ++
        "                self.n = (n - 1)\nprint([7, True])\n" := by cbv
  rw [← htext]
  exact ⟨hwritable, parse_source 1 hwritable⟩

end Offside
