import Mathlib
import Offside.Proofs.Realization.Program
import Offside.Proofs.Scope.Check
import Offside.Proofs.Tariff.Simplify

/-!
What can be said about the answers of an accepted program. All ways to run it end with the same
answer: walking its tree, and running it on the machine under either lowering, simplified or not
(`walk_iff_run_direct`, `run_threeAddress_iff_run_direct`). Simplifying saves instructions
(`counted_simplified`). No run ends in an error that the scope check is there to rule out
(`run_safe`).
-/

set_option autoImplicit false
set_option relaxedAutoImplicit false

namespace Offside

variable {source : String} {program : Block}

theorem WellFormed.prepare (h : WellFormed program) (o : CompileOptions) :
    WellFormed (o.prepare program) := by
  unfold CompileOptions.prepare
  split
  · exact h.simplify
  · exact h

/-! ### The same answers -/

/-- Direct lowering is correct. An accepted program ends with an answer on the machine if and only
if it does when its tree is walked, under every limit on the depth of calls. -/
theorem walk_iff_run_direct (h : analyze source = .ok program) (depth : Option Nat) (a : Answer) :
    (∃ fuel, walk program ⟨none, depth⟩ fuel = some a) ↔
      ∃ fuel, (lowerDirect program).run ⟨none, depth⟩ fuel = some a := by
  have he : lower .direct program = .ok (lowerDirect program) := rfl
  exact walks_iff_runs (wellFormed_of_analyze h) rfl he a

/-- A recursion without end exceeds the limit on depth on the machine as well. -/
theorem walk_iff_run_direct_recursion :
    ∃ program, analyze "def f():\n    return f()\nprint(1)\nf()\n" = .ok program ∧
      ∃ fuel, (lowerDirect program).run ⟨none, some 3⟩ fuel =
        some ⟨["1"], some (.callDepthExceeded 3)⟩ := by
  have haccepted : analyze "def f():\n    return f()\nprint(1)\nf()\n" =
      .ok [.define ⟨"f", [], [.return (some (.call "f" []))]⟩, .print (.number (.int 1)),
        .expr (.call "f" [])] := by
    unfold analyze parse
    conv in tokenize _ => cbv
    rfl
  exact ⟨_, haccepted, (walk_iff_run_direct haccepted (some 3) _).mp ⟨5, by cbv⟩⟩

/-- The two lowerings agree. An accepted program compiles under both, simplified or not, and the two
executables end with the same answers under every limit on the depth of calls. -/
theorem run_threeAddress_iff_run_direct (h : analyze source = .ok program) (simplify : Bool)
    (depth : Option Nat) :
    ∃ e e', compileProgram ⟨simplify, .threeAddress⟩ program = .ok e ∧
      compileProgram ⟨simplify, .direct⟩ program = .ok e' ∧
      ∀ a, (∃ fuel, e.run ⟨none, depth⟩ fuel = some a) ↔
        ∃ fuel, e'.run ⟨none, depth⟩ fuel = some a := by
  have hwell := (wellFormed_of_analyze h).prepare
  obtain ⟨e, he, hcompile⟩ := compileProgram_ok ⟨simplify, .threeAddress⟩ program
  obtain ⟨e', he', hcompile'⟩ := compileProgram_ok ⟨simplify, .direct⟩ program
  refine ⟨e, e', hcompile, hcompile', fun a ↦ ?_⟩
  exact (walks_iff_runs (hwell _) rfl he a).symm.trans (walks_iff_runs (hwell _) rfl he' a)

/-- A list is changed by a method in three-address form as it is on the stack. -/
theorem run_threeAddress_iff_run_direct_append :
    ∃ program e, analyze "x = [1]\nx.append(2)\nprint(x)\n" = .ok program ∧
      compileProgram ⟨false, .threeAddress⟩ program = .ok e ∧
      ∃ fuel, e.run ⟨none, none⟩ fuel = some ⟨["[1, 2]"], none⟩ := by
  have haccepted : analyze "x = [1]\nx.append(2)\nprint(x)\n" =
      .ok [.assign "x" (.list [.number (.int 1)]),
        .expr (.methodCall "x" "append" [.number (.int 2)]), .print (.variable "x")] := by
    unfold analyze parse
    conv in tokenize _ => cbv
    rfl
  obtain ⟨e, e', he, he', hiff⟩ := run_threeAddress_iff_run_direct haccepted false none
  refine ⟨_, e, haccepted, he, (hiff _).mpr ⟨100, ?_⟩⟩
  cases he'
  cbv

/-! ### Fewer instructions -/

/-- Simplifying preserves the answers of an accepted program and never costs an instruction. If the
program as it is ends with an answer, other than that the limit on steps was met, then the
simplified program ends with it under the same limits after no more instructions; and without a
limit on steps, the program as it is ends if the simplified one does. -/
theorem counted_simplified (h : analyze source = .ok program) (lowering : Lowering)
    (limits : Limits) :
    ∃ e e', compileProgram ⟨false, lowering⟩ program = .ok e ∧
      compileProgram ⟨true, lowering⟩ program = .ok e' ∧
      (∀ fuel a n, e.counted limits fuel = some (a, n) →
        (∀ k, a.error ≠ some (.stepLimitExceeded k)) →
        ∃ fuel' n', e'.counted limits fuel' = some (a, n') ∧ n' ≤ n) ∧
      (limits.steps = none → ∀ a, (∃ fuel, e'.run limits fuel = some a) →
        ∃ fuel, e.run limits fuel = some a) := by
  have hwell := wellFormed_of_analyze h
  obtain ⟨e, he, hcompile⟩ := compileProgram_ok ⟨false, lowering⟩ program
  obtain ⟨e', he', hcompile'⟩ := compileProgram_ok ⟨true, lowering⟩ program
  have ht := Tariff.economical_ofLowering lowering
  refine ⟨e, e', hcompile, hcompile', fun fuel a n hrun herror ↦ ?_, fun hlimits a hrun ↦ ?_⟩
  · have hunlimited := Executable.counted_unlimited hrun herror
    obtain ⟨fuel₁, hmetered⟩ := (ends_iff_metered hwell rfl he _).mp ⟨fuel, hunlimited⟩
    obtain ⟨n', hmetered', hle⟩ := Tariff.counted_simplify ht hmetered
    obtain ⟨fuel', hrun'⟩ := (ends_iff_metered hwell.simplify rfl he' _).mpr ⟨fuel₁, hmetered'⟩
    have hlimit (k : Nat) (hk : limits.steps = some k) : n' ≤ k :=
      Nat.le_trans hle (Executable.counted_le hrun hk)
    exact ⟨fuel', n', Executable.counted_limited hrun' hlimit, hle⟩
  · have hwalk' := (walks_iff_runs hwell.simplify hlimits he' a).mpr hrun
    refine (walks_iff_runs hwell hlimits he a).mp ?_
    obtain ⟨fuel, hwalk'⟩ := hwalk'
    obtain ⟨n, hmetered'⟩ := (Tariff.walk_eq_some _ hlimits).mp hwalk'
    exact ⟨fuel, (Tariff.walk_eq_some _ hlimits).mpr (Tariff.counted_of_simplify ht hmetered')⟩

/-- A sum that is folded is printed under a limit that the program as it is just keeps to. -/
theorem counted_simplified_sum :
    ∃ program e', analyze "print(1 + 2)\n" = .ok program ∧
      compileProgram ⟨true, .direct⟩ program = .ok e' ∧
      ∃ fuel n, e'.counted ⟨some 4, none⟩ fuel = some (⟨["3"], none⟩, n) ∧ n ≤ 4 := by
  have haccepted : analyze "print(1 + 2)\n" =
      .ok [.print (.arith .add (.number (.int 1)) (.number (.int 2)))] := by
    unfold analyze parse
    conv in tokenize _ => cbv
    rfl
  obtain ⟨e, e', he, he', hcounted, -⟩ := counted_simplified haccepted .direct ⟨some 4, none⟩
  cases he
  exact ⟨_, e', haccepted, he', hcounted 5 ⟨["3"], none⟩ 4 (by cbv) fun k hk ↦ by cases hk⟩

/-! ### No scope errors -/

/-- The scope check is authoritative. Neither walking the tree of an accepted program nor running it
on the machine, compiled in any way and under any limits, ends in an unbound variable or in a return
outside of a routine. -/
theorem run_safe (h : analyze source = .ok program) (o : CompileOptions) :
    ∃ e, compileProgram o program = .ok e ∧
      ∀ limits fuel a, (walk program limits fuel = some a ∨ e.run limits fuel = some a) →
        (∀ x, a.error ≠ some (.undefinedVariable x)) ∧
          a.error ≠ some .returnOutsideFunction := by
  have hwell := wellFormed_of_analyze h
  obtain ⟨e, he, hcompile⟩ := compileProgram_ok o program
  refine ⟨e, hcompile, fun limits fuel a ha ↦ ?_⟩
  suffices hsafe : ∀ error, a.error = some error → ¬error.IsScopeError from
    ⟨fun x hx ↦ hsafe _ hx trivial, fun hreturn ↦ hsafe _ hreturn trivial⟩
  intro error herror hscope
  rcases ha with ha | ha
  · exact walk_safe hwell ha herror hscope
  · obtain ⟨n, hcounted⟩ := Executable.run_eq_some.mp ha
    have hother (k : Nat) (hk : a.error = some (.stepLimitExceeded k)) : False := by
      rw [herror] at hk
      cases hk
      exact hscope
    have hunlimited := Executable.counted_unlimited hcounted hother
    obtain ⟨fuel', hwalk⟩ := (walks_iff_runs (hwell.prepare o) rfl he a).mpr
      ⟨fuel, Executable.run_eq_some.mpr ⟨n, hunlimited⟩⟩
    exact walk_safe (hwell.prepare o) hwalk herror hscope

/-- A counting loop in three-address form reads its hidden variables where they are bound. -/
theorem run_safe_loop :
    ∃ program e a, analyze "for i in range(2):\n    print(i)\n" = .ok program ∧
      compileProgram ⟨false, .threeAddress⟩ program = .ok e ∧ e.run ⟨some 50, none⟩ 60 = some a ∧
      (∀ x, a.error ≠ some (.undefinedVariable x)) ∧ a.error ≠ some .returnOutsideFunction := by
  have haccepted : analyze "for i in range(2):\n    print(i)\n" =
      .ok [.forRange "i" (.number (.int 0)) (.number (.int 2)) [.print (.variable "i")]] := by
    unfold analyze parse
    conv in tokenize _ => cbv
    rfl
  obtain ⟨e, he, hsafe⟩ := run_safe haccepted ⟨false, .threeAddress⟩
  have hrun : e.run ⟨some 50, none⟩ 60 = some ⟨["0", "1"], none⟩ := by
    cases he
    cbv
  exact ⟨_, e, _, haccepted, he, hrun, hsafe _ _ _ (.inr hrun)⟩

end Offside
