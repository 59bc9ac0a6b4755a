import Offside.Proofs.Machine.Balance
import Offside.Proofs.Machine.Frames
import Offside.Proofs.Realization.Program
import Offside.Proofs.ThreeAddress.Level

/-!
Compiled programs are balanced, whether they have been checked or not. Their code has heights and
defines only what the executable has an entry for, so that no run of it ends for want of operands or
in a jump out of its block, and a run that halts leaves nothing behind on the stack.
-/

set_option autoImplicit false
set_option relaxedAutoImplicit false

namespace Offside

open Machine (runAll)

theorem balanced_of_lower {lowering : Lowering} {program : Block} {e : Executable}
    (he : lower lowering program = .ok e) : e.Balanced := by
  cases lowering with
  | threeAddress => exact ThreeAddress.balanced_ofProgram program he
  | direct =>
    cases he
    exact balanced_lowerDirect program

/-- In every executable that a program compiles to, checked or not and in whichever way, all blocks
have heights, those of routines are left by a return only, jumps stay in their block and definitions
have an entry. No run of it under any limits ends in a stack underflow or an invalid jump, and a run
that halts ends with nothing on the stack and only the global frame. -/
theorem compileProgram_balanced (o : CompileOptions) (program : Block) :
    ∃ e, compileProgram o program = .ok e ∧
      (e.main.BalancedMain ∧ e.main.jumpsInBounds = true ∧ ∀ i ∈ e.main, e.Resolves i) ∧
      (∀ r, e.Holds r → r.body.BalancedRoutine ∧ r.body.jumpsInBounds = true ∧
        ∀ i ∈ r.body, e.Resolves i) ∧
      ∀ limits fuel a m, runAll fuel limits e = some (a, m) →
        a.error ≠ some .stackUnderflow ∧
        (∀ target length, a.error ≠ some (.invalidJumpTarget target length)) ∧
        (a.error = none → m.stack = [] ∧ m.frames = [m.globalFrame]) := by
  obtain ⟨e, he, hcompile⟩ := compileProgram_ok o program
  have hbalanced := balanced_of_lower he
  refine ⟨e, hcompile, ⟨hbalanced.main, ?_, hbalanced.resolvesMain⟩, fun r hr ↦
    ⟨hbalanced.routines r hr, ?_, hbalanced.resolves r hr⟩, fun limits fuel a m hrun ↦ ?_⟩
  · obtain ⟨height, hheights, -⟩ := hbalanced.main
    exact hheights.jumpsInBounds
  · obtain ⟨height, hheights, -⟩ := hbalanced.routines r hr
    exact hheights.jumpsInBounds
  · obtain ⟨⟨error, m'⟩, hfrom, hresult⟩ := Option.map_eq_some_iff.mp hrun
    cases hresult
    obtain ⟨herror, hhalted⟩ := (Machine.balance_start hbalanced limits).runFrom hbalanced hfrom
    refine ⟨fun hunderflow ↦ herror _ hunderflow trivial, fun target length hjump ↦
      herror _ hjump trivial, fun hnone ↦ ?_⟩
    obtain ⟨hstack, hcalls⟩ := hhalted hnone
    refine ⟨hstack, ?_⟩
    show m'.calls.map Machine.frameOf ++ _ = _
    rw [hcalls]
    rfl

end Offside
