import Mathlib.Logic.Relation
import Offside.Proofs.Machine.StepLimit

/-!
What a machine reaches. `Reaches e m m'` says that the machine `m` becomes `m'` in some number of
steps, none of which ends the run. A run from `m` then ends as one from `m'` does
(`ends_of_reaches`), and it does not end within fewer steps than the machine counts on the way
(`runFrom_eq_none_of_reaches`).
-/

set_option autoImplicit false
set_option relaxedAutoImplicit false

namespace Offside.Machine

/-- A step that does not end the run. -/
def Advances (e : Executable) (m m' : Machine) : Prop :=
  ∃ st, st ≠ .halted ∧ m.step e = (.ok st, m')

/-- Steps that do not end the run. -/
abbrev Reaches (e : Executable) : Machine → Machine → Prop :=
  Relation.ReflTransGen (Advances e)

/-- A run that ends, in an error or at the end of the main block. -/
def Ends (e : Executable) (m : Machine) (error : Option RuntimeError) (m' : Machine) : Prop :=
  ∃ fuel, runFrom e fuel m = some (error, m')

variable {e : Executable} {m m₁ m' : Machine} {error : Option RuntimeError}

theorem Advances.running (h : m.step e = (.ok .running, m')) : Advances e m m' :=
  ⟨.running, by decide, h⟩

theorem Advances.returned (h : m.step e = (.ok .returned, m')) : Advances e m m' :=
  ⟨.returned, by decide, h⟩

theorem ends_of_halted (h : m.step e = (.ok .halted, m')) : Ends e m none m' :=
  ⟨1, runFrom_of_halted h⟩

theorem ends_of_error {err : RuntimeError} (h : m.step e = (.error err, m')) :
    Ends e m (some err) m' :=
  ⟨1, runFrom_of_error h⟩

theorem ends_of_reaches (h : Reaches e m m₁) (hends : Ends e m₁ error m') :
    Ends e m error m' := by
  induction h using Relation.ReflTransGen.head_induction_on with
  | refl => exact hends
  | head hstep _ ih =>
    obtain ⟨st, hst, hstep⟩ := hstep
    obtain ⟨fuel, hfuel⟩ := ih
    exact ⟨fuel + 1, (runFrom_of_step hst hstep).trans hfuel⟩

/-- Two runs from one machine that both end do so in the same way. -/
theorem runFrom_unique {fuel fuel' : Nat} {x y : Option RuntimeError × Machine}
    (h : runFrom e fuel m = some x) (h' : runFrom e fuel' m = some y) : x = y := by
  induction fuel generalizing m fuel' with
  | zero => cases h
  | succ fuel ih =>
    cases fuel' with
    | zero => cases h'
    | succ fuel' =>
      obtain ⟨error, m₂⟩ := x
      obtain ⟨hstep, rfl⟩ | ⟨st, m₁, hst, hstep, hrest⟩ | ⟨err, hstep, rfl⟩ := runFrom_succ h
      · exact Option.some.inj ((runFrom_of_halted hstep).symm.trans h')
      · exact ih hrest ((runFrom_of_step hst hstep).symm.trans h')
      · exact Option.some.inj ((runFrom_of_error hstep).symm.trans h')

/-- A machine that reaches another one takes at least as many steps as the clock advances by. -/
theorem runFrom_eq_none_of_reaches (h : Reaches e m m') {fuel : Nat}
    (hfuel : m.steps + fuel ≤ m'.steps) : runFrom e fuel m = none := by
  induction h using Relation.ReflTransGen.head_induction_on generalizing fuel with
  | refl =>
    obtain rfl : fuel = 0 := by omega
    rfl
  | head hstep _ ih =>
    obtain ⟨st, hst, hstep⟩ := hstep
    cases fuel with
    | zero => rfl
    | succ fuel =>
      have hclock := (step_clock hstep).2.2
      rw [runFrom_of_step hst hstep]
      exact ih (by omega)

end Offside.Machine
