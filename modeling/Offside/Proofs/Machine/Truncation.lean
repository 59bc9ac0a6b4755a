import Offside.Proofs.Limits
import Offside.Proofs.Machine.StepLimit

/-!
Machines under narrower limits. Step by step they do what they do under wider ones, until one of the
narrower limits is met (`step_withLimits`). So a run under narrower limits is the run under wider
ones, or it ends earlier with an error that names the limit and with a part of the lines
(`runFrom_withLimits`).
-/

set_option autoImplicit false
set_option relaxedAutoImplicit false

namespace Offside.Machine

/-- The machine under other limits. -/
def withLimits (m : Machine) (l : Limits) : Machine :=
  { m with limits := l }

theorem withLimits_eq_onRecord (m : Machine) (l : Limits) :
    m.withLimits l = m.onRecord l m.steps #[] := by
  simp [withLimits, onRecord]

section

variable {e : Executable} {m m' : Machine} {l : Limits} {fuel : Nat}

/-- An instruction under narrower limits does what it does, or is refused a call. -/
theorem execute_withLimits (hle : l ≤ m.limits) (i : Instr) :
    (m.withLimits l).execute e i = ((m.execute e i).1, (m.execute e i).2.withLimits l) ∨
      ∃ error m', (m.withLimits l).execute e i = (.error error, m') ∧ l.Exceeded error ∧
        m'.output = m.output := by
  have hsame {o : Outcome} (hnarrow : (m.onRecord l m.steps #[]).execute e i =
      o.onRecord l m.steps #[]) (hwide : (m.onRecord m.limits m.steps #[]).execute e i =
        o.onRecord m.limits m.steps #[]) :
      (m.withLimits l).execute e i = ((m.execute e i).1, (m.execute e i).2.withLimits l) := by
    rw [onRecord_self] at hwide
    rw [withLimits_eq_onRecord, hnarrow, hwide]
    rfl
  rcases execute_unrecorded m e i with hsteady | ⟨refused, opened, hopens⟩
  · exact .inl (hsame (hsteady l m.steps #[]) (hsteady m.limits m.steps #[]))
  · cases hadmitted : l.admitCall m.depth with
    | ok _ =>
      exact .inl (hsame (hopens.admitted hadmitted m.steps #[])
        (hopens.admitted (Limits.admitCall_of_le hle hadmitted) m.steps #[]))
    | error error =>
      have hnarrow := hopens.stopped hadmitted m.steps #[]
      rw [← withLimits_eq_onRecord] at hnarrow
      refine .inr ⟨error, _, hnarrow, Limits.exceeded_of_admitCall hadmitted, ?_⟩
      show #[] ++ refused.output = m.output
      rw [Array.empty_append, hopens.silent]

/-! ### Steps -/

/-- A step leaves the limits as they are and prints behind what has been printed before. -/
theorem step_keeps (e : Executable) (m : Machine) :
    (m.step e).2.limits = m.limits ∧ m.output.toList <+: (m.step e).2.output.toList := by
  have hself : m.output.toList <+: m.output.toList := List.prefix_refl _
  cases hi : m.code[m.place]? with
  | none =>
    simp only [step, hi, returnValue]
    cases m.calls <;> exact ⟨rfl, hself⟩
  | some i =>
    cases hadmitted : m.limits.admitStep m.steps with
    | error error =>
      simp only [step, hi, hadmitted]
      exact ⟨rfl, hself⟩
    | ok _ =>
      rw [step_of_instr hi hadmitted]
      exact ⟨execute_limits m.next e i, execute_output m.next e i⟩

/-- A step under narrower limits does what it does, or fails at one of them. -/
theorem step_withLimits (hle : l ≤ m.limits) :
    (m.withLimits l).step e = ((m.step e).1, (m.step e).2.withLimits l) ∨
      ∃ error m', (m.withLimits l).step e = (.error error, m') ∧ l.Exceeded error ∧
        m'.output = m.output := by
  have hcode : (m.withLimits l).code[(m.withLimits l).place]? = m.code[m.place]? := rfl
  cases hi : m.code[m.place]? with
  | none =>
    have hcalls : (m.withLimits l).calls = m.calls := rfl
    refine .inl ?_
    simp only [step, hcode, hi, returnValue, hcalls]
    cases m.calls <;> rfl
  | some i =>
    cases hadmitted : l.admitStep m.steps with
    | error error =>
      refine .inr ⟨error, m.withLimits l, ?_, Limits.exceeded_of_admitStep hadmitted, rfl⟩
      have hsteps : (m.withLimits l).limits.admitStep (m.withLimits l).steps = .error error :=
        hadmitted
      simp only [step, hcode, hi, hsteps]
      rfl
    | ok _ =>
      rw [step_of_instr (hcode.trans hi) hadmitted,
        step_of_instr hi (Limits.admitStep_of_le hle hadmitted)]
      exact execute_withLimits (m := m.next) hle i

/-! ### Runs -/

theorem runFrom_output {error : Option RuntimeError} (h : runFrom e fuel m = some (error, m')) :
    m.output.toList <+: m'.output.toList := by
  induction fuel generalizing m with
  | zero => cases h
  | succ fuel ih =>
    have hprinted := (step_keeps e m).2
    obtain ⟨hstep, -⟩ | ⟨_, _, -, hstep, hrest⟩ | ⟨_, hstep, -⟩ := runFrom_succ h <;>
      rw [hstep] at hprinted
    · exact hprinted
    · exact hprinted.trans (ih hrest)
    · exact hprinted

/-- A run under narrower limits is the run under the wider ones, or it ends earlier at one of the
limits. -/
theorem runFrom_withLimits (e : Executable) (fuel : Nat) (hle : l ≤ m.limits) :
    runFrom e fuel (m.withLimits l) =
        (runFrom e fuel m).map (fun x ↦ (x.1, x.2.withLimits l)) ∨
      ∃ error m', runFrom e fuel (m.withLimits l) = some (some error, m') ∧ l.Exceeded error ∧
        ∀ x ∈ runFrom e fuel m, m'.output.toList <+: x.2.output.toList := by
  induction fuel generalizing m with
  | zero => exact .inl rfl
  | succ fuel ih =>
    rcases step_withLimits hle with hsame | ⟨error, m', hstep, hexceeded, houtput⟩
    · have hkept := (step_keeps e m).1
      cases hstep : m.step e with
      | mk r m₁ =>
        rw [hstep] at hsame hkept
        have hnarrower : l ≤ m₁.limits := hkept ▸ hle
        have hrest := ih hnarrower
        rw [runFrom, runFrom, hsame, hstep]
        rcases r with error | ⟨_ | _ | _⟩
        · exact .inl rfl
        · exact hrest
        · exact hrest
        · exact .inl rfl
    · refine .inr ⟨error, m', runFrom_of_error hstep, hexceeded, fun x hx ↦ ?_⟩
      rw [houtput]
      exact runFrom_output hx

end

end Offside.Machine
