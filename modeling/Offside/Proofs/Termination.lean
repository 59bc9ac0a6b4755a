import Offside.Proofs.Budgets
import Offside.Proofs.Machine.Effects
import Offside.Proofs.Walk.Lasting

/-!
A limit on steps makes every run end, whatever the limit on open calls: on the machine, for every
executable, and for trees, for every program. Not every step of the machine is counted, as the
return at the end of a block is free; but a return closes a call, and only a counted step opens one.
-/

set_option autoImplicit false
set_option relaxedAutoImplicit false

namespace Offside

/-! ### On the machine -/

namespace Machine

/-- How many steps a machine can take before it ends, at most, if its limit admits `n` steps: two
for each that is still admitted, which may open a call that is returned from, one to return from
each open call, and the last one. -/
def stepsLeft (n : Nat) (m : Machine) : Nat :=
  2 * (n - m.steps) + m.calls.length + 1

section

variable {n : Nat} {e : Executable} {m m' : Machine}

theorem length_calls_of_keeps (h : Keeps e m m') : m'.calls.length = m.calls.length := by
  have hcalls := congrArg List.length h.calls
  rwa [List.length_map, List.length_map] at hcalls

theorem length_calls_returnValue (value : Value) {call : Call} {calls : List Call}
    (hcalls : m.calls = call :: calls) :
    (m.returnValue value).2.calls.length + 1 = m.calls.length := by
  simp only [returnValue, hcalls, List.length_cons]

theorem steps_returnValue (value : Value) : (m.returnValue value).2.steps = m.steps := by
  unfold returnValue
  split <;> rfl

/-- An instruction opens at most one call. -/
theorem Does.length_calls_le {i : Instr} {o : Outcome} (h : Does e m i o) :
    o.2.calls.length ≤ m.calls.length + 1 := by
  cases h with
  | fails m' error hkeeps herror => exact Nat.le_succ_of_le (length_calls_of_keeps hkeeps).le
  | goesOn m' hkeeps hfalls hstack => exact Nat.le_succ_of_le (length_calls_of_keeps hkeeps).le
  | jumps m' target hkeeps htarget hle hstack =>
    exact Nat.le_succ_of_le (length_calls_of_keeps hkeeps).le
  | enters m' r args made hkeeps hr hadmitted hfalls hpushes hstack =>
    exact Nat.succ_le_succ (length_calls_of_keeps hkeeps).le
  | returns value rest call calls hi hstack hcalls =>
    have hlength := length_calls_returnValue (m := { m with stack := rest }) value hcalls
    exact Nat.le_trans (Nat.le_of_succ_le hlength.le) (Nat.le_succ _)

/-- A step that does not end the run leaves fewer. -/
theorem stepsLeft_lt (hlimit : m.limits.steps = some n) (h : Advances e m m') :
    stepsLeft n m' < stepsLeft n m := by
  obtain ⟨st, hst, hstep⟩ := h
  have hsteps := step_steps e m
  rw [hstep] at hsteps
  unfold stepsLeft
  generalize ho : ((.ok st, m') : Outcome) = o at hsteps
  cases hsteps with
  | halts hplace hcalls =>
    cases ho
    exact absurd rfl hst
  | ends call calls hplace hcalls =>
    have hlength := length_calls_returnValue .none hcalls
    have hsteps := steps_returnValue (m := m) .none
    rw [← ho] at hlength hsteps
    dsimp only at hlength hsteps
    omega
  | stops k hplace => cases ho
  | executes i _ hi hadmitted hdoes =>
    have hlength := hdoes.length_calls_le
    have hclock := (execute_clock m.next e i).2
    rw [← step_of_instr hi hadmitted, hstep] at hclock
    rw [← ho] at hlength
    have hcounted : m'.steps = m.steps + 1 := hclock
    have hopened : m'.calls.length ≤ m.calls.length + 1 := hlength
    have hlt := Limits.admitStep_eq_ok.mp hadmitted n hlimit
    omega

/-- A run ends with fuel for all the steps that it can take. -/
theorem runFrom_of_stepsLeft {fuel : Nat} (hlimit : m.limits.steps = some n)
    (hfuel : stepsLeft n m ≤ fuel) : ∃ x, runFrom e fuel m = some x := by
  induction fuel generalizing m with
  | zero => exact absurd hfuel (Nat.not_le_of_lt (Nat.succ_pos _))
  | succ fuel ih =>
    cases hstep : m.step e with
    | mk r m' =>
      cases r with
      | error error => exact ⟨_, runFrom_of_error hstep⟩
      | ok st =>
        by_cases hst : st = .halted
        · exact ⟨_, runFrom_of_halted (hst ▸ hstep)⟩
        · have hlt := stepsLeft_lt hlimit ⟨st, hst, hstep⟩
          rw [runFrom_of_step hst hstep]
          exact ih ((step_clock hstep).1.trans hlimit) (by omega)

end

end Machine

/-- A run under a limit of `n` steps ends within `2 * n + 1` steps. -/
theorem Executable.run_ends (e : Executable) (n : Nat) (depth : Option Nat) :
    ∃ a, e.run ⟨some n, depth⟩ (2 * n + 1) = some a := by
  obtain ⟨⟨error, m⟩, hrun⟩ := Machine.runFrom_of_stepsLeft (e := e) (n := n)
    (m := .start ⟨some n, depth⟩ e.main) rfl (Nat.le_refl _)
  have hfuel : 2 * n + 1 = Machine.stepsLeft n (.start ⟨some n, depth⟩ e.main) := rfl
  rw [hfuel, Executable.run, Machine.runAll, hrun]
  exact ⟨_, rfl⟩

/-! ### On the tree -/

/-- A walk under a limit of `n` steps ends with fuel for `n` turns and open calls. -/
theorem walk_ends (program : Block) (n : Nat) (depth : Option Nat) :
    ∃ a, walk program ⟨some n, depth⟩ n = some a := by
  have hlasts : Walk.Lasts 0 _ := Walk.lasts_program (l := ⟨some n, depth⟩) rfl program
  have hensures := hlasts .initial (Nat.zero_le _)
  rw [Walk.walk_eq_answer?]
  unfold Walk.Ensures at hensures
  generalize Walk.outcome _ _ = o at hensures ⊢
  obtain ⟨(e | _) | _, s⟩ := o
  · exact ⟨_, rfl⟩
  · exact absurd rfl hensures
  · exact ⟨_, rfl⟩

/-! ### Both ways -/

/-- Under a limit of `n` steps every run ends, whatever the limit on open calls: on the machine, for
every executable, within `2 * n + 1` steps, and for the tree of every program. -/
theorem step_limit_terminates (n : Nat) (depth : Option Nat) :
    (∀ e : Executable, ∃ a, e.run ⟨some n, depth⟩ (2 * n + 1) = some a ∧
      EndsIn (e.run ⟨some n, depth⟩) a) ∧
    ∀ program : Block, ∃ a, EndsIn (walk program ⟨some n, depth⟩) a := by
  constructor
  · intro e
    obtain ⟨a, ha⟩ := e.run_ends n depth
    exact ⟨a, ha, (e.run_deterministic _).endsIn _ ha⟩
  · intro program
    obtain ⟨a, ha⟩ := walk_ends program n depth
    exact ⟨a, (walk_deterministic program _).endsIn _ ha⟩

end Offside
