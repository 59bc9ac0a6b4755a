import Offside.Proofs.Machine.Reach

/-!
The answer of an executable together with the number of instructions executed for it. There is at
most one whatever the fuel (`counted_unique`), and a limit on steps that is not met changes neither
(`counted_unlimited`, `counted_limited`).
-/

set_option autoImplicit false
set_option relaxedAutoImplicit false

namespace Offside.Executable

open Machine (start runFrom)

/-- The answer of an executable on the machine, and the instructions executed for it. -/
def counted (e : Executable) (limits : Limits) (fuel : Nat) : Option (Answer × Nat) :=
  (Machine.runAll fuel limits e).map fun (a, m) ↦ (a, m.steps)

variable {e : Executable} {limits : Limits} {fuel fuel' n : Nat} {a : Answer}

theorem run_eq_some :
    e.run limits fuel = some a ↔ ∃ n, e.counted limits fuel = some (a, n) := by
  have hrun : e.run limits fuel = (e.counted limits fuel).map Prod.fst := by
    rw [counted, Option.map_map]
    rfl
  rw [hrun, Option.map_eq_some_iff]
  simp only [Prod.exists, exists_and_right, exists_eq_right]

theorem counted_eq_some :
    e.counted limits fuel = some (a, n) ↔
      ∃ m, runFrom e fuel (start limits e.main) = some (a.error, m) ∧
        m.output.toList = a.lines ∧ m.steps = n := by
  unfold counted Machine.runAll
  rw [Option.map_map, Option.map_eq_some_iff]
  constructor
  · rintro ⟨⟨error, m⟩, hrun, heq⟩
    cases heq
    exact ⟨m, hrun, rfl, rfl⟩
  · rintro ⟨m, hrun, houtput, hsteps⟩
    refine ⟨(a.error, m), hrun, ?_⟩
    show ((⟨m.output.toList, a.error⟩ : Answer), m.steps) = (a, n)
    rw [houtput, hsteps]

/-- With any fuel that suffices, the answer and the count are the same. -/
theorem counted_unique {x y : Answer × Nat} (hx : e.counted limits fuel = some x)
    (hy : e.counted limits fuel' = some y) : x = y := by
  obtain ⟨⟨lines, error⟩, n⟩ := x
  obtain ⟨⟨lines', error'⟩, n'⟩ := y
  obtain ⟨m, hrun, rfl, rfl⟩ := counted_eq_some.mp hx
  obtain ⟨m', hrun', rfl, rfl⟩ := counted_eq_some.mp hy
  cases Machine.runFrom_unique hrun hrun'
  rfl

/-- An answer other than that the step limit was met is also given without one. -/
theorem counted_unlimited (h : e.counted limits fuel = some (a, n))
    (herror : ∀ k, a.error ≠ some (.stepLimitExceeded k)) :
    e.counted ⟨none, limits.depth⟩ fuel = some (a, n) := by
  obtain ⟨m, hrun, houtput, hsteps⟩ := counted_eq_some.mp h
  exact counted_eq_some.mpr ⟨_, Machine.runFrom_unlimited hrun herror, houtput, hsteps⟩

/-- An answer without a step limit is also given under one that leaves as many steps. -/
theorem counted_limited (h : e.counted ⟨none, limits.depth⟩ fuel = some (a, n))
    (hlimit : ∀ k, limits.steps = some k → n ≤ k) : e.counted limits fuel = some (a, n) := by
  obtain ⟨steps, depth⟩ := limits
  cases steps with
  | none => exact h
  | some k =>
    obtain ⟨m, hrun, houtput, rfl⟩ := counted_eq_some.mp h
    have hlimited := Machine.runFrom_limited hrun rfl (hlimit k rfl)
    exact counted_eq_some.mpr ⟨_, hlimited, houtput, rfl⟩

/-- No more instructions are executed than the limit on steps allows. -/
theorem counted_le {k : Nat} (h : e.counted limits fuel = some (a, n))
    (hlimit : limits.steps = some k) : n ≤ k := by
  obtain ⟨m, hrun, -, rfl⟩ := counted_eq_some.mp h
  exact Machine.runFrom_steps_le hrun hlimit (Nat.zero_le k)

end Offside.Executable
