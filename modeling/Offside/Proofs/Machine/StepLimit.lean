import Offside.Proofs.Machine.Record

/-!
The step limit stops a run and changes nothing else about it. An instruction neither reads nor sets
the clock of the machine, which is the number of steps taken with its limit (`execute_withClock`).
So a run that ends in anything but the step limit ends in the same way without one
(`runFrom_unlimited`), and a run without a limit ends in the same way under every limit that leaves
it as many steps as it takes (`runFrom_limited`).
-/

set_option autoImplicit false
set_option relaxedAutoImplicit false

namespace Offside.Machine

/-- The machine with another limit on its steps and another number of them taken. -/
def withClock (m : Machine) (limit : Option Nat) (ticks : Nat) : Machine :=
  { m with limits := { m.limits with steps := limit }, steps := ticks }

/-- An outcome with another clock. -/
def Outcome.withClock (o : Outcome) (limit : Option Nat) (ticks : Nat) : Outcome :=
  (o.1, o.2.withClock limit ticks)

section Instructions

variable (m : Machine) (limit : Option Nat) (ticks : Nat)

theorem withClock_eq_onRecord :
    m.withClock limit ticks = m.onRecord ⟨limit, m.limits.depth⟩ ticks #[] := by
  simp [withClock, onRecord]

/-- An instruction neither reads nor sets the clock. -/
theorem execute_withClock (e : Executable) (i : Instr) :
    (m.withClock limit ticks).execute e i = (m.execute e i).withClock limit ticks := by
  have hdepth : m.limits.admitCall m.depth = Limits.admitCall ⟨limit, m.limits.depth⟩ m.depth := rfl
  obtain ⟨o, ho⟩ := execute_onRecord m hdepth e i
  have hself := (ho m.steps #[]).1
  rw [onRecord_self] at hself
  rw [withClock_eq_onRecord, (ho ticks #[]).2, hself]
  rfl

/-- Executing an instruction takes no step besides the one that is counted before it. -/
theorem execute_clock (e : Executable) (i : Instr) :
    (m.execute e i).2.limits.steps = m.limits.steps ∧ (m.execute e i).2.steps = m.steps := by
  have h := execute_withClock m m.limits.steps m.steps e i
  have hself : m.withClock m.limits.steps m.steps = m := rfl
  rw [hself] at h
  rw [h]
  exact ⟨rfl, rfl⟩

end Instructions

/-! ### Steps -/

/-- The machine behind an instruction that it has only counted. -/
def next (m : Machine) : Machine :=
  { m with steps := m.steps + 1, place := m.place + 1 }

/-- The machine under another step limit. -/
def underLimit (m : Machine) (limit : Option Nat) : Machine :=
  m.withClock limit m.steps

section Steps

variable {e : Executable} {m m' : Machine} {r : Except RuntimeError Status}

theorem step_of_instr {i : Instr} (hi : m.code[m.place]? = some i)
    (hadmitted : m.limits.admitStep m.steps = .ok ()) : m.step e = m.next.execute e i := by
  simp only [step, hi, hadmitted]
  rfl

/-- A step takes at most one from the limit, and exactly one if there is an instruction to execute
and the limit admits it. -/
theorem step_clock (h : m.step e = (r, m')) :
    m'.limits.steps = m.limits.steps ∧ m.steps ≤ m'.steps ∧ m'.steps ≤ m.steps + 1 := by
  cases hi : m.code[m.place]? with
  | none =>
    simp only [step, hi, returnValue] at h
    split at h
    · cases h
      exact ⟨rfl, Nat.le_refl _, Nat.le_succ _⟩
    · split at h <;> cases h <;> exact ⟨rfl, Nat.le_refl _, Nat.le_succ _⟩
  | some i =>
    cases hadmitted : m.limits.admitStep m.steps with
    | error error =>
      simp only [step, hi, hadmitted, fail] at h
      cases h
      exact ⟨rfl, Nat.le_refl _, Nat.le_succ _⟩
    | ok _ =>
      rw [step_of_instr hi hadmitted] at h
      have hclock := execute_clock m.next e i
      rw [h] at hclock
      exact ⟨hclock.1, hclock.2 ▸ Nat.le_succ _, Nat.le_of_eq hclock.2⟩

/-- A step does the same under another limit that admits it. -/
theorem step_underLimit {limit : Option Nat} (h : m.step e = (r, m'))
    (hself : m.code[m.place]? ≠ none → m.limits.admitStep m.steps = .ok ())
    (hother : m.code[m.place]? ≠ none → (m.underLimit limit).limits.admitStep m.steps = .ok ()) :
    (m.underLimit limit).step e = (r, m'.underLimit limit) := by
  have hcode : (m.underLimit limit).code[(m.underLimit limit).place]? = m.code[m.place]? := rfl
  cases hi : m.code[m.place]? with
  | none =>
    have hcalls : (m.underLimit limit).calls = m.calls := rfl
    simp only [step, hi, returnValue] at h
    simp only [step, hcode, hi, returnValue, hcalls]
    cases hm : m.calls <;> rw [hm] at h <;> cases h <;> rfl
  | some i =>
    have hne : m.code[m.place]? ≠ none := by rw [hi]; exact Option.some_ne_none i
    rw [step_of_instr hi (hself hne)] at h
    rw [step_of_instr (hcode.trans hi) (hother hne)]
    have hclock := execute_clock m.next e i
    rw [h] at hclock
    have hmoved := execute_withClock m.next limit (m.steps + 1) e i
    rw [h] at hmoved
    have hsteps : m'.underLimit limit = m'.withClock limit (m.steps + 1) :=
      congrArg (m'.withClock limit) hclock.2
    rw [hsteps]
    exact hmoved

/-- A step that does not fail at the step limit was admitted. -/
theorem admitStep_of_step (h : m.step e = (r, m')) (hr : ∀ n, r ≠ .error (.stepLimitExceeded n))
    (hi : m.code[m.place]? ≠ none) : m.limits.admitStep m.steps = .ok () := by
  cases hadmitted : m.limits.admitStep m.steps with
  | ok _ => rfl
  | error error =>
    obtain ⟨i, hi⟩ := Option.ne_none_iff_exists'.mp hi
    obtain ⟨n, rfl⟩ := Limits.admitStep_eq_error hadmitted
    simp only [step, hi, hadmitted, fail, Prod.mk.injEq] at h
    exact absurd h.1.symm (hr n)

end Steps

/-! ### Runs -/

section Runs

variable {e : Executable} {error : Option RuntimeError} {m m' : Machine} {fuel : Nat}

/-- The first step of a run. -/
theorem runFrom_succ (h : runFrom e (fuel + 1) m = some (error, m')) :
    (m.step e = (.ok .halted, m') ∧ error = none) ∨
    (∃ st m₁, st ≠ .halted ∧ m.step e = (.ok st, m₁) ∧
      runFrom e fuel m₁ = some (error, m')) ∨
    ∃ err, m.step e = (.error err, m') ∧ error = some err := by
  rw [runFrom] at h
  cases hstep : m.step e with
  | mk r m₁ =>
    rw [hstep] at h
    cases r with
    | error err =>
      cases h
      exact .inr (.inr ⟨err, rfl, rfl⟩)
    | ok st =>
      cases st with
      | halted =>
        cases h
        exact .inl ⟨rfl, rfl⟩
      | running => exact .inr (.inl ⟨.running, m₁, by decide, rfl, h⟩)
      | returned => exact .inr (.inl ⟨.returned, m₁, by decide, rfl, h⟩)

theorem runFrom_of_halted (h : m.step e = (.ok .halted, m')) :
    runFrom e (fuel + 1) m = some (none, m') := by
  rw [runFrom, h]

theorem runFrom_of_error {err : RuntimeError} (h : m.step e = (.error err, m')) :
    runFrom e (fuel + 1) m = some (some err, m') := by
  rw [runFrom, h]

theorem runFrom_of_step {st : Status} {m₁ : Machine} (hst : st ≠ .halted)
    (h : m.step e = (.ok st, m₁)) : runFrom e (fuel + 1) m = runFrom e fuel m₁ := by
  rw [runFrom, h]
  cases st with
  | halted => exact absurd rfl hst
  | running => rfl
  | returned => rfl

theorem runFrom_steps (h : runFrom e fuel m = some (error, m')) : m.steps ≤ m'.steps := by
  induction fuel generalizing m with
  | zero => cases h
  | succ fuel ih =>
    obtain ⟨hstep, -⟩ | ⟨st, m₁, -, hstep, hrest⟩ | ⟨err, hstep, -⟩ := runFrom_succ h
    · exact (step_clock hstep).2.1
    · exact Nat.le_trans (step_clock hstep).2.1 (ih hrest)
    · exact (step_clock hstep).2.1

/-- A run takes no more steps than its limit. -/
theorem runFrom_steps_le {limit : Nat} (h : runFrom e fuel m = some (error, m'))
    (hlimit : m.limits.steps = some limit) (hm : m.steps ≤ limit) : m'.steps ≤ limit := by
  have hstep_le {r : Except RuntimeError Status} {m₁ : Machine} {m : Machine}
      (hstep : m.step e = (r, m₁)) (hlimit : m.limits.steps = some limit)
      (hm : m.steps ≤ limit) : m₁.steps ≤ limit := by
    by_cases heq : m.steps = limit
    · cases hi : m.code[m.place]? with
      | none =>
        simp only [step, hi, returnValue] at hstep
        split at hstep
        · cases hstep
          exact hm
        · split at hstep <;> cases hstep <;> exact hm
      | some i =>
        simp only [step, hi, Limits.admitStep, hlimit, heq, Nat.le_refl, if_true, fail] at hstep
        cases hstep
        exact hm
    · have := (step_clock hstep).2.2
      omega
  induction fuel generalizing m with
  | zero => cases h
  | succ fuel ih =>
    obtain ⟨hstep, -⟩ | ⟨st, m₁, -, hstep, hrest⟩ | ⟨err, hstep, -⟩ := runFrom_succ h
    · exact hstep_le hstep hlimit hm
    · exact ih hrest ((step_clock hstep).1.trans hlimit) (hstep_le hstep hlimit hm)
    · exact hstep_le hstep hlimit hm

/-- A run that does not end at the step limit ends in the same way without one. -/
theorem runFrom_unlimited (h : runFrom e fuel m = some (error, m'))
    (herror : ∀ n, error ≠ some (.stepLimitExceeded n)) :
    runFrom e fuel (m.underLimit none) = some (error, m'.underLimit none) := by
  induction fuel generalizing m with
  | zero => cases h
  | succ fuel ih =>
    obtain ⟨hstep, rfl⟩ | ⟨st, m₁, hst, hstep, hrest⟩ | ⟨err, hstep, rfl⟩ := runFrom_succ h
    · exact runFrom_of_halted
        (step_underLimit hstep (admitStep_of_step hstep fun n ↦ by simp) fun _ ↦ rfl)
    · rw [runFrom_of_step hst
        (step_underLimit hstep (admitStep_of_step hstep fun n ↦ by simp) fun _ ↦ rfl)]
      exact ih hrest
    · refine runFrom_of_error (step_underLimit hstep (admitStep_of_step hstep fun n hn ↦ ?_)
        fun _ ↦ rfl)
      exact herror n (congrArg some (Except.error.inj hn))

/-- A run without a step limit ends in the same way under every limit that leaves it as many steps
as it takes. -/
theorem runFrom_limited {limit : Nat} (h : runFrom e fuel m = some (error, m'))
    (hnone : m.limits.steps = none) (hlimit : m'.steps ≤ limit) :
    runFrom e fuel (m.underLimit (some limit)) = some (error, m'.underLimit (some limit)) := by
  have hself {m : Machine} (hnone : m.limits.steps = none) :
      m.code[m.place]? ≠ none → m.limits.admitStep m.steps = .ok () := fun _ ↦ by
    simp only [Limits.admitStep, hnone]
  have hother {r : Except RuntimeError Status} {m₁ m : Machine} (hstep : m.step e = (r, m₁))
      (hnone : m.limits.steps = none) (hle : m₁.steps ≤ limit) (hi : m.code[m.place]? ≠ none) :
      (m.underLimit (some limit)).limits.admitStep m.steps = .ok () := by
    obtain ⟨i, hi'⟩ := Option.ne_none_iff_exists'.mp hi
    rw [step_of_instr hi' (hself hnone hi)] at hstep
    have hclock := (execute_clock m.next e i).2
    rw [hstep] at hclock
    have hlt : ¬limit ≤ m.steps := by
      have hnext : m₁.steps = m.steps + 1 := hclock
      omega
    simp only [Limits.admitStep, underLimit, withClock, hlt, if_false]
  induction fuel generalizing m with
  | zero => cases h
  | succ fuel ih =>
    obtain ⟨hstep, rfl⟩ | ⟨st, m₁, hst, hstep, hrest⟩ | ⟨err, hstep, rfl⟩ := runFrom_succ h
    · exact runFrom_of_halted (step_underLimit hstep (hself hnone) (hother hstep hnone hlimit))
    · have hle : m₁.steps ≤ limit := Nat.le_trans (runFrom_steps hrest) hlimit
      rw [runFrom_of_step hst (step_underLimit hstep (hself hnone) (hother hstep hnone hle))]
      exact ih hrest ((step_clock hstep).1.trans hnone)
    · exact runFrom_of_error (step_underLimit hstep (hself hnone) (hother hstep hnone hlimit))

end Runs

end Offside.Machine
