import Offside.Proofs.Realization.Matches

/-!
What it means that a machine realizes a part of a metered walk. `Realizes e m x s Q` says that the
machine follows `x` from where it stands: if `x` has a result, it reaches a machine for which `Q`
holds; if `x` fails, it fails with the same error, having printed the same and taken as many steps
as were charged for; and if `x` runs out of fuel, it is kept busy for that long. Nothing is said of
a walk that meets an unbound variable, which lowering may put off.
-/

set_option autoImplicit false
set_option relaxedAutoImplicit false

namespace Offside

open Walk (Ensures)
open Machine (Reaches Advances)
open Tariff (charge)

/-- What a machine does where a walk is interrupted. Where the fuel gives out at a call, the
instruction has been charged for and not yet carried out. -/
def Interrupted (e : Executable) (m : Machine) : Interrupt → WalkState → Prop
  | .error err, s =>
    (∃ x, err = .undefinedVariable x) ∨
      ∃ m₁ m', Reaches e m m₁ ∧ m₁.step e = (.error err, m') ∧ m'.output = s.output ∧
        m'.steps = s.steps
  | .outOfFuel, s => ∃ m', Reaches e m m' ∧ s.steps ≤ m'.steps + 1

/-- The machine `m`, running `e`, follows the part `x` of a walk that is begun in `s`. -/
def Realizes {α : Type} (e : Executable) (m : Machine) (x : Walk α) (s : WalkState)
    (Q : α → WalkState → Machine → Prop) : Prop :=
  Ensures x s (fun a s' ↦ ∃ m', Reaches e m m' ∧ Q a s' m') (Interrupted e m)

/-! ### Charges -/

theorem charge_zero : charge 0 = pure () :=
  rfl

theorem charge_succ (n : Nat) : charge (n + 1) = (do charge 1; charge n) := by
  have hsteps (s : WalkState) : s.steps + (n + 1) = s.steps + 1 + n := by omega
  show (modify fun s ↦ { s with steps := s.steps + (n + 1) } : Walk Unit) =
    modify fun s ↦ { s with steps := s.steps + 1 + n }
  simp only [hsteps]

/-! ### Rules -/

section

variable {α β σ : Type} {e : Executable} {m m₁ : Machine} {s : WalkState}
  {Q R : α → WalkState → Machine → Prop}

theorem Interrupted.of_reaches {i : Interrupt} (hreach : Reaches e m m₁)
    (h : Interrupted e m₁ i s) : Interrupted e m i s := by
  cases i with
  | error err =>
    refine h.imp_right ?_
    rintro ⟨m₂, m', hreach', hstep⟩
    exact ⟨m₂, m', hreach.trans hreach', hstep⟩
  | outOfFuel =>
    obtain ⟨m', hreach', hsteps⟩ := h
    exact ⟨m', hreach.trans hreach', hsteps⟩

theorem interrupted_of_step {err : RuntimeError} {m' : Machine}
    (hstep : m.step e = (.error err, m')) (houtput : m'.output = s.output)
    (hsteps : m'.steps = s.steps) : Interrupted e m (.error err) s :=
  .inr ⟨m, m', .refl, hstep, houtput, hsteps⟩

theorem interrupted_outOfFuel (h : s.steps ≤ m.steps + 1) : Interrupted e m .outOfFuel s :=
  ⟨m, .refl, h⟩

theorem interrupted_undefinedVariable {x : String} :
    Interrupted e m (.error (.undefinedVariable x)) s :=
  .inl ⟨x, rfl⟩

namespace Realizes

/-- What is realized from a machine that is reached is realized. -/
theorem of_reaches {x : Walk α} (hreach : Reaches e m m₁) (h : Realizes e m₁ x s Q) :
    Realizes e m x s Q := by
  refine Ensures.mono h ?_ fun i s' hi ↦ hi.of_reaches hreach
  rintro a s' ⟨m', hreach', hQ⟩
  exact ⟨m', hreach.trans hreach', hQ⟩

theorem of_step {x : Walk α} (hstep : m.step e = Machine.goOn m₁) (h : Realizes e m₁ x s Q) :
    Realizes e m x s Q :=
  h.of_reaches (.single (.running hstep))

theorem post {x : Walk α} (h : Realizes e m x s Q) (hQ : ∀ a s' m', Q a s' m' → R a s' m') :
    Realizes e m x s R := by
  refine Ensures.post h ?_
  rintro a s' ⟨m', hreach, hm'⟩
  exact ⟨m', hreach, hQ a s' m' hm'⟩

theorem bind {x : Walk β} {f : β → Walk α} {P : β → WalkState → Machine → Prop}
    (hx : Realizes e m x s P) (hf : ∀ b s' m', P b s' m' → Realizes e m' (f b) s' Q) :
    Realizes e m (x >>= f) s Q := by
  refine Ensures.bind hx ?_
  rintro b s' ⟨m', hreach, hP⟩
  exact (hf b s' m' hP).of_reaches hreach

end Realizes

theorem realizes_pure {a : α} (h : Q a s m) : Realizes e m (pure a) s Q :=
  ⟨m, .refl, h⟩

/-- A charge is paid by the steps that the machine takes next. -/
theorem realizes_charge {n : Nat} {x : Walk α}
    (h : Realizes e m x { s with steps := s.steps + n } Q) :
    Realizes e m (do Tariff.charge n; x) s Q :=
  h

theorem realizes_get_bind {f : WalkState → Walk α} (h : Realizes e m (f s) s Q) :
    Realizes e m (get >>= f) s Q :=
  h

/-- A machine that follows each turn follows the loop. -/
theorem realizes_iterate {turn : σ → Walk (σ ⊕ α)} {I : σ → WalkState → Machine → Prop}
    (hturn : ∀ v s m, I v s m →
      Realizes e m (turn v) s fun r s' m' ↦ r.elim (fun w ↦ I w s' m') fun a ↦ Q a s' m')
    (hfuel : ∀ v s m, I v s m → s.steps ≤ m.steps + 1) (fuel : Nat) :
    ∀ v s m, I v s m → Realizes e m (Walk.iterate turn fuel v) s Q := by
  induction fuel with
  | zero => exact fun v s m hI ↦ interrupted_outOfFuel (hfuel v s m hI)
  | succ fuel ih =>
    intro v s m hI
    rw [Walk.iterate]
    refine (hturn v s m hI).bind fun r s' m' hr ↦ ?_
    cases r with
    | inl w => exact ih w s' m' hr
    | inr a => exact realizes_pure hr

end

end Offside
