import Offside.Proofs.Machine.Counted
import Offside.Proofs.Realization.Gathered
import Offside.Proofs.Realization.Routines
import Offside.Proofs.Realization.ThreeAddress.Block
import Offside.Proofs.Scope.Safety
import Offside.Proofs.Tariff.Erasure
import Offside.Proofs.Tariff.Spending

/-!
Programs are realized under both lowerings. A machine that starts on the code of a program without a
limit on steps ends with an answer if the metered walk has that answer with some fuel, after as many
steps as the walk is charged for, and only then (`ends_iff_metered`). Where the walk runs out of
fuel, the machine is kept busy for as long as the fuel lasts.
-/

set_option autoImplicit false
set_option relaxedAutoImplicit false

namespace Offside

open ThreeAddress
open Machine (Reaches Ends start)
open Tariff (charge)

/-! ### From the start -/

section

variable {e : Executable} {limits : Limits} {main : Code} {program : Block} {fuel : Nat}

theorem matches_start : Matches e limits .initial (start limits main) where
  limits := rfl
  globals _ _ := rfl
  frame := trivial
  functions _ := .none
  classes _ := .none
  known _ _ h := by cases h
  heap := by simp [start, WalkState.initial, Heap.empty, Heap.forget]
  instances cell i h := by cases h
  steps := rfl
  depth := rfl
  opened := rfl
  output := rfl

/-- A program whose statements are realized is realized: the machine halts at the end of the main
block, and fails where a return is met outside of a routine. -/
theorem realizes_program {t : Tariff} {kept : String → Prop} {last : Nat}
    (hlimits : limits.steps = none) (hlast : last = main.size)
    (hexec : Realizes e (start limits main)
      (t.execBlock fuel (Tariff.invoke limits fuel) program) .initial
      (Completes e limits (start limits main)
        (Visits e limits kept (start limits main) last))) :
    Realizes e (start limits main) (t.program limits fuel program) .initial fun _ s m ↦
      Matches e limits s m ∧ m.step e = (.ok .halted, m) := by
  refine hexec.bind fun c s m hc ↦ ?_
  cases c with
  | next =>
    have hcalls : m.calls = [] := Machine.calls_eq_nil hc.passes.outer
    have hi : m.code[m.place]? = none := by
      rw [hc.place, hc.passes.code, hlast]
      exact Array.getElem?_eq_none (Nat.le_refl _)
    refine realizes_pure ⟨hc.state, ?_⟩
    rw [Machine.step, hi, hcalls]
    rfl
  | returned v =>
    have hcalls : m.calls = [] := Machine.calls_eq_nil hc.outer
    have hstep : m.step e = Machine.fail (m.next.withStack []) .returnOutsideFunction := by
      rw [hc.state.step hlimits hc.instr, Machine.execute, show m.next.stack = [v] from hc.stack]
      show (m.next.withStack []).returnValue v = _
      rw [Machine.returnValue, show (m.next.withStack []).calls = [] from hcalls]
    exact interrupted_of_step hstep hc.state.output (congrArg (· + 1) hc.state.steps)

/-- A program that is lowered directly. -/
theorem realizes_direct (h : WellFormed program) (hlimits : limits.steps = none) :
    Realizes (lowerDirect program) (start limits (lowerDirect program).main)
      (Tariff.direct.program limits fuel program) .initial fun _ s m ↦
        Matches (lowerDirect program) limits s m ∧
          m.step (lowerDirect program) = (.ok .halted, m) := by
  have hscoped : BlockScoped false Plain program := blockScoped_mono (fun _ hx ↦ hx.elim) h.inScope
  have hcode : CodeAt (start limits (lowerDirect program).main).code 0
      (codeOfBlock 0 .initial program).1 := by
    have hat := codeAt_toArray [] (codeOfBlock 0 .initial program).1 []
    rwa [List.append_nil] at hat
  have hexec := realizes_execBlock (invokesRealized hlimits fuel) hlimits fuel program hscoped
    (provides_lowerDirect h) (fun x (hx : False) ↦ hx.elim) hcode (.start matches_start)
  exact realizes_program hlimits (Nat.zero_add _) hexec

/-- The three-address form of a program can be assembled, whatever the program. -/
theorem executable_ofProgram (program : Block) :
    (ofProgram program).executable =
      .ok (((definitions program).2.foldl Gathered.addClass
        ((definitions program).1.foldl Gathered.addFunction .initial)).executable
          ((ofBlock ⟨0, 0, 0⟩ program).1.flatMap
            (Op.code (placeOf (ofBlock ⟨0, 0, 0⟩ program).1)))) := by
  have hassemble := (labelled_ofBlock program ⟨0, 0, 0⟩).assemble
  show (do
    let main ← assemble (ofBlock ⟨0, 0, 0⟩ program).1
    _) = _
  rw [hassemble]
  rfl

/-- A program that is lowered through its three-address form. -/
theorem realizes_threeAddress (h : WellFormed program) (hlimits : limits.steps = none)
    (he : (ofProgram program).executable = .ok e) :
    Realizes e (start limits e.main) (Tariff.threeAddress.program limits fuel program) .initial
      fun _ s m ↦ Matches e limits s m ∧ m.step e = (.ok .halted, m) := by
  have hscoped : BlockScoped false Plain program := blockScoped_mono (fun _ hx ↦ hx.elim) h.inScope
  rw [executable_ofProgram] at he
  cases he
  have hprovides := provides_ofProgram h
    ((ofBlock ⟨0, 0, 0⟩ program).1.flatMap (Op.code (placeOf (ofBlock ⟨0, 0, 0⟩ program).1)))
  have hexec := realizes_ofBlock (invokesRealized hlimits fuel) hlimits fuel program hscoped
    hprovides rfl (fun x (hx : False) ↦ hx.elim)
    (laidOut_assembled (labelled_ofBlock program ⟨0, 0, 0⟩).nodup) (.start matches_start)
  refine realizes_program hlimits ?_ hexec
  show 0 + totalWidth _ = (List.flatMap _ _).length
  rw [length_flatMap_code, Nat.zero_add]

/-- A program can be lowered either way. -/
theorem lower_ok (lowering : Lowering) (program : Block) : ∃ e, lower lowering program = .ok e := by
  cases lowering with
  | threeAddress => exact ⟨_, executable_ofProgram program⟩
  | direct => exact ⟨_, rfl⟩

/-- A program that has been read compiles, whichever way it is done. -/
theorem compileProgram_ok (o : CompileOptions) (program : Block) :
    ∃ e, lower o.lowering (o.prepare program) = .ok e ∧ compileProgram o program = .ok e := by
  obtain ⟨e, he⟩ := lower_ok o.lowering (o.prepare program)
  exact ⟨e, he, by rw [compileProgram, he]; rfl⟩

/-- A program that is lowered either way is realized, at the price of that way. -/
theorem realizes_lowered {lowering : Lowering} (fuel : Nat) (h : WellFormed program)
    (hlimits : limits.steps = none) (he : lower lowering program = .ok e) :
    Realizes e (start limits e.main) ((Tariff.ofLowering lowering).program limits fuel program)
      .initial fun _ s m ↦ Matches e limits s m ∧ m.step e = (.ok .halted, m) := by
  cases lowering with
  | threeAddress => exact realizes_threeAddress h hlimits he
  | direct =>
    cases he
    exact realizes_direct h hlimits

end

/-! ### How runs end -/

section

variable {e : Executable} {limits : Limits} {program : Block} {lowering : Lowering} {fuel : Nat}

theorem metered_safe (h : WellFormed program) {t : Tariff} (hlimits : limits.steps = none)
    {error : RuntimeError} {s : WalkState}
    (ho : Walk.outcome (t.program limits fuel program) .initial = (.error (.error error), s)) :
    ¬error.IsScopeError := by
  have ha := Tariff.walk_eq_counted t hlimits program fuel
  rw [Tariff.counted, ho] at ha
  exact walk_safe h ha rfl

/-- The machine ends as the metered walk does. -/
theorem ends_of_metered (h : WellFormed program) (hlimits : limits.steps = none)
    (he : lower lowering program = .ok e) {x : Answer × Nat}
    (hx : (Tariff.ofLowering lowering).counted limits fuel program = some x) :
    ∃ fuel, e.counted limits fuel = some x := by
  obtain ⟨a, n⟩ := x
  simp only [Executable.counted_eq_some]
  suffices hends : ∃ m, Ends e (start limits e.main) a.error m ∧ m.output.toList = a.lines ∧
      m.steps = n by
    obtain ⟨m, ⟨fuel, hrun⟩, hm⟩ := hends
    exact ⟨fuel, m, hrun, hm⟩
  have hrealizes := realizes_lowered fuel h hlimits he
  unfold Realizes Walk.Ensures at hrealizes
  unfold Tariff.counted at hx
  cases ho : Walk.outcome ((Tariff.ofLowering lowering).program limits fuel program) .initial with
  | mk r s =>
    rw [ho] at hrealizes hx
    cases r with
    | ok _ =>
      obtain ⟨m, hreach, hmatches, hhalted⟩ := hrealizes
      cases hx
      exact ⟨m, Machine.ends_of_reaches hreach (Machine.ends_of_halted hhalted),
        congrArg Array.toList hmatches.output, hmatches.steps⟩
    | error i =>
      cases i with
      | outOfFuel => cases hx
      | error error =>
        cases hx
        rcases hrealizes with ⟨x, rfl⟩ | ⟨m, m', hreach, hstep, houtput, hsteps⟩
        · exact absurd trivial (metered_safe h hlimits ho)
        · exact ⟨m', Machine.ends_of_reaches hreach (Machine.ends_of_error hstep),
            congrArg Array.toList houtput, hsteps⟩

/-- Where the machine ends, so does the metered walk with more fuel than the machine took. -/
theorem metered_of_ends (h : WellFormed program) (hlimits : limits.steps = none)
    (he : lower lowering program = .ok e) {x : Answer × Nat}
    (hx : e.counted limits fuel = some x) :
    ∃ y, (Tariff.ofLowering lowering).counted limits (fuel + 1) program = some y := by
  obtain ⟨a, n⟩ := x
  obtain ⟨m, hrun, -⟩ := Executable.counted_eq_some.mp hx
  have hrealizes := realizes_lowered (fuel + 1) h hlimits he
  have hspends := Tariff.spends_program (Tariff.ofLowering lowering) limits (fuel + 1) program
    .initial
  unfold Realizes Walk.Ensures at hrealizes
  unfold Walk.Ensures at hspends
  unfold Tariff.counted
  cases ho : Walk.outcome ((Tariff.ofLowering lowering).program limits (fuel + 1) program)
    .initial with
  | mk r s =>
    rw [ho] at hrealizes hspends
    cases r with
    | ok _ => exact ⟨_, rfl⟩
    | error i =>
      cases i with
      | error error => exact ⟨_, rfl⟩
      | outOfFuel =>
        -- A walk that gives up has been charged for all of its fuel, and the machine was kept busy
        -- for as long but for the one instruction that may be charged in advance.
        obtain ⟨m', hreach, hbusy⟩ := hrealizes
        have hspent : 0 + (fuel + 1) ≤ s.steps := hspends rfl
        have hsteps : (start limits e.main).steps + fuel ≤ m'.steps := by
          show 0 + fuel ≤ m'.steps
          omega
        rw [Machine.runFrom_eq_none_of_reaches hreach hsteps] at hrun
        cases hrun

/-- Without a limit on steps, the machine ends with an answer if and only if the metered walk does,
after as many instructions as the walk is charged for. -/
theorem ends_iff_metered (h : WellFormed program) (hlimits : limits.steps = none)
    (he : lower lowering program = .ok e) (x : Answer × Nat) :
    (∃ fuel, e.counted limits fuel = some x) ↔
      ∃ fuel, (Tariff.ofLowering lowering).counted limits fuel program = some x := by
  constructor
  · rintro ⟨fuel, hx⟩
    obtain ⟨y, hy⟩ := metered_of_ends h hlimits he hx
    obtain ⟨fuel', hfuel'⟩ := ends_of_metered h hlimits he hy
    obtain rfl : x = y := Executable.counted_unique hx hfuel'
    exact ⟨fuel + 1, hy⟩
  · rintro ⟨fuel, hx⟩
    exact ends_of_metered h hlimits he hx

/-- Without a limit on steps, a program that is lowered either way has the answers that it has when
its tree is walked. -/
theorem walks_iff_runs (h : WellFormed program) (hlimits : limits.steps = none)
    (he : lower lowering program = .ok e) (a : Answer) :
    (∃ fuel, walk program limits fuel = some a) ↔ ∃ fuel, e.run limits fuel = some a := by
  simp only [Tariff.walk_eq_some (Tariff.ofLowering lowering) hlimits, Executable.run_eq_some]
  have hcounted := exists_congr fun n ↦ (ends_iff_metered h hlimits he (a, n)).symm
  exact exists_comm.trans (hcounted.trans exists_comm)

end

end Offside
