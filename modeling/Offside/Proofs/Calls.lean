import Mathlib
import Offside.Proofs.Balance
import Offside.Proofs.Calls.Check
import Offside.Proofs.Calls.Code
import Offside.Proofs.Calls.Safety
import Offside.Proofs.Scope.Check
import Offside.Proofs.Tariff.Simplify

/-!
The scope check is sound for calls. In an accepted program a call by name always has the number of
arguments that the name takes, so that only calls of methods can fail for it; and where functions
and classes are defined at the top level only, every name that is called stands for something
(`calls_sound`). A walk is compared with one that blames methods, a machine is looked at where its
step fails.
-/

set_option autoImplicit false
set_option relaxedAutoImplicit false

namespace Offside

open Machine (Reaches start)

/-! ### The machine -/

namespace Machine

section

variable {T : String → Option Nat} {e : Executable} {m : Machine}

/-- What a machine has defined takes as many arguments as `T` says. -/
theorem Loaded.fits (h : Loaded e m) (hT : BuiltinsFit T) (he : e.Fits T) {name : String}
    {count : Nat} (hname : T name = some count) : m.Fits name count := by
  unfold Machine.Fits
  split
  · next b hb => exact Option.some.inj (hname.symm.trans (hT name b hb))
  · split
    · next r hr =>
      exact Option.some.inj ((he.functions name r (h.functions name r hr)).symm.trans hname)
    · split
      · next c hc =>
        obtain ⟨k, hk, harity⟩ := he.classes name c (h.classes name c hc)
        obtain rfl : k = count := Option.some.inj (hk.symm.trans hname)
        exact harity
      · trivial

/-- A machine stands at an instruction of the executable. -/
theorem Stands.fits {code : Code} {place n : Nat} {origins : List (Code × Nat × Option Value)}
    {i : Instr} (h : Stands e code place origins n) (he : e.Fits T)
    (hi : code[place]? = some i) : i.Fits T := by
  cases h with
  | main height place hheights hend hplace => exact he.main i (Array.mem_of_getElem? hi)
  | routine r height place origin origins below hr hheights hinside hplace hcaller =>
    exact he.routines r hr i (Array.mem_of_getElem? hi)

/-- A step of a machine in balance that fails for a number of arguments calls a method, if the
executable fits. -/
theorem Balance.callsMethod (h : Balance e m) (hT : BuiltinsFit T) (he : e.Fits T) {name : String}
    {expected found : Nat} (hstep : (m.step e).1 = .error (.arityMismatch name expected found)) :
    ∃ method count, m.code[m.place]? = some (.callMethod method count) := by
  have hreturned {m : Machine} {call : Call} {calls : List Call} (value : Value)
      (hcalls : m.calls = call :: calls) :
      (m.returnValue value).1 ≠ .error (.arityMismatch name expected found) := by
    rw [returnValue, hcalls]
    exact fun herror ↦ by cases herror
  have hsteps := step_steps e m
  generalize m.step e = o at hsteps hstep
  cases hsteps with
  | halts hplace hcalls => cases hstep
  | ends call calls hplace hcalls => exact absurd hstep (hreturned _ hcalls)
  | stops n hplace => cases hstep
  | executes i _ hi hadmitted hdoes =>
    cases hdoes with
    | fails m' error hkeeps herror =>
      cases hstep
      rcases herror with ⟨called, count, rfl, hmisfits⟩ | ⟨method, count, rfl⟩
      · have hnext : Loaded e m.next := h.loaded.of_eq rfl rfl rfl
        exact absurd (hnext.fits hT he (h.stands.fits he hi)) hmisfits
      · exact ⟨method, count, hi⟩
    | goesOn m' hkeeps hfalls hstack => cases hstep
    | jumps m' target hkeeps htarget hle hstack => cases hstep
    | enters m' r args made hkeeps hr hadmitted hfalls hpushes hstack => cases hstep
    | returns value rest call calls hreturn hstack hcalls =>
      exact absurd hstep (hreturned _ hcalls)

end

end Machine

/-! ### Accepted programs -/

section

variable {source : String} {program : Block}

/-- In an accepted program, all calls by name fit. -/
theorem fits_of_analyze (h : analyze source = .ok program) :
    ∃ T : String → Option Nat, BuiltinsFit T ∧
      BlockFits T (fun n ↦ (Builtin.ofName? n).isSome) program := by
  obtain ⟨read, -, h⟩ := bind_eq_ok.mp h
  obtain ⟨u, hscopes, h⟩ := bind_eq_ok.mp h
  cases h
  exact Scope.fits_of_checkScopes (mapError_eq_ok.mp hscopes)

/-- The code of a program that fits does so, simplified or not. -/
theorem fits_of_compiled {T : String → Option Nat} {K : String → Prop} {o : CompileOptions}
    {e : Executable} (hwell : WellFormed program) (hfits : BlockFits T K program)
    (he : lower o.lowering (o.prepare program) = .ok e) : e.Fits T := by
  have hfits' : BlockFits T (fun _ ↦ True) program := blockFits_mono (fun _ _ ↦ trivial) hfits
  unfold CompileOptions.prepare at he
  split at he
  · exact fits_of_lower hwell.simplify (blockFits_simplify (fun _ ↦ trivial) hfits') he
  · exact fits_of_lower hwell hfits' he

/-- An answer of a compiled program, other than that the limit on steps was met, is one of its tree
as it was read, with no limit on steps. -/
theorem walk_of_run {o : CompileOptions} {e : Executable} {limits : Limits} {fuel : Nat}
    {a : Answer} (hwell : WellFormed program) (he : lower o.lowering (o.prepare program) = .ok e)
    (ha : e.run limits fuel = some a) (herror : ∀ k, a.error ≠ some (.stepLimitExceeded k)) :
    ∃ fuel, walk program ⟨none, limits.depth⟩ fuel = some a := by
  obtain ⟨n, hcounted⟩ := Executable.run_eq_some.mp ha
  have hrun := Executable.run_eq_some.mpr ⟨n, Executable.counted_unlimited hcounted herror⟩
  unfold CompileOptions.prepare at he
  split at he
  · obtain ⟨fuel', hwalk⟩ := (walks_iff_runs hwell.simplify rfl he a).mpr ⟨fuel, hrun⟩
    have ht := Tariff.economical_ofLowering o.lowering
    obtain ⟨n', hmetered⟩ := (Tariff.walk_eq_some (Tariff.ofLowering o.lowering) rfl).mp hwalk
    exact ⟨fuel', (Tariff.walk_eq_some _ rfl).mpr (Tariff.counted_of_simplify ht hmetered)⟩
  · exact (walks_iff_runs hwell rfl he a).mpr ⟨fuel, hrun⟩

/-- The scope check is sound for calls. No call by name fails for the number of its arguments: the
walk of an accepted program ends as one does in which calls of methods with a wrong number of
arguments fail with any other error instead (`Walk.blaming`; without that change, the walk is the
same by `Walk.walkWith_plain`), and a machine whose step fails with an arity mismatch stands at a
call of a method, compiled in any way and under any limits. If all definitions stand at the top
level, neither ends for want of something to call. -/
theorem calls_sound (h : analyze source = .ok program) (o : CompileOptions) :
    ∃ e, compileProgram o program = .ok e ∧
      (∀ limits fuel a e', walk program limits fuel = some a →
        Walk.walkWith (Walk.blaming e') program limits fuel = some (a.blamed e')) ∧
      (∀ limits m name expected found, Reaches e (start limits e.main) m →
        (m.step e).1 = .error (.arityMismatch name expected found) →
        ∃ method count, m.code[m.place]? = some (.callMethod method count)) ∧
      ((∀ st ∈ program, st.AtTopLevel) → ∀ limits fuel a name,
        (walk program limits fuel = some a ∨ e.run limits fuel = some a) →
        a.error ≠ some (.undefinedFunction name)) := by
  have hwell := wellFormed_of_analyze h
  obtain ⟨T, hT, hfits⟩ := fits_of_analyze h
  obtain ⟨e, he, hcompile⟩ := compileProgram_ok o program
  have hbalanced : e.Balanced := balanced_of_lower he
  refine ⟨e, hcompile, fun limits fuel a e' ha ↦ walkWith_blaming hT hfits (fun _ hn ↦ hn) ha e',
    fun limits m name expected found hreach hstep ↦ ?_, fun htop limits fuel a name ha ↦ ?_⟩
  · have hbalance := (Machine.balance_start hbalanced limits).reaches hbalanced hreach
    exact hbalance.callsMethod hT (fits_of_compiled hwell hfits he) hstep
  · rcases ha with ha | ha
    · exact walk_finds hT hfits (fun _ hn ↦ hn) htop ha name
    · intro hundefined
      obtain ⟨fuel', hwalk⟩ := walk_of_run hwell he ha fun k hk ↦ by
        rw [hundefined] at hk
        cases hk
      exact walk_finds hT hfits (fun _ hn ↦ hn) htop hwalk name hundefined

/-- A method that takes no argument and is called with one is to blame, not the function that calls
it. -/
theorem calls_sound_method :
    ∃ program e a,
      analyze "class A:\n    def m(self):\n        pass\ndef f(a):\n    a.m(2)\nf(A())\n" =
        .ok program ∧
      compileProgram ⟨true, .threeAddress⟩ program = .ok e ∧
      Walk.walkWith (Walk.blaming .divisionByZero) program ⟨some 9, none⟩ 9 =
        some ⟨[], some .divisionByZero⟩ ∧
      e.run ⟨some 60, none⟩ 60 = some a ∧ a.error = some (.arityMismatch "m" 1 2) ∧
      ∀ name, a.error ≠ some (.undefinedFunction name) := by
  have haccepted :
      analyze "class A:\n    def m(self):\n        pass\ndef f(a):\n    a.m(2)\nf(A())\n" =
        .ok [.defineClass ⟨"A", [⟨"m", ["self"], [.pass]⟩]⟩,
          .define ⟨"f", ["a"], [.expr (.methodCall "a" "m" [.number (.int 2)])]⟩,
          .expr (.call "f" [.call "A" []])] := by
    unfold analyze parse
    conv in tokenize _ => cbv
    rfl
  obtain ⟨e, he, hblaming, -, hfinds⟩ := calls_sound haccepted ⟨true, .threeAddress⟩
  have hblamed := hblaming ⟨some 9, none⟩ 9 ⟨[], some (.arityMismatch "m" 1 2)⟩ .divisionByZero
    (by cbv)
  have hrun : e.run ⟨some 60, none⟩ 60 = some ⟨[], some (.arityMismatch "m" 1 2)⟩ := by
    cases he
    cbv
  refine ⟨_, e, _, haccepted, he, hblamed, hrun, rfl, fun name ↦ ?_⟩
  refine hfinds (fun st hst ↦ ?_) _ _ _ name (.inr hrun)
  rcases List.mem_cons.mp hst with rfl | hst
  · exact .inr (.inr ⟨_, rfl⟩)
  · rcases List.mem_cons.mp hst with rfl | hst
    · exact .inr (.inl ⟨_, rfl⟩)
    · rw [List.mem_singleton.mp hst]
      exact .inl rfl

end

end Offside
