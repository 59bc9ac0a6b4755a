import Offside.Proofs.Realization.Direct.Block

/-!
Routines are realized. The code of a routine is that of its body, lowered directly, and of a return
behind it; so a call that has been opened follows the body and comes back to the caller with the
variables of the caller as they were. The induction is on the fuel of the walk, which bounds how
deep calls are nested.
-/

set_option autoImplicit false
set_option relaxedAutoImplicit false

namespace Offside

open Walk (Ensures)
open Machine (Follows Reaches)
open Tariff (charge)

section

variable {e : Executable} {limits : Limits} {s s₂ : WalkState} {m m₂ : Machine} {r : Routine Block}
  {rc : Routine Code} {args : List Value} {constructed : Option Value} {v : Value}

/-- A routine has its arguments as variables where its call is opened. -/
theorem Matches.enter (hmatch : Matches e limits s m) (hcompiled : CompiledFrom r rc) :
    Matches e limits
      { s with locals := some (Bindings.ofList (r.params.zip args)), depth := s.depth + 1 }
      (m.enter rc args constructed) := by
  refine { hmatch with frame := ?_, depth := ?_, opened := ?_ }
  · intro x _
    show (Bindings.ofList (rc.params.zip args)).get? x = _
    rw [hcompiled.params_eq]
  · exact congrArg (· + 1) hmatch.depth
  · exact congrArg (· + 1) hmatch.opened

/-- A return from a call that was opened from `m`. -/
theorem Matches.leave (hlimits : limits.steps = none) (hmatch : Matches e limits s m)
    (hmatch₂ : Matches e limits s₂ m₂) (houter : m₂.outer = (m.enter rc args constructed).outer)
    (hi : m₂.code[m₂.place]? = some .returnValue) (hstack : m₂.stack = v :: m.stack) :
    ∃ m₃, Reaches e m₂ m₃ ∧
      Matches e limits
        { s₂ with locals := s.locals, depth := s.depth, steps := s₂.steps + 1 } m₃ ∧
      Follows m m₃ m.place (constructed.getD v :: m.stack) := by
  have hstep : m₂.step e = (m₂.next.withStack m.stack).returnValue v := by
    rw [hmatch₂.step hlimits hi, Machine.execute, show m₂.next.stack = v :: m.stack from hstack]
    rfl
  unfold Machine.outer at houter
  cases hcalls : m₂.calls with
  | nil =>
    rw [hcalls] at houter
    cases houter
  | cons call calls =>
    rw [hcalls] at houter
    obtain ⟨hglobals, hcall, hrest⟩ : m₂.globals = m.globals ∧
        { call with locals := .empty } = Call.mk .empty m.code m.place constructed ∧
          calls = m.calls := by
      simpa [Machine.enter] using houter
    obtain ⟨-, hcode, hplace, hmade⟩ := Call.mk.inj hcall
    have hreturn : (m₂.next.withStack m.stack).returnValue v =
        (.ok .returned, { m₂.next with
          stack := call.constructed.getD v :: m.stack, calls := calls, depth := m₂.depth - 1,
          code := call.callerCode, place := call.callerPlace }) := by
      rw [Machine.returnValue, show (m₂.next.withStack m.stack).calls = call :: calls from hcalls]
      rfl
    rw [hreturn, hcode, hplace, hmade, hrest] at hstep
    have hdepth : m₂.depth - 1 = m.depth := by
      rw [hmatch₂.opened, hcalls, hrest, List.length_cons, Nat.add_sub_cancel, hmatch.opened]
    refine ⟨_, .single (.returned hstep), ?_, ⟨rfl, rfl, rfl, rfl, hglobals⟩⟩
    refine { hmatch₂.next with frame := hmatch.frame, depth := ?_, opened := ?_ }
    · exact hdepth.trans hmatch.depth
    · exact hdepth.trans hmatch.opened

end

/-- What the walk does behind the body of a routine. -/
def Tariff.leave (outer : Option (Bindings Value)) (depth : Nat) (completion : Completion) :
    Walk Value := do
  modify fun s ↦ { s with locals := outer, depth := depth }
  match completion with
  | .returned value =>
    charge 1
    return value
  | .next =>
    charge 2
    return .none

/-- The code of a routine is that of its body with a return behind it. -/
theorem CompiledFrom.codeAt {r : Routine Block} {rc : Routine Code} (h : CompiledFrom r rc) :
    ∃ g, CodeAt rc.body 0 (codeOfBlock 0 g r.body).1 ∧
      CodeAt rc.body (0 + (codeOfBlock 0 g r.body).1.length) returnNone := by
  obtain ⟨-, g, hrc⟩ := h
  have hbody : rc.body = ((codeOfBlock 0 g r.body).1 ++ returnNone).toArray := by
    rw [hrc, codeOfRoutine_eq]
  refine ⟨g, ?_, ?_⟩
  · rw [hbody]
    exact codeAt_toArray [] _ returnNone
  · rw [hbody, Nat.zero_add]
    simpa only [List.append_nil] using codeAt_toArray (codeOfBlock 0 g r.body).1 returnNone []

/-- A body that has ended is followed by a return to the caller. -/
theorem realizes_leave {e : Executable} {limits : Limits} {s s₂ : WalkState} {m m₂ : Machine}
    {rc : Routine Code} {args : List Value} {constructed : Option Value} {kept : String → Prop}
    {place : Nat} (hlimits : limits.steps = none) (hmatch : Matches e limits s m)
    (hcode : CodeAt rc.body place returnNone) (completion : Completion)
    (hcompletes : Completes e limits (m.enter rc args constructed)
      (Visits e limits kept (m.enter rc args constructed) place) completion s₂ m₂) :
    Realizes e m₂ (Tariff.leave s.locals s.depth completion) s₂ fun v s' m' ↦
      Matches e limits s' m' ∧ Follows m m' m.place (constructed.getD v :: m.stack) := by
  cases completion with
  | returned v =>
    obtain ⟨m₃, hreach, hmatch₃, hfollows₃⟩ := hmatch.leave hlimits hcompletes.state
      hcompletes.outer hcompletes.instr hcompletes.stack
    exact ⟨m₃, hreach, hmatch₃, hfollows₃⟩
  | next =>
    obtain ⟨hnone, hreturn, -⟩ := hcode
    have hload : m₂.step e = Machine.goOn (m₂.next.push .none) :=
      hcompletes.state.step hlimits (hcompletes.here.instr (hcompletes.instr hnone))
    have hi : m₂.next.code[m₂.next.place]? = some .returnValue := by
      show m₂.code[m₂.place + 1]? = some .returnValue
      rw [hcompletes.place]
      exact hcompletes.instr hreturn
    obtain ⟨m₃, hreach, hmatch₃, hfollows₃⟩ := hmatch.leave hlimits
      (hcompletes.state.next.push .none) hcompletes.passes.outer hi
      (congrArg (Value.none :: ·) hcompletes.stack)
    exact ⟨m₃, .head (.running hload) hreach, hmatch₃, hfollows₃⟩

/-- Routines are realized. -/
theorem invokesRealized {e : Executable} {limits : Limits} (hlimits : limits.steps = none)
    (fuel : Nat) : InvokesRealized e limits (Tariff.invoke limits fuel) := by
  induction fuel with
  | zero =>
    refine ⟨fun _ ↦ ⟨rfl, .inr rfl⟩, fun _ hmatch _ ↦ ?_⟩
    exact interrupted_outOfFuel (Nat.le_succ_of_le (Nat.le_of_eq hmatch.steps.symm))
  | succ fuel ih =>
    constructor
    · intro r args s err herr
      show Ensures (do
        Walk.ofExcept (limits.admitEntry r.name r.params args.length s.depth)
        _) s _ _
      rw [herr]
      exact ⟨rfl, .inl rfl⟩
    · intro r rc args constructed s m hcompiled hmatch hadmitted
      obtain ⟨g, hcode, hend⟩ := hcompiled.codeAt
      have hbody := hcompiled.1.plain fun _ hx ↦ hx
      have hprovides : Provides e (ThreeAddress.definitions r.body) := by
        rw [definitions_of_scoped hbody]
        exact ⟨fun _ hr ↦ absurd hr List.not_mem_nil, fun _ hc ↦ absurd hc List.not_mem_nil⟩
      show Realizes e _ (do
        Walk.ofExcept (limits.admitEntry r.name r.params args.length s.depth)
        _) s _
      rw [hadmitted]
      show Realizes e _ (do
        let completion ← Tariff.direct.execBlock fuel (Tariff.invoke limits fuel) r.body
        Tariff.leave s.locals s.depth completion) { s with
          locals := some (Bindings.ofList (r.params.zip args)), depth := s.depth + 1 } _
      have hkept (x : String) (hx : False) : HiddenBelow 0 g.loops x := hx.elim
      refine (realizes_execBlock ih hlimits fuel r.body hbody hprovides hkept hcode
        (.start (hmatch.enter hcompiled))).bind fun c s₂ m₂ hc ↦ ?_
      exact realizes_leave hlimits hmatch hend c hc

end Offside
