import Offside.Proofs.Balance
import Offside.Proofs.Machine.Callers

/-!
A call cannot disturb its caller. In every run of a compiled program, checked or not, a call that
returns leaves all frames below its own as they were, and in place of its arguments one value on the
stack; the caller goes on right behind its call.
-/

set_option autoImplicit false
set_option relaxedAutoImplicit false

namespace Offside.Machine

/-- At `m`, the given call instruction enters the body of a routine. -/
structure Enters (e : Executable) (m : Machine) (i : Instr) (m₁ : Machine) : Prop where
  instr : m.code[m.place]? = some i
  call : (∃ name count, i = .callFunction name count) ∨ ∃ name count, i = .callMethod name count
  step : m.step e = (.ok .running, m₁)
  opens : m₁.calls.length = m.calls.length + 1

/-- With the step from `m₂` to `m₃`, the call that the instruction `i` at `m` has opened returns.
`m₂` stands at a return instruction, and `m₃` at the place behind the call, with the frames of `m`:
their variables, and where their callers go on. In place of the operands of the call, the stack has
the value that is returned, or the new instance if the call is that of a class. -/
structure Resumes (m : Machine) (i : Instr) (m₂ m₃ : Machine) : Prop where
  returning : m₂.code[m₂.place]? = some .returnValue
  frames : m₃.frames = m.frames
  code : m₃.code = m.code
  place : m₃.place = m.place + 1
  stack : ∃ operands value rest, m.stack = operands ++ rest ∧ operands.length = i.pops ∧
    m₂.stack = value :: rest ∧ m₃.stack = (m.newInstance? i).getD value :: rest

section

variable {e : Executable} {m m₁ m₂ m₃ : Machine} {i : Instr}

/-- The step that enters a body opens a call on what it leaves on the stack. -/
theorem Enters.opened (he : e.Balanced) (h : Enters e m i m₁) (hloaded : Loaded e m) :
    ∃ rest, m.Takes i rest ∧ Opened m (m.code, m.place + 1, m.newInstance? i) m₁ ∧
      Rests e m.calls.length rest m₁ := by
  have hlength := h.opens
  have hgoes : Goes m m₁ := Advances.goes (.running h.step)
  cases hgoes with
  | stays j _ rest given hj hpasses hleads htakes hgiven hstack =>
    have horigins := congrArg List.length (Passes.origins_eq hpasses)
    rw [List.length_map, List.length_map] at horigins
    omega
  | enters j m' r args rest hj hr hfalls hpushes htakes hfollows =>
    obtain rfl : i = j := Option.some.inj (h.instr.symm.trans hj)
    exact ⟨rest, htakes, opened_enter hfollows, rests_enter he (hloaded.holds hr) hfollows⟩
  | returns value rest call _ hvalue hcalls hglobals hcode hplace hstack =>
    rw [hcalls, List.length_cons] at hlength
    omega

end

/-- In every run of what a program compiles to, under any limits: where a call instruction enters a
body, and the machine later returns from it, the frames below are as they were at the call, and the
caller goes on behind its call, with one value in place of its operands. -/
theorem calls_resume (o : CompileOptions) (program : Block) :
    ∃ e, compileProgram o program = .ok e ∧ ∀ limits m i m₁ m₂ m₃,
      Reaches e (start limits e.main) m → Enters e m i m₁ → Within e m.calls.length m₁ m₂ →
        Advances e m₂ m₃ → m₃.calls.length ≤ m.calls.length → Resumes m i m₂ m₃ := by
  obtain ⟨e, he, hcompile⟩ := compileProgram_ok o program
  have hbalanced := balanced_of_lower he
  refine ⟨e, hcompile, fun limits m i m₁ m₂ m₃ hreach henters hwithin hadvances hlength ↦ ?_⟩
  have hbalance := (balance_start hbalanced limits).reaches hbalanced hreach
  obtain ⟨rest, htakes, hopened, hrests⟩ := henters.opened hbalanced hbalance.loaded
  have hbalance₁ := hbalance.reaches hbalanced (.single (.running henters.step))
  obtain ⟨hrests, hbalance₂⟩ := hrests.within hbalanced hbalance₁ hwithin
  have hopened := hopened.within hwithin
  -- The machine has as few calls open as at the call, so it has left the lowest routine.
  obtain hstill | hreturned := hopened.goes hadvances.goes
  · exact absurd hstill.depth_lt (Nat.not_lt_of_le hlength)
  obtain hstill | ⟨value, call, hi, hstack, hcalls, -, hstack'⟩ :=
    hrests.goes hbalanced hbalance₂.loaded hadvances.goes
  · exact absurd hstill.depth_lt (Nat.not_lt_of_le hlength)
  rw [hreturned.calls] at hcalls
  have horigin : origin call = _ := hopened.top hcalls
  have hmade : call.constructed = m.newInstance? i := congrArg (·.2.2) horigin
  obtain ⟨operands, hoperands, hpops⟩ := htakes
  refine ⟨hi, ?_, hreturned.code, hreturned.place, operands, value, rest, hoperands, hpops, hstack,
    hmade ▸ hstack'⟩
  rw [frames, frames, globalFrame, globalFrame, hreturned.calls, hreturned.globals]

/-- A program that calls a class whose constructor returns `True`. -/
def constructing : Block :=
  [.defineClass ⟨"A", [⟨"__init__", ["self"], [.return (some (.boolean true))]⟩]⟩,
    .expr (.call "A" [])]

theorem calls_resume_constructor :
    ∃ e m m₁ m₂ m₃, compileProgram ⟨false, .direct⟩ constructing = .ok e ∧
      Reaches e (start .unlimited e.main) m ∧ Enters e m (.callFunction "A" 0) m₁ ∧
      Within e m.calls.length m₁ m₂ ∧ Advances e m₂ m₃ ∧ m₃.calls.length ≤ m.calls.length ∧
      Resumes m (.callFunction "A" 0) m₂ m₃ ∧ m₃.stack = [.object 0] := by
  obtain ⟨e, hcompile, hresumes⟩ := calls_resume ⟨false, .direct⟩ constructing
  obtain rfl : lowerDirect constructing = e := Except.ok.inj hcompile
  let e := lowerDirect constructing
  let defined := ((start .unlimited e.main).step e).2
  let entered := (defined.step e).2
  let returning := (entered.step e).2
  let returned := (returning.step e).2
  have hdefine : (start .unlimited e.main).step e = (.ok .running, defined) := Prod.ext rfl rfl
  have hcall : defined.step e = (.ok .running, entered) := Prod.ext rfl rfl
  have hload : entered.step e = (.ok .running, returning) := Prod.ext rfl rfl
  have hreturn : returning.step e = (.ok .returned, returned) := Prod.ext rfl rfl
  have hreach : Reaches e (start .unlimited e.main) defined := .single (.running hdefine)
  have henters : Enters e defined (.callFunction "A" 0) entered :=
    ⟨rfl, .inl ⟨"A", 0, rfl⟩, hcall, rfl⟩
  have hwithin : Within e defined.calls.length entered returning :=
    .single ⟨.running hload, by decide⟩
  have hlength : returned.calls.length ≤ defined.calls.length := by decide
  exact ⟨e, defined, entered, returning, returned, hcompile, hreach, henters, hwithin,
    .returned hreturn, hlength,
    hresumes .unlimited defined _ entered returning returned hreach henters hwithin
      (.returned hreturn) hlength, rfl⟩

end Offside.Machine
