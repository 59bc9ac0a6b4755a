import Offside.Proofs.Machine.Effects
import Offside.Proofs.Machine.Reach
import Offside.Proofs.Realization.Flow

/-!
What an instruction does to the variables and the stack of a machine. It stops, or it stays in its
call, where it binds at most the variable that it stores to, or it enters a routine, or it returns.
In each of these it takes its operands from the top of the stack and leaves alone what is below
(`execute_moves`).
-/

set_option autoImplicit false
set_option relaxedAutoImplicit false

namespace Offside.Machine

/-- An instruction takes its operands from the stack and leaves the rest. -/
def Takes (m : Machine) (i : Instr) (rest : List Value) : Prop :=
  ∃ taken, m.stack = taken ++ rest ∧ taken.length = i.pops

/-- The new instance, where an instruction is the call of a class. -/
def newInstance? (m : Machine) : Instr → Option Value
  | .callFunction name _ =>
    match m.functions.get? name with
    | some _ => none
    | none => (m.classes.get? name).map fun c ↦ (m.heap.newObject c.name c.methods).1
  | _ => none

/-- An outcome of an instruction, told by the variables and the stack. -/
inductive Moves (m : Machine) (i : Instr) : Outcome → Prop
  | stops (m' : Machine) (error : RuntimeError) : Moves m i (.error error, m')
  | stays (m' : Machine) (rest given : List Value)
    (hpasses : Passes (fun x ↦ i ≠ .storeVariable x) m m')
    (hplace : (i.fallsThrough = true ∧ m'.place = m.place) ∨ i.target? = some m'.place)
    (htakes : m.Takes i rest) (hgiven : given.length = i.pushes)
    (hstack : m'.stack = given ++ rest) : Moves m i (.ok .running, m')
  | enters (m' : Machine) (r : Routine Code) (args rest : List Value) (hr : m.CanEnter r)
    (hfalls : i.fallsThrough = true) (hpushes : i.pushes = 1) (htakes : m.Takes i rest)
    (hfollows : Follows m m' m.place rest) :
    Moves m i (.ok .running, m'.enter r args (m.newInstance? i))
  | returns (value : Value) (rest : List Value) (call : Call) (calls : List Call)
    (hi : i = .returnValue) (hstack : m.stack = value :: rest) (hcalls : m.calls = call :: calls) :
    Moves m i ({ m with stack := rest }.returnValue value)

section

variable {m : Machine} {i : Instr} {rest : List Value}

theorem follows_withStack (m : Machine) (stack : List Value) :
    Follows m { m with stack := stack } m.place stack :=
  ⟨rfl, rfl, rfl, rfl, rfl⟩

theorem takes_operands {count : Nat} {values : List Value}
    (h : m.operands count = some (values, rest)) :
    m.stack = values.reverse ++ rest ∧ values.length = count := by
  simp only [operands] at h
  split at h
  · next hlength =>
    cases h
    exact ⟨by rw [List.reverse_reverse, List.take_append_drop],
      by rw [List.length_reverse, hlength]⟩
  · cases h

/-- Binding a variable leaves the others alone. -/
theorem passes_bind (m : Machine) (rest : List Value) (name : String) (value : Value) :
    Passes (fun x ↦ Instr.storeVariable name ≠ .storeVariable x) m
        ({ m with stack := rest }.bind name value) ∧
      ({ m with stack := rest }.bind name value).place = m.place := by
  obtain ⟨limits, stack, globals, calls, depth, functions, classes, heap, code, place, steps,
    output⟩ := m
  have hother (vars : Bindings Value) (x : String)
      (hx : Instr.storeVariable name ≠ .storeVariable x) :
      (vars.set name value).get? x = vars.get? x :=
    Bindings.get?_set_of_ne vars (fun heq ↦ hx (congrArg Instr.storeVariable heq)) value
  cases calls with
  | nil => exact ⟨⟨rfl, rfl, hother globals⟩, rfl⟩
  | cons call calls => exact ⟨⟨rfl, rfl, hother call.locals⟩, rfl⟩

/-- An instruction that binds no variable and goes on behind itself. -/
theorem moves_goOn {m' : Machine} (given : List Value)
    (hfollows : Follows m m' m.place (given ++ rest)) (hfalls : i.fallsThrough = true)
    (htakes : m.Takes i rest) (hgiven : given.length = i.pushes) : Moves m i (goOn m') :=
  .stays m' rest given (.of_follows hfollows) (.inl ⟨hfalls, hfollows.place⟩) htakes hgiven
    hfollows.stack

theorem moves_give {m' : Machine} {r : Except RuntimeError Value}
    (hfollows : Follows m m' m.place rest) (hfalls : i.fallsThrough = true)
    (htakes : m.Takes i rest) (hpushes : i.pushes = 1) : Moves m i (m'.give r) := by
  cases r with
  | error error => exact .stops m' error
  | ok value =>
    refine moves_goOn [value] ?_ hfalls htakes hpushes.symm
    exact ⟨hfollows.code, hfollows.place, congrArg (value :: ·) hfollows.stack, hfollows.calls,
      hfollows.globals⟩

theorem moves_operate {operation : Heap → Heap.Effect Value} (hfalls : i.fallsThrough = true)
    (htakes : m.Takes i rest) (hpushes : i.pushes = 1) :
    Moves m i ({ m with stack := rest }.operate operation) := by
  have hfollows : Follows m { m with stack := rest, heap := (operation m.heap).2 } m.place rest :=
    ⟨rfl, rfl, rfl, rfl, rfl⟩
  have hgive : Moves m i
      ({ m with stack := rest, heap := (operation m.heap).2 }.give (operation m.heap).1) :=
    moves_give hfollows hfalls htakes hpushes
  exact hgive

theorem moves_change {operation : Heap → Heap.Effect Unit} (hfalls : i.fallsThrough = true)
    (htakes : m.Takes i rest) (hpushes : i.pushes = 0) :
    Moves m i ({ m with stack := rest }.change operation) := by
  have hfollows : Follows m { m with stack := rest, heap := (operation m.heap).2 } m.place rest :=
    ⟨rfl, rfl, rfl, rfl, rfl⟩
  unfold change onHeap
  dsimp only
  cases hop : operation m.heap with
  | mk r heap =>
    rw [hop] at hfollows
    cases r with
    | ok u => exact moves_goOn [] hfollows hfalls htakes hpushes.symm
    | error error => exact .stops _ error

theorem moves_jumpTo {target : Nat} (rest : List Value) (htarget : i.target? = some target)
    (htakes : m.Takes i rest) (hpushes : i.pushes = 0) : Moves m i ({ m with stack := rest }.jumpTo target) := by
  unfold jumpTo
  split
  · exact .stays _ rest [] ⟨rfl, rfl, fun _ _ ↦ rfl⟩ (.inr htarget) htakes hpushes.symm rfl
  · exact .stops _ _

theorem moves_call {r : Routine Code} {args : List Value} (hr : m.CanEnter r)
    (hfalls : i.fallsThrough = true) (hpushes : i.pushes = 1) (htakes : m.Takes i rest)
    (hmade : m.newInstance? i = none) : Moves m i ({ m with stack := rest }.call r args) := by
  unfold call
  split
  · exact .stops _ _
  · have hmoves := Moves.enters _ r args rest hr hfalls hpushes htakes (follows_withStack m rest)
    rwa [hmade] at hmoves

theorem moves_callNamed {name : String} {count : Nat} {args : List Value}
    (htakes : m.Takes (.callFunction name count) rest) :
    Moves m (.callFunction name count) ({ m with stack := rest }.callNamed name args) := by
  unfold callNamed
  dsimp only
  cases hr : m.functions.get? name with
  | some r =>
    refine moves_call (.function name hr) rfl rfl htakes ?_
    simp only [newInstance?, hr]
  | none =>
    cases hc : m.classes.get? name with
    | none => exact .stops _ _
    | some c =>
      have hmade : m.newInstance? (.callFunction name count) =
          some (m.heap.newObject c.name c.methods).1 := by
        simp only [newInstance?, hr, hc, Option.map_some]
      have hfollows : Follows m ({ m with stack := rest }.make c).2 m.place rest :=
        ⟨rfl, rfl, rfl, rfl, rfl⟩
      simp only [construct]
      cases hinit : c.methods.get? constructorName with
      | some r =>
        dsimp only
        split
        · exact .stops _ _
        · have hmoves := Moves.enters _ r ((m.heap.newObject c.name c.methods).1 :: args) rest
            (.constructor name c hc hinit) rfl rfl htakes hfollows
          rwa [hmade] at hmoves
      | none =>
        dsimp only
        split
        · exact moves_goOn [(m.heap.newObject c.name c.methods).1]
            ⟨rfl, rfl, rfl, rfl, rfl⟩ rfl htakes rfl
        · exact .stops _ _

theorem moves_callMethod {name : String} {count : Nat} {receiver : Value} {args : List Value}
    (htakes : m.Takes (.callMethod name count) rest) :
    Moves m (.callMethod name count) ({ m with stack := rest }.callMethod receiver name args) := by
  cases receiver with
  | list cell =>
    rw [callMethod]
    exact moves_operate rfl htakes rfl
  | object cell =>
    unfold callMethod
    dsimp only
    split
    · next r hr =>
      obtain ⟨inst, hinst, hmethod⟩ := Option.bind_eq_some_iff.mp hr
      exact moves_call (.method cell inst name hinst hmethod) rfl rfl htakes rfl
    · exact .stops _ _
  | _ => exact .stops _ _

end

/-- What an instruction does to the variables and the stack. -/
theorem execute_moves (e : Executable) (m : Machine) (i : Instr) : Moves m i (m.execute e i) := by
  cases i with
  | loadConstant value =>
    exact moves_goOn [.ofConstant value] (follows_withStack m _) rfl ⟨[], rfl, rfl⟩ rfl
  | loadVariable name =>
    simp only [execute]
    split
    · next value _ =>
      exact moves_goOn [value] (follows_withStack m _) rfl ⟨[], rfl, rfl⟩ rfl
    · exact .stops _ _
  | storeVariable name =>
    simp only [execute]
    split
    · next value rest hstack =>
      obtain ⟨hpasses, hplace⟩ := passes_bind m rest name value
      exact .stays _ rest [] hpasses (.inl ⟨rfl, hplace⟩) ⟨[value], hstack, rfl⟩ rfl
        (stack_bind _ _ _)
    · exact .stops _ _
  | arith op =>
    simp only [execute]
    split
    · next b a rest hstack => exact moves_operate rfl ⟨[b, a], hstack, rfl⟩ rfl
    · exact .stops _ _
  | compare op =>
    simp only [execute]
    split
    · next b a rest hstack =>
      exact moves_give (follows_withStack m rest) rfl ⟨[b, a], hstack, rfl⟩ rfl
    · exact .stops _ _
  | print =>
    simp only [execute]
    split
    · next value rest hstack =>
      exact moves_goOn [] ⟨rfl, rfl, rfl, rfl, rfl⟩ rfl ⟨[value], hstack, rfl⟩ rfl
    · exact .stops _ _
  | jump target => exact moves_jumpTo m.stack rfl ⟨[], rfl, rfl⟩ rfl
  | jumpIfFalse target =>
    simp only [execute]
    split
    · next value rest hstack =>
      split
      · exact moves_goOn [] (follows_withStack m rest) rfl ⟨[value], hstack, rfl⟩ rfl
      · exact moves_jumpTo rest rfl ⟨[value], hstack, rfl⟩ rfl
    · exact .stops _ _
  | buildList count =>
    simp only [execute]
    split
    · next values rest hoperands =>
      obtain ⟨hstack, hlength⟩ := takes_operands hoperands
      exact moves_operate rfl ⟨_, hstack, by rw [List.length_reverse]; exact hlength⟩ rfl
    · exact .stops _ _
  | loadIndex =>
    simp only [execute]
    split
    · next index list rest hstack =>
      exact moves_give (follows_withStack m rest) rfl ⟨[index, list], hstack, rfl⟩ rfl
    · exact .stops _ _
  | storeIndex =>
    simp only [execute]
    split
    · next value index list rest hstack =>
      exact moves_change rfl ⟨[value, index, list], hstack, rfl⟩ rfl
    · exact .stops _ _
  | defineFunction name =>
    simp only [execute]
    split
    · exact moves_goOn [] ⟨rfl, rfl, rfl, rfl, rfl⟩ rfl ⟨[], rfl, rfl⟩ rfl
    · exact .stops _ _
  | callFunction name count =>
    simp only [execute]
    split
    · split
      · split
        · next args rest hoperands =>
          obtain ⟨hstack, hlength⟩ := takes_operands hoperands
          exact moves_give (follows_withStack m rest) rfl
            ⟨_, hstack, by rw [List.length_reverse]; exact hlength⟩ rfl
        · exact .stops _ _
      · exact .stops _ _
    · split
      · next args rest hoperands =>
        obtain ⟨hstack, hlength⟩ := takes_operands hoperands
        exact moves_callNamed ⟨_, hstack, by rw [List.length_reverse]; exact hlength⟩
      · exact .stops _ _
  | returnValue =>
    simp only [execute]
    split
    · next value rest hstack =>
      by_cases hcalls : m.calls = []
      · have hfail : { m with stack := rest }.returnValue value =
            fail { m with stack := rest } .returnOutsideFunction := by
          simp only [returnValue, hcalls]
        rw [hfail]
        exact .stops _ _
      · obtain ⟨call, calls, hcalls⟩ := List.exists_cons_of_ne_nil hcalls
        exact .returns value rest call calls rfl hstack hcalls
    · exact .stops _ _
  | defineClass name =>
    simp only [execute]
    split
    · exact moves_goOn [] ⟨rfl, rfl, rfl, rfl, rfl⟩ rfl ⟨[], rfl, rfl⟩ rfl
    · exact .stops _ _
  | loadAttribute name =>
    simp only [execute]
    split
    · next object rest hstack =>
      exact moves_give (follows_withStack m rest) rfl ⟨[object], hstack, rfl⟩ rfl
    · exact .stops _ _
  | storeAttribute name =>
    simp only [execute]
    split
    · next value object rest hstack =>
      exact moves_change rfl ⟨[value, object], hstack, rfl⟩ rfl
    · exact .stops _ _
  | callMethod name count =>
    simp only [execute]
    split
    · next args receiver rest hoperands =>
      obtain ⟨hstack, hlength⟩ := takes_operands hoperands
      refine moves_callMethod ⟨args.reverse ++ [receiver], ?_, ?_⟩
      · rw [hstack, List.append_assoc]
        rfl
      · rw [List.length_append, List.length_reverse, hlength]
        rfl
    · exact .stops _ _
    · exact .stops _ _
  | pop =>
    simp only [execute]
    split
    · next value rest hstack =>
      exact moves_goOn [] (follows_withStack m rest) rfl ⟨[value], hstack, rfl⟩ rfl
    · exact .stops _ _

/-! ### Steps -/

/-- A step that does not end the run. It stays in its call, with an instruction that leads to the
next place; or it enters a routine from a call instruction; or it returns to the caller, from a
return instruction or at the end of the code. -/
inductive Goes (m : Machine) : Machine → Prop
  | stays (i : Instr) (m' : Machine) (rest given : List Value) (hi : m.code[m.place]? = some i)
    (hpasses : Passes (fun x ↦ i ≠ .storeVariable x) m m') (hleads : i.LeadsTo m.place m'.place)
    (htakes : m.Takes i rest) (hgiven : given.length = i.pushes)
    (hstack : m'.stack = given ++ rest) : Goes m m'
  | enters (i : Instr) (m' : Machine) (r : Routine Code) (args rest : List Value)
    (hi : m.code[m.place]? = some i) (hr : m.CanEnter r) (hfalls : i.fallsThrough = true)
    (hpushes : i.pushes = 1) (htakes : m.Takes i rest)
    (hfollows : Follows m m' (m.place + 1) rest) : Goes m (m'.enter r args (m.newInstance? i))
  | returns (value : Value) (rest : List Value) (call : Call) (m' : Machine)
    (hvalue : (m.code[m.place]? = some .returnValue ∧ m.stack = value :: rest) ∨
      m.code.size ≤ m.place)
    (hcalls : m.calls = call :: m'.calls) (hglobals : m'.globals = m.globals)
    (hcode : m'.code = call.callerCode) (hplace : m'.place = call.callerPlace)
    (hstack : m'.stack = call.constructed.getD value :: rest) : Goes m m'

theorem canEnter_next {m : Machine} {r : Routine Code} (h : m.next.CanEnter r) : m.CanEnter r := by
  cases h with
  | function name h => exact .function name h
  | constructor name c hc h => exact .constructor name c hc h
  | method cell i name hi h => exact .method cell i name hi h

/-- What a step does that does not end the run, whatever the executable. -/
theorem Advances.goes {e : Executable} {m m' : Machine} (h : Advances e m m') : Goes m m' := by
  obtain ⟨st, hst, hstep⟩ := h
  have hsteps := step_steps e m
  rw [hstep] at hsteps
  generalize ho : ((.ok st, m') : Outcome) = o at hsteps
  cases hsteps with
  | halts hplace hcalls =>
    cases ho
    exact absurd rfl hst
  | ends call calls hplace hcalls =>
    simp only [returnValue, hcalls] at ho
    cases ho
    exact .returns .none m.stack call _ (.inr hplace) hcalls rfl rfl rfl rfl
  | stops n hplace => cases ho
  | executes i _ hi hadmitted hdoes =>
    have hmoves := execute_moves e m.next i
    rw [← step_of_instr hi hadmitted, hstep] at hmoves
    clear hdoes ho
    generalize ho : ((.ok st, m') : Outcome) = o at hmoves
    cases hmoves with
    | stops m₁ error => cases ho
    | stays m₁ rest given hpasses hplace htakes hgiven hstack =>
      cases ho
      exact .stays i m' rest given hi ⟨hpasses.code, hpasses.outer, hpasses.vars⟩ hplace htakes
        hgiven hstack
    | enters m₁ r args rest hr hfalls hpushes htakes hfollows =>
      cases ho
      exact .enters i m₁ r args rest hi (canEnter_next hr) hfalls hpushes htakes
        ⟨hfollows.code, hfollows.place, hfollows.stack, hfollows.calls, hfollows.globals⟩
    | returns value rest call calls hreturn hstack hcalls =>
      subst hreturn
      replace hcalls : m.calls = call :: calls := hcalls
      simp only [returnValue, next, hcalls] at ho
      cases ho
      exact .returns value rest call _ (.inl ⟨hi, hstack⟩) hcalls rfl rfl rfl rfl

end Offside.Machine
