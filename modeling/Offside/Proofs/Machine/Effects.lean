import Offside.Proofs.Code.Height
import Offside.Proofs.Machine.StepLimit
import Offside.Proofs.Value.Errors
import Offside.Proofs.Value.Forget

/-!
What an instruction can do to a machine. It fails, goes on behind itself, jumps, opens a call, or
returns from one (`Does`), and whatever it does before that leaves alone the control of the machine
and takes definitions from the executable only (`Keeps`). Every invariant of the machine is read off
`execute_does`, and no other proof about all instructions has to look into them.
-/

set_option autoImplicit false
set_option relaxedAutoImplicit false

namespace Offside.Machine

/-- What a call keeps for its caller. -/
def origin (call : Call) : Code × Nat × Option Value :=
  (call.callerCode, call.callerPlace, call.constructed)

/-- A routine that the machine can enter: a function, or a method of a class or of an instance. -/
inductive CanEnter (m : Machine) (r : Routine Code) : Prop
  | function (name : String) (h : m.functions.get? name = some r)
  | constructor (name : String) (c : ClassCode) (hc : m.classes.get? name = some c)
    (h : c.methods.get? constructorName = some r)
  | method (cell : Nat) (i : Instance) (name : String) (hi : m.heap.instance? cell = some i)
    (h : i.methods.get? name = some r)

/-- What a name stands for can be called with the given number of arguments, if it stands for
anything. -/
def Fits (m : Machine) (name : String) (count : Nat) : Prop :=
  match Builtin.ofName? name with
  | some b => count = b.arity
  | none =>
    match m.functions.get? name with
    | some r => r.params.length = count
    | none =>
      match m.classes.get? name with
      | some c =>
        match c.methods.get? constructorName with
        | some r => r.params.length = count + 1
        | none => count = 0
      | none => True

/-- From `m` to `m'` control stays where it is, and what is new among the definitions comes from the
executable, and among the methods of instances from the classes. -/
structure Keeps (e : Executable) (m m' : Machine) : Prop where
  limits : m'.limits = m.limits
  code : m'.code = m.code
  place : m'.place = m.place
  calls : m'.calls.map origin = m.calls.map origin
  depth : m'.depth = m.depth
  steps : m'.steps = m.steps
  functions : ∀ n r, m'.functions.get? n = some r →
    m.functions.get? n = some r ∨ e.functions.get? n = some r
  classes : ∀ n c, m'.classes.get? n = some c →
    m.classes.get? n = some c ∨ e.classes.get? n = some c
  instances : ∀ cell i, m'.heap.instance? cell = some i →
    (∃ j, m.heap.instance? cell = some j ∧ i.methods = j.methods) ∨
      ∃ n c, m.classes.get? n = some c ∧ i.methods = c.methods

/-- What is the case where an instruction fails with an error of the machine itself. -/
def Raises (m : Machine) (i : Instr) : RuntimeError → Prop
  | .stackUnderflow => m.stack.length < i.pops
  | .invalidJumpTarget target length =>
    i.target? = some target ∧ length = m.code.size ∧ m.code.size < target
  | .arityMismatch _ _ _ =>
    (∃ name count, i = .callFunction name count ∧ ¬m.Fits name count) ∨
      ∃ name count, i = .callMethod name count
  | _ => True

/-- An outcome of an instruction. -/
inductive Does (e : Executable) (m : Machine) (i : Instr) : Outcome → Prop
  | fails (m' : Machine) (error : RuntimeError) (hkeeps : Keeps e m m')
    (herror : m.Raises i error) : Does e m i (.error error, m')
  | goesOn (m' : Machine) (hkeeps : Keeps e m m') (hfalls : i.fallsThrough = true)
    (hstack : m'.stack.length + i.pops = m.stack.length + i.pushes) : Does e m i (.ok .running, m')
  | jumps (m' : Machine) (target : Nat) (hkeeps : Keeps e m m') (htarget : i.target? = some target)
    (hle : target ≤ m.code.size)
    (hstack : m'.stack.length + i.pops = m.stack.length + i.pushes) :
    Does e m i (.ok .running, { m' with place := target })
  | enters (m' : Machine) (r : Routine Code) (args : List Value) (made : Option Value)
    (hkeeps : Keeps e m m') (hr : m.CanEnter r)
    (hadmitted : m.limits.admitEntry r.name r.params args.length m.depth = .ok ())
    (hfalls : i.fallsThrough = true) (hpushes : i.pushes = 1)
    (hstack : m'.stack.length + i.pops = m.stack.length) :
    Does e m i (.ok .running, m'.enter r args made)
  | returns (value : Value) (rest : List Value) (call : Call) (calls : List Call)
    (hi : i = .returnValue) (hstack : m.stack = value :: rest) (hcalls : m.calls = call :: calls) :
    Does e m i ({ m with stack := rest }.returnValue value)

/-! ### What is kept -/

section

variable {e : Executable} {m m' : Machine}

/-- Only control and definitions matter. -/
theorem Keeps.of_eq (hlimits : m'.limits = m.limits) (hcode : m'.code = m.code)
    (hplace : m'.place = m.place) (hcalls : m'.calls.map origin = m.calls.map origin)
    (hdepth : m'.depth = m.depth) (hsteps : m'.steps = m.steps)
    (hfunctions : m'.functions = m.functions) (hclasses : m'.classes = m.classes)
    (hheap : Heap.KeepsInstances m.heap m'.heap) : Keeps e m m' where
  limits := hlimits
  code := hcode
  place := hplace
  calls := hcalls
  depth := hdepth
  steps := hsteps
  functions n r hr := .inl (hfunctions ▸ hr)
  classes n c hc := .inl (hclasses ▸ hc)
  instances cell i hi := by
    obtain ⟨j, hj, -, hmethods⟩ := hheap cell i hi
    exact .inl ⟨j, hj, hmethods⟩

theorem keeps_withStack (m : Machine) (stack : List Value) :
    Keeps e m { m with stack := stack } :=
  .of_eq rfl rfl rfl rfl rfl rfl rfl rfl (Heap.keepsInstances_of_objects_eq rfl)

theorem keeps_withHeap (m : Machine) (stack : List Value) {heap : Heap}
    (h : Heap.KeepsInstances m.heap heap) : Keeps e m { m with stack := stack, heap := heap } :=
  .of_eq rfl rfl rfl rfl rfl rfl rfl rfl h

theorem keeps_bind (m : Machine) (stack : List Value) (name : String) (value : Value) :
    Keeps e m ({ m with stack := stack }.bind name value) := by
  obtain ⟨limits, _, globals, calls, depth, functions, classes, heap, code, place, steps, out⟩ := m
  cases calls <;>
    exact .of_eq rfl rfl rfl rfl rfl rfl rfl rfl (Heap.keepsInstances_of_objects_eq rfl)

end

@[simp]
theorem stack_bind (m : Machine) (name : String) (value : Value) :
    (m.bind name value).stack = m.stack := by
  unfold bind
  split <;> rfl

/-! ### The parts of instructions -/

section

variable {e : Executable} {m : Machine} {i : Instr} {rest : List Value}

theorem raises_of_valueError {error : RuntimeError} (h : error.IsValueError) :
    m.Raises i error := by
  cases error <;> first | exact trivial | exact h.elim

theorem length_lt_one {α : Type} {xs : List α} (h : xs = []) : xs.length < 1 :=
  h ▸ Nat.one_pos

theorem length_lt_two {α : Type} {xs : List α} (h : ∀ b a rest, xs = b :: a :: rest → False) :
    xs.length < 2 := by
  rcases xs with _ | ⟨b, _ | ⟨a, rest⟩⟩
  · exact Nat.two_pos
  · exact Nat.one_lt_two
  · exact (h b a rest rfl).elim

theorem length_lt_three {α : Type} {xs : List α}
    (h : ∀ c b a rest, xs = c :: b :: a :: rest → False) : xs.length < 3 := by
  rcases xs with _ | ⟨c, rest⟩
  · exact Nat.succ_pos 2
  · exact Nat.succ_lt_succ (length_lt_two fun b a rest hrest ↦ h c b a rest (hrest ▸ rfl))

theorem does_underflow (h : m.stack.length < i.pops) : Does e m i m.underflow :=
  .fails _ _ (keeps_withStack m []) h

theorem does_goOn {m' : Machine} (hkeeps : Keeps e m m') (hfalls : i.fallsThrough = true)
    (hstack : m'.stack.length + i.pops = m.stack.length + i.pushes) : Does e m i (goOn m') :=
  .goesOn m' hkeeps hfalls hstack

/-- An instruction that puts a value onto the rest of the stack, or fails. -/
theorem does_give {m' : Machine} {r : Except RuntimeError Value} (hkeeps : Keeps e m m')
    (hfalls : i.fallsThrough = true)
    (hstack : m'.stack.length + 1 + i.pops = m.stack.length + i.pushes)
    (herror : ∀ error, r = .error error → m.Raises i error) : Does e m i (m'.give r) := by
  cases r with
  | ok value =>
    refine .goesOn _ ?_ hfalls hstack
    exact { hkeeps with }
  | error error => exact .fails _ _ hkeeps (herror error rfl)

theorem does_operate {operation : Heap → Heap.Effect Value} (hfalls : i.fallsThrough = true)
    (hstack : rest.length + 1 + i.pops = m.stack.length + i.pushes)
    (hheap : Heap.KeepsInstances m.heap (operation m.heap).2)
    (herror : ∀ error h, operation m.heap = (.error error, h) → m.Raises i error) :
    Does e m i ({ m with stack := rest }.operate operation) := by
  have hgive : Does e m i
      ({ m with stack := rest, heap := (operation m.heap).2 }.give (operation m.heap).1) :=
    does_give (keeps_withHeap m rest hheap) hfalls hstack
      fun error herr ↦ herror error (operation m.heap).2 (by rw [← herr])
  exact hgive

theorem does_change {operation : Heap → Heap.Effect Unit} (hfalls : i.fallsThrough = true)
    (hstack : rest.length + i.pops = m.stack.length + i.pushes)
    (hheap : Heap.KeepsInstances m.heap (operation m.heap).2)
    (herror : ∀ error h, operation m.heap = (.error error, h) → m.Raises i error) :
    Does e m i ({ m with stack := rest }.change operation) := by
  have hkeeps := keeps_withHeap (e := e) m rest hheap
  unfold change onHeap
  dsimp only
  cases hop : operation m.heap with
  | mk r heap =>
    rw [hop] at hkeeps
    cases r with
    | ok u => exact .goesOn _ hkeeps hfalls hstack
    | error error => exact .fails _ _ hkeeps (herror error heap hop)

theorem does_jumpTo {target : Nat} (rest : List Value) (htarget : i.target? = some target)
    (hstack : rest.length + i.pops = m.stack.length + i.pushes) :
    Does e m i ({ m with stack := rest }.jumpTo target) := by
  unfold jumpTo
  split
  · next hle => exact .jumps _ target (keeps_withStack m rest) htarget hle hstack
  · next hlt => exact .fails _ _ (keeps_withStack m rest) ⟨htarget, rfl, Nat.lt_of_not_le hlt⟩

/-- An entry that is not admitted fails at the limit on depth or for the number of arguments. -/
theorem raises_of_admitEntry {l : Limits} {name : String} {params : List String}
    {arguments opened : Nat} {error : RuntimeError}
    (h : l.admitEntry name params arguments opened = .error error)
    (harity : ∀ name k n, params.length ≠ arguments → m.Raises i (.arityMismatch name k n)) :
    m.Raises i error := by
  obtain ⟨hne, rfl⟩ | ⟨-, limit, rfl⟩ := Limits.admitEntry_eq_error h
  · exact harity _ _ _ hne
  · trivial

theorem does_call {r : Routine Code} {args : List Value} (hr : m.CanEnter r)
    (hfalls : i.fallsThrough = true) (hpushes : i.pushes = 1)
    (hstack : rest.length + i.pops = m.stack.length)
    (harity : ∀ name k n, r.params.length ≠ args.length → m.Raises i (.arityMismatch name k n)) :
    Does e m i ({ m with stack := rest }.call r args) := by
  unfold call
  split
  · next error h => exact .fails _ _ (keeps_withStack m rest) (raises_of_admitEntry h harity)
  · next h => exact .enters _ r args none (keeps_withStack m rest) hr h hfalls hpushes hstack

/-- Making an instance takes its methods from the class. -/
theorem keeps_make {name : String} {c : ClassCode} (hc : m.classes.get? name = some c) :
    Keeps e m ({ m with stack := rest }.make c).2 where
  limits := rfl
  code := rfl
  place := rfl
  calls := rfl
  depth := rfl
  steps := rfl
  functions n r hr := .inl hr
  classes n c hc := .inl hc
  instances cell i hi := by
    have hmade := Heap.instance?_newObject m.heap c.name c.methods cell
    rw [show (m.heap.newObject c.name c.methods).2.instance? cell = some i from hi] at hmade
    split at hmade
    · cases hmade
      exact .inr ⟨name, c, hc, rfl⟩
    · exact .inl ⟨i, hmade.symm, rfl⟩

theorem does_construct {name : String} {c : ClassCode} {args : List Value}
    (hc : m.classes.get? name = some c) (hfalls : i.fallsThrough = true) (hpushes : i.pushes = 1)
    (hstack : rest.length + i.pops = m.stack.length)
    (harity : ∀ r, c.methods.get? constructorName = some r →
      ∀ name k n, r.params.length ≠ args.length + 1 → m.Raises i (.arityMismatch name k n))
    (hnone : c.methods.get? constructorName = none →
      ∀ name k n, args.length ≠ 0 → m.Raises i (.arityMismatch name k n)) :
    Does e m i ({ m with stack := rest }.construct c args) := by
  unfold construct
  split
  · next r hr =>
    split
    · next error h =>
      exact .fails _ _ (keeps_withStack m rest) (raises_of_admitEntry h (harity r hr))
    · next h =>
      exact .enters _ r _ _ (keeps_make hc) (.constructor name c hc hr) h hfalls hpushes hstack
  · next hr =>
    split
    · have hkeeps : Keeps e m ({ m with stack := rest }.make c).2 := keeps_make hc
      refine .goesOn _ { hkeeps with } hfalls ?_
      show rest.length + 1 + i.pops = m.stack.length + i.pushes
      omega
    · next hargs =>
      refine .fails _ _ (keeps_withStack m rest) (hnone hr _ _ _ fun hzero ↦ hargs ?_)
      rw [List.length_eq_zero_iff.mp hzero]
      rfl

theorem operands_eq_some {count : Nat} {values : List Value}
    (h : m.operands count = some (values, rest)) :
    values.length = count ∧ rest.length + count = m.stack.length := by
  simp only [operands] at h
  split at h
  · next hlength =>
    cases h
    rw [List.length_take] at hlength
    rw [List.length_reverse, List.length_take, List.length_drop]
    omega
  · cases h

/-- A call of a name fails for the number of arguments only where the name takes another one. -/
theorem does_callNamed {name : String} {count : Nat} {args : List Value}
    (hi : i = .callFunction name count) (hname : Builtin.ofName? name = none)
    (hargs : args.length = count) (hstack : rest.length + i.pops = m.stack.length) :
    Does e m i ({ m with stack := rest }.callNamed name args) := by
  subst hi
  have hraises (hfits : ¬m.Fits name count) (other : String) (k n : Nat) :
      m.Raises (.callFunction name count) (.arityMismatch other k n) :=
    .inl ⟨name, count, rfl, hfits⟩
  unfold callNamed
  dsimp only
  cases hr : m.functions.get? name with
  | some r =>
    refine does_call (.function name hr) rfl rfl hstack fun other k n hne ↦ hraises ?_ other k n
    rw [Fits, hname]
    simp only [hr]
    exact fun hfits ↦ hne (hfits.trans hargs.symm)
  | none =>
    cases hc : m.classes.get? name with
    | some c =>
      refine does_construct hc rfl rfl hstack (fun r hinit other k n hne ↦ hraises ?_ other k n)
        fun hinit other k n hne ↦ hraises ?_ other k n
      · rw [Fits, hname]
        simp only [hr, hc, hinit]
        exact fun hfits ↦ hne (hfits.trans (hargs ▸ rfl))
      · rw [Fits, hname]
        simp only [hr, hc, hinit]
        exact fun hfits ↦ hne (hargs.trans hfits)
    | none => exact .fails _ _ (keeps_withStack m rest) trivial

theorem does_callMethod {name : String} {count : Nat} {receiver : Value} {args : List Value}
    (hi : i = .callMethod name count) (hstack : rest.length + i.pops = m.stack.length) :
    Does e m i ({ m with stack := rest }.callMethod receiver name args) := by
  subst hi
  have hraises (other : String) (k n : Nat) :
      m.Raises (.callMethod name count) (.arityMismatch other k n) := .inr ⟨name, count, rfl⟩
  have hunknown (cause : RuntimeError) (h : cause.IsValueError) :
      Does e m (.callMethod name count) (fail { m with stack := rest } cause) :=
    .fails _ _ (keeps_withStack m rest) (raises_of_valueError h)
  cases receiver with
  | list cell =>
    rw [callMethod]
    refine does_operate rfl ?_ (Heap.keepsInstances_callListMethod _ _ _ _) fun error h herror ↦ ?_
    · show rest.length + 1 + (count + 1) = m.stack.length + 1
      have : rest.length + (count + 1) = m.stack.length := hstack
      omega
    · rcases Heap.callListMethod_error herror with h | h
      · exact raises_of_valueError h
      · cases error with
        | arityMismatch other k n => exact hraises other k n
        | _ => exact h.elim
  | object cell =>
    unfold callMethod
    dsimp only
    split
    · next r hr =>
      obtain ⟨inst, hinst, hmethod⟩ := Option.bind_eq_some_iff.mp hr
      exact does_call (.method cell inst name hinst hmethod) rfl rfl hstack
        fun other k n _ ↦ hraises other k n
    · exact hunknown _ trivial
  | _ => exact hunknown _ trivial

end

/-! ### Instructions -/

/-- What an instruction does. -/
theorem execute_does (e : Executable) (m : Machine) (i : Instr) : Does e m i (m.execute e i) := by
  cases i with
  | loadConstant value => exact does_goOn (keeps_withStack m _) rfl rfl
  | loadVariable name =>
    simp only [execute]
    split
    · exact does_goOn (keeps_withStack m _) rfl rfl
    · exact .fails _ _ (keeps_withStack m m.stack) trivial
  | storeVariable name =>
    simp only [execute]
    split
    · next value rest hstack =>
      refine does_goOn (keeps_bind m rest name value) rfl ?_
      rw [hstack, stack_bind]
      rfl
    · next hstack => exact does_underflow (length_lt_one hstack)
  | arith op =>
    simp only [execute]
    split
    · next b a rest hstack =>
      refine does_operate rfl (by rw [hstack]; rfl) (Heap.keepsInstances_arith _ op a b)
        fun error h herror ↦ raises_of_valueError (Heap.arith_error herror)
    · next hstack => exact does_underflow (length_lt_two hstack)
  | compare op =>
    simp only [execute]
    split
    · next b a rest hstack =>
      refine does_give (keeps_withStack m rest) rfl (by rw [hstack]; rfl) fun error herror ↦ ?_
      cases hcompare : m.heap.compare op a b with
      | error cause =>
        rw [hcompare] at herror
        cases herror
        exact raises_of_valueError (Heap.compare_error hcompare)
      | ok value =>
        rw [hcompare] at herror
        cases herror
    · next hstack => exact does_underflow (length_lt_two hstack)
  | print =>
    simp only [execute]
    split
    · next value rest hstack =>
      exact does_goOn { keeps_withStack m rest with } rfl (by rw [hstack]; rfl)
    · next hstack => exact does_underflow (length_lt_one hstack)
  | jump target => exact does_jumpTo m.stack rfl rfl
  | jumpIfFalse target =>
    simp only [execute]
    split
    · next value rest hstack =>
      split
      · exact does_goOn (keeps_withStack m rest) rfl (by rw [hstack]; rfl)
      · exact does_jumpTo rest rfl (by rw [hstack]; rfl)
    · next hstack => exact does_underflow (length_lt_one hstack)
  | buildList count =>
    simp only [execute]
    split
    · next values rest hoperands =>
      obtain ⟨-, hlength⟩ := operands_eq_some hoperands
      refine does_operate rfl ?_ (Heap.keepsInstances_of_objects_eq rfl) fun error h herror ↦ ?_
      · show rest.length + 1 + count = m.stack.length + 1
        omega
      · cases herror
    · next hoperands =>
      exact .fails _ _ (keeps_withStack m m.stack) (operands_eq_none_iff.mp hoperands)
  | loadIndex =>
    simp only [execute]
    split
    · next index list rest hstack =>
      exact does_give (keeps_withStack m rest) rfl (by rw [hstack]; rfl)
        fun error herror ↦ raises_of_valueError (Heap.loadIndex_error herror)
    · next hstack => exact does_underflow (length_lt_two hstack)
  | storeIndex =>
    simp only [execute]
    split
    · next value index list rest hstack =>
      exact does_change rfl (by rw [hstack]; rfl)
        (Heap.keepsInstances_storeIndex _ list index value) fun error h herror ↦
          raises_of_valueError (Heap.storeIndex_error herror)
    · next hstack => exact does_underflow (length_lt_three hstack)
  | defineFunction name =>
    simp only [execute]
    split
    · next r hr =>
      refine does_goOn { keeps_withStack m m.stack with functions := fun n r' hr' ↦ ?_ } rfl rfl
      rw [Bindings.get?_set] at hr'
      split at hr'
      · next hn =>
        cases hr'
        exact .inr (hn ▸ hr)
      · exact .inl hr'
    · exact .fails _ _ (keeps_withStack m m.stack) trivial
  | callFunction name count =>
    simp only [execute]
    split
    · next b hb =>
      split
      · next hcount =>
        split
        · next args rest hoperands =>
          obtain ⟨hargs, hlength⟩ := operands_eq_some hoperands
          refine does_give (keeps_withStack m rest) rfl ?_ fun error herror ↦ ?_
          · show rest.length + 1 + count = m.stack.length + 1
            omega
          · exact raises_of_valueError (Heap.callBuiltin_error (hargs.trans hcount) herror)
        · next hoperands =>
          exact .fails _ _ (keeps_withStack m m.stack) (operands_eq_none_iff.mp hoperands)
      · next hcount =>
        refine .fails _ _ (keeps_withStack m m.stack) (.inl ⟨name, count, rfl, ?_⟩)
        rw [Fits, hb]
        exact hcount
    · next hname =>
      split
      · next args rest hoperands =>
        obtain ⟨hargs, hlength⟩ := operands_eq_some hoperands
        exact does_callNamed rfl hname hargs hlength
      · next hoperands =>
        exact .fails _ _ (keeps_withStack m m.stack) (operands_eq_none_iff.mp hoperands)
  | returnValue =>
    simp only [execute]
    split
    · next value rest hstack =>
      by_cases hcalls : m.calls = []
      · have hfail : { m with stack := rest }.returnValue value =
            fail { m with stack := rest } .returnOutsideFunction := by
          simp only [returnValue, hcalls]
        rw [hfail]
        exact .fails _ _ (keeps_withStack m rest) trivial
      · obtain ⟨call, calls, hcalls⟩ := List.exists_cons_of_ne_nil hcalls
        exact .returns value rest call calls rfl hstack hcalls
    · next hstack => exact does_underflow (length_lt_one hstack)
  | defineClass name =>
    simp only [execute]
    split
    · next c hc =>
      refine does_goOn { keeps_withStack m m.stack with classes := fun n c' hc' ↦ ?_ } rfl rfl
      rw [Bindings.get?_set] at hc'
      split at hc'
      · next hn =>
        cases hc'
        exact .inr (hn ▸ hc)
      · exact .inl hc'
    · exact .fails _ _ (keeps_withStack m m.stack) trivial
  | loadAttribute name =>
    simp only [execute]
    split
    · next object rest hstack =>
      exact does_give (keeps_withStack m rest) rfl (by rw [hstack]; rfl)
        fun error herror ↦ raises_of_valueError (Heap.getAttribute_error herror)
    · next hstack => exact does_underflow (length_lt_one hstack)
  | storeAttribute name =>
    simp only [execute]
    split
    · next value object rest hstack =>
      exact does_change rfl (by rw [hstack]; rfl)
        (Heap.keepsInstances_setAttribute _ object name value)
        fun error h herror ↦ raises_of_valueError (Heap.setAttribute_error herror)
    · next hstack => exact does_underflow (length_lt_two hstack)
  | callMethod name count =>
    simp only [execute]
    split
    · next args receiver rest hoperands =>
      obtain ⟨-, hlength⟩ := operands_eq_some hoperands
      refine does_callMethod rfl ?_
      rw [← hlength, List.length_cons]
      show rest.length + (count + 1) = rest.length + 1 + count
      omega
    · next hoperands =>
      obtain ⟨-, hlength⟩ := operands_eq_some hoperands
      refine does_underflow ?_
      show m.stack.length < count + 1
      rw [← hlength]
      simp
    · next hoperands =>
      have hlength := operands_eq_none_iff.mp hoperands
      exact .fails _ _ (keeps_withStack m m.stack) (Nat.lt_succ_of_lt hlength)
  | pop =>
    simp only [execute]
    split
    · next value rest hstack => exact does_goOn (keeps_withStack m rest) rfl (by rw [hstack]; rfl)
    · next hstack => exact does_underflow (length_lt_one hstack)

/-! ### Steps -/

/-- What a step does: it halts or returns at the end of a block, fails at the limit on steps, or
carries out an instruction. -/
inductive Steps (e : Executable) (m : Machine) : Outcome → Prop
  | halts (hplace : m.code.size ≤ m.place) (hcalls : m.calls = []) : Steps e m (.ok .halted, m)
  | ends (call : Call) (calls : List Call) (hplace : m.code.size ≤ m.place)
    (hcalls : m.calls = call :: calls) : Steps e m (m.returnValue .none)
  | stops (n : Nat) (hplace : m.place < m.code.size) :
    Steps e m (.error (.stepLimitExceeded n), m)
  | executes (i : Instr) (o : Outcome) (hi : m.code[m.place]? = some i)
    (hadmitted : m.limits.admitStep m.steps = .ok ()) (hdoes : Does e m.next i o) : Steps e m o

theorem step_steps (e : Executable) (m : Machine) : Steps e m (m.step e) := by
  cases hi : m.code[m.place]? with
  | none =>
    have hplace := Array.getElem?_eq_none_iff.mp hi
    simp only [step, hi]
    cases hcalls : m.calls with
    | nil => exact .halts hplace hcalls
    | cons call calls => exact .ends call calls hplace hcalls
  | some i =>
    cases hadmitted : m.limits.admitStep m.steps with
    | error error =>
      obtain ⟨n, rfl⟩ := Limits.admitStep_eq_error hadmitted
      obtain ⟨hplace, -⟩ := Array.getElem?_eq_some_iff.mp hi
      simp only [step, hi, hadmitted]
      exact .stops n hplace
    | ok _ =>
      rw [step_of_instr hi hadmitted]
      exact .executes i _ hi hadmitted (execute_does e m.next i)

end Offside.Machine
