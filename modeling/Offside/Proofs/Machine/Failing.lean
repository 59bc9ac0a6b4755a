import Offside.Proofs.Machine.Driven

/-!
What a failing step leaves of a machine. An instruction can fail behind its first operand or its
last, in a look-up, an operation on values, a jump or a call, and wherever it does, it has taken
operands from the stack and done nothing else (`execute_spares`). So a step that fails has moved the
place and the count of steps by one, and a step that is refused at the limit has not even done that
(`failing_step_spares`). The machine may be in any state, and the step may be of any executable.
-/

set_option autoImplicit false
set_option relaxedAutoImplicit false

namespace Offside

/-- The error at the limit on steps. -/
def RuntimeError.IsStepLimit : RuntimeError → Prop
  | .stepLimitExceeded _ => True
  | _ => False

theorem RuntimeError.IsValueError.not_isStepLimit {error : RuntimeError} (h : error.IsValueError) :
    ¬error.IsStepLimit := by
  cases error <;> first | exact id | exact h.elim

theorem RuntimeError.IsArityMismatch.not_isStepLimit {error : RuntimeError}
    (h : error.IsArityMismatch) : ¬error.IsStepLimit := by
  cases error <;> first | exact id | exact h.elim

namespace Machine

/-- An outcome that is no failure, or a failure that has only taken operands. -/
inductive Spares (m : Machine) : Outcome → Prop
  | succeeds (status : Status) (m' : Machine) : Spares m (.ok status, m')
  | fails (error : RuntimeError) (rest : List Value) (hrest : rest <:+ m.stack)
    (herror : ¬error.IsStepLimit) : Spares m (.error error, { m with stack := rest })

/-! ### The parts of instructions -/

section

variable {m : Machine} {rest : List Value}

theorem spares_underflow (m : Machine) : m.Spares m.underflow :=
  .fails _ [] List.nil_suffix id

theorem spares_give {r : Except RuntimeError Value} (hrest : rest <:+ m.stack)
    (herror : ∀ error, r = .error error → ¬error.IsStepLimit) :
    m.Spares ({ m with stack := rest }.give r) := by
  cases r with
  | ok value => exact .succeeds _ _
  | error error => exact .fails error rest hrest (herror error rfl)

/-- An operation that leaves the heap alone where it fails leaves the machine alone. -/
theorem onHeap_fails {α : Type} {m' : Machine} {operation : Heap → Heap.Effect α}
    {error : RuntimeError}
    (herror : ∀ error h, operation m.heap = (.error error, h) → h = m.heap ∧ ¬error.IsStepLimit)
    (h : ({ m with stack := rest } : Machine).onHeap operation = (.error error, m')) :
    m' = { m with stack := rest } ∧ ¬error.IsStepLimit := by
  cases hop : operation m.heap with
  | mk r heap =>
    simp only [onHeap, hop, Prod.mk.injEq] at h
    obtain ⟨rfl, rfl⟩ := h
    obtain ⟨rfl, hlimit⟩ := herror error heap hop
    exact ⟨rfl, hlimit⟩

theorem spares_operate {operation : Heap → Heap.Effect Value} (hrest : rest <:+ m.stack)
    (herror : ∀ error h, operation m.heap = (.error error, h) →
      h = m.heap ∧ ¬error.IsStepLimit) :
    m.Spares ({ m with stack := rest }.operate operation) := by
  rw [operate]
  cases hop : ({ m with stack := rest } : Machine).onHeap operation with
  | mk r m' =>
    cases r with
    | ok value => exact .succeeds _ _
    | error error =>
      obtain ⟨rfl, hlimit⟩ := onHeap_fails herror hop
      exact .fails error rest hrest hlimit

theorem spares_change {operation : Heap → Heap.Effect Unit} (hrest : rest <:+ m.stack)
    (herror : ∀ error h, operation m.heap = (.error error, h) →
      h = m.heap ∧ ¬error.IsStepLimit) :
    m.Spares ({ m with stack := rest }.change operation) := by
  rw [change]
  cases hop : ({ m with stack := rest } : Machine).onHeap operation with
  | mk r m' =>
    cases r with
    | ok u => exact .succeeds _ _
    | error error =>
      obtain ⟨rfl, hlimit⟩ := onHeap_fails herror hop
      exact .fails error rest hrest hlimit

theorem spares_jumpTo (hrest : rest <:+ m.stack) (target : Nat) :
    m.Spares ({ m with stack := rest }.jumpTo target) := by
  unfold jumpTo
  split
  · exact .succeeds _ _
  · exact .fails _ rest hrest id

/-- An entry is refused before anything of the call has been done. -/
theorem not_isStepLimit_of_admitEntry {l : Limits} {name : String} {params : List String}
    {arguments opened : Nat} {error : RuntimeError}
    (h : l.admitEntry name params arguments opened = .error error) : ¬error.IsStepLimit := by
  obtain ⟨-, rfl⟩ | ⟨-, limit, rfl⟩ := Limits.admitEntry_eq_error h
  · exact id
  · exact id

theorem spares_call (hrest : rest <:+ m.stack) (r : Routine Code) (args : List Value) :
    m.Spares ({ m with stack := rest }.call r args) := by
  unfold call
  split
  · next error h => exact .fails error rest hrest (not_isStepLimit_of_admitEntry h)
  · exact .succeeds _ _

theorem spares_construct (hrest : rest <:+ m.stack) (c : ClassCode) (args : List Value) :
    m.Spares ({ m with stack := rest }.construct c args) := by
  unfold construct
  split
  · split
    · next error h => exact .fails error rest hrest (not_isStepLimit_of_admitEntry h)
    · exact .succeeds _ _
  · split
    · exact .succeeds _ _
    · exact .fails _ rest hrest id

theorem spares_callNamed (hrest : rest <:+ m.stack) (name : String) (args : List Value) :
    m.Spares ({ m with stack := rest }.callNamed name args) := by
  unfold callNamed
  split
  · exact spares_call hrest _ args
  · split
    · exact spares_construct hrest _ args
    · exact .fails _ rest hrest id

theorem spares_callMethod (hrest : rest <:+ m.stack) (receiver : Value) (name : String)
    (args : List Value) : m.Spares ({ m with stack := rest }.callMethod receiver name args) := by
  unfold callMethod
  split
  · refine spares_operate hrest fun error h herror ↦ ⟨Heap.callListMethod_unchanged herror, ?_⟩
    rcases Heap.callListMethod_error herror with hvalue | harity
    · exact hvalue.not_isStepLimit
    · exact harity.not_isStepLimit
  · split
    · exact spares_call hrest _ _
    · exact .fails _ rest hrest id
  · exact .fails _ rest hrest id

theorem spares_returnValue (hrest : rest <:+ m.stack) (value : Value) :
    m.Spares ({ m with stack := rest }.returnValue value) := by
  unfold returnValue
  split
  · exact .fails _ rest hrest id
  · exact .succeeds _ _

/-- What is left behind some operands. -/
theorem suffix_of_operands {count : Nat} {values : List Value}
    (h : m.operands count = some (values, rest)) : rest <:+ m.stack := by
  simp only [operands] at h
  split at h <;> cases h
  exact List.drop_suffix count m.stack

end

/-! ### Instructions -/

/-- An instruction that fails has only taken operands. -/
theorem execute_spares (e : Executable) (m : Machine) (i : Instr) : m.Spares (m.execute e i) := by
  cases i with
  | loadConstant value => exact .succeeds _ _
  | loadVariable name =>
    simp only [execute]
    split
    · exact .succeeds _ _
    · exact .fails _ m.stack List.suffix_rfl id
  | storeVariable name =>
    simp only [execute]
    split
    · exact .succeeds _ _
    · exact spares_underflow m
  | arith op =>
    simp only [execute]
    split
    · next b a rest hstack =>
      refine spares_operate (hstack ▸ List.suffix_append [b, a] rest) fun error h herror ↦ ?_
      exact ⟨Heap.arith_unchanged herror, (Heap.arith_error herror).not_isStepLimit⟩
    · exact spares_underflow m
  | compare op =>
    simp only [execute]
    split
    · next b a rest hstack =>
      refine spares_give (hstack ▸ List.suffix_append [b, a] rest) fun error herror ↦ ?_
      cases hcompare : m.heap.compare op a b with
      | ok truth =>
        rw [hcompare] at herror
        cases herror
      | error cause =>
        rw [hcompare] at herror
        cases herror
        exact (Heap.compare_error hcompare).not_isStepLimit
    · exact spares_underflow m
  | print =>
    simp only [execute]
    split
    · exact .succeeds _ _
    · exact spares_underflow m
  | jump target => exact spares_jumpTo List.suffix_rfl target
  | jumpIfFalse target =>
    simp only [execute]
    split
    · next value rest hstack =>
      split
      · exact .succeeds _ _
      · exact spares_jumpTo (hstack ▸ List.suffix_cons value rest) target
    · exact spares_underflow m
  | buildList count =>
    simp only [execute]
    split
    · next values rest hoperands =>
      refine spares_operate (suffix_of_operands hoperands) fun error h herror ↦ ?_
      cases herror
    · exact .fails _ m.stack List.suffix_rfl id
  | loadIndex =>
    simp only [execute]
    split
    · next index list rest hstack =>
      exact spares_give (hstack ▸ List.suffix_append [index, list] rest) fun error herror ↦
        (Heap.loadIndex_error herror).not_isStepLimit
    · exact spares_underflow m
  | storeIndex =>
    simp only [execute]
    split
    · next value index list rest hstack =>
      refine spares_change (hstack ▸ List.suffix_append [value, index, list] rest)
        fun error h herror ↦ ?_
      exact ⟨Heap.storeIndex_unchanged herror, (Heap.storeIndex_error herror).not_isStepLimit⟩
    · exact spares_underflow m
  | defineFunction name =>
    simp only [execute]
    split
    · exact .succeeds _ _
    · exact .fails _ m.stack List.suffix_rfl id
  | callFunction name count =>
    simp only [execute]
    split
    · next b hb =>
      split
      · next hcount =>
        split
        · next args rest hoperands =>
          obtain ⟨hargs, -⟩ := operands_eq_some hoperands
          exact spares_give (suffix_of_operands hoperands) fun error herror ↦
            (Heap.callBuiltin_error (hargs.trans hcount) herror).not_isStepLimit
        · exact .fails _ m.stack List.suffix_rfl id
      · exact .fails _ m.stack List.suffix_rfl id
    · split
      · next args rest hoperands => exact spares_callNamed (suffix_of_operands hoperands) name args
      · exact .fails _ m.stack List.suffix_rfl id
  | returnValue =>
    simp only [execute]
    split
    · next value rest hstack =>
      exact spares_returnValue (hstack ▸ List.suffix_cons value rest) value
    · exact spares_underflow m
  | defineClass name =>
    simp only [execute]
    split
    · exact .succeeds _ _
    · exact .fails _ m.stack List.suffix_rfl id
  | loadAttribute name =>
    simp only [execute]
    split
    · next object rest hstack =>
      exact spares_give (hstack ▸ List.suffix_cons object rest) fun error herror ↦
        (Heap.getAttribute_error herror).not_isStepLimit
    · exact spares_underflow m
  | storeAttribute name =>
    simp only [execute]
    split
    · next value object rest hstack =>
      refine spares_change (hstack ▸ List.suffix_append [value, object] rest)
        fun error h herror ↦ ?_
      exact ⟨Heap.setAttribute_unchanged herror, (Heap.setAttribute_error herror).not_isStepLimit⟩
    · exact spares_underflow m
  | callMethod name count =>
    simp only [execute]
    split
    · next args receiver rest hoperands =>
      have hrest := (List.suffix_cons receiver rest).trans (suffix_of_operands hoperands)
      exact spares_callMethod hrest receiver name args
    · exact spares_underflow m
    · exact .fails _ m.stack List.suffix_rfl id
  | pop =>
    simp only [execute]
    split
    · exact .succeeds _ _
    · exact spares_underflow m

/-! ### Steps -/

/-- What a step leaves of a machine when it fails in an instruction. The frames are there with their
variables, their return addresses and what they construct; so are the definitions, the heap with
every list and instance in it, the block and the printed lines. Of the stack, operands are gone from
the top, and one step has been counted and passed. -/
structure OnlyTakes (m m' : Machine) : Prop where
  limits : m'.limits = m.limits
  frames : m'.frames = m.frames
  functions : m'.functions = m.functions
  classes : m'.classes = m.classes
  heap : m'.heap = m.heap
  code : m'.code = m.code
  output : m'.output = m.output
  stack : m'.stack <:+ m.stack
  steps : m'.steps = m.steps + 1
  place : m'.place = m.place + 1

/-- Whatever was done to a machine before, and whatever executable it is stepped with: a step that
is refused at the limit on steps has changed nothing, and one that fails in any other way has only
taken operands. -/
theorem failing_step_spares {e : Executable} {m m' : Machine} {error : RuntimeError}
    (h : m.step e = (.error error, m')) :
    (∃ limit, error = .stepLimitExceeded limit) ∧ m' = m ∨
      (∀ limit, error ≠ .stepLimitExceeded limit) ∧ OnlyTakes m m' := by
  cases hi : m.code[m.place]? with
  | none =>
    -- At the end of a block there is nothing to fail: the main block halts, and a call returns.
    simp only [step, hi, returnValue] at h
    cases hcalls : m.calls <;> simp only [hcalls] at h <;> cases h
  | some i =>
    cases hadmitted : m.limits.admitStep m.steps with
    | error refusal =>
      simp only [step, hi, hadmitted] at h
      cases h
      exact .inl ⟨Limits.admitStep_eq_error hadmitted, rfl⟩
    | ok _ =>
      rw [step_of_instr hi hadmitted] at h
      have hspares := execute_spares e m.next i
      rw [h] at hspares
      cases hspares with
      | fails _ rest hrest herror =>
        refine .inr ⟨?_, rfl, rfl, rfl, rfl, rfl, rfl, rfl, hrest, rfl, rfl⟩
        rintro limit rfl
        exact herror trivial

/-- In a call that has already failed once, an element is stored behind the end of a list: the three
operands are gone, and the value below them is still there. -/
theorem failing_step_spares_store :
    let body : Code := #[.loadConstant (.boolean true), .buildList 0,
      .loadConstant (.number (.int 3)), .jump 99, .loadConstant .none, .storeIndex]
    let e : Executable :=
      ⟨#[.defineFunction "f", .callFunction "f" 0], .ofList [("f", ⟨"f", [], body⟩)], .empty⟩
    ∃ m m', drive 9 [.run e, .step e] (start ⟨some 9, some 1⟩ #[]) = some m ∧
      m.step e = (.error (.indexOutOfRange 3 0), m') ∧ m.frames.length = 2 ∧ m.stack.length = 4 ∧
      m'.stack = [.boolean true] ∧ OnlyTakes m m' := by
  intro body e
  let m : Machine :=
    { start ⟨some 9, some 1⟩ body with
      stack := [.none, .number (.int 3), .list 0, .boolean true],
      calls := [⟨.ofList [], e.main, 2, none⟩], depth := 1,
      functions := Bindings.empty.set "f" ⟨"f", [], body⟩, heap := ⟨#[#[]], #[]⟩, place := 5,
      steps := 7 }
  let m' : Machine := { m with stack := [.boolean true], place := 6, steps := 8 }
  have hstep : m.step e = (.error (.indexOutOfRange 3 0), m') := rfl
  refine ⟨m, m', rfl, hstep, rfl, rfl, rfl, ?_⟩
  exact ((failing_step_spares hstep).resolve_left fun ⟨⟨_, h⟩, _⟩ ↦ nomatch h).2

end Machine

end Offside
