import Offside.Proofs.Realization.Realizes

/-!
The instructions of the machine, each with the part of a metered walk that it realizes: a charge for
the instruction, and what it does. Lowering decides which instructions stand for a construct; what
an instruction does is the same under every lowering.
-/

set_option autoImplicit false
set_option relaxedAutoImplicit false

namespace Offside

open Machine (Follows Binds goOn)
open Tariff (charge)

theorem realizes_reached {e : Executable} {s : WalkState} {m m₁ : Machine}
    (hstep : m.step e = goOn m₁) {Q : Unit → WalkState → Machine → Prop}
    (hQ : Q () { s with steps := s.steps + 1 } m₁) :
    Realizes e m (charge 1) s Q :=
  ⟨m₁, .single (.running hstep), hQ⟩

/-- An instruction on the way takes the way one place further. -/
theorem Realizes.behind {α : Type} {e : Executable} {limits : Limits} {s : WalkState}
    {m₀ m : Machine} {place : Nat} {stack : List Value} {x : Walk α} {after : α → List Value}
    (hfollows : Follows m₀ m place stack)
    (h : Realizes e m x s fun v s' m' ↦
      Matches e limits s' m' ∧ Follows m m' (m.place + 1) (after v)) :
    Realizes e m x s fun v s' m' ↦
      Matches e limits s' m' ∧ Follows m₀ m' (place + 1) (after v) := by
  refine h.post ?_
  rintro v s' m' ⟨hmatch, hnext⟩
  rw [hfollows.place] at hnext
  exact ⟨hmatch, hfollows.trans hnext⟩

section

variable {e : Executable} {limits : Limits} {s : WalkState} {m : Machine}
  (hlimits : limits.steps = none) (hmatch : Matches e limits s m)

include hlimits hmatch

theorem Matches.step {i : Instr} (hi : m.code[m.place]? = some i) :
    m.step e = m.next.execute e i :=
  Machine.step_eq_execute hi (by rw [hmatch.limits, hlimits])

/-! ### Operations on the heap -/

omit hlimits in
/-- An operation on the heap that gives a value. -/
theorem realizes_operate {operation : Heap → Heap.Effect Value} {rest : List Value}
    (hstep : m.step e = (m.next.withStack rest).operate operation)
    (hoperation : Heap.Forgetful operation)
    (hkeeps : ∀ heap, Heap.KeepsInstances heap (operation heap).2) :
    Realizes e m (do charge 1; Walk.onHeap operation) s fun v s' m' ↦
      Matches e limits s' m' ∧ Follows m m' (m.place + 1) (v :: rest) := by
  have hmoved := (hmatch.next.withStack rest).onHeap hoperation hkeeps
  have hresult := (hmatch.next.withStack rest).result_onHeap hoperation
  have hgive : (m.next.withStack rest).operate operation =
      Machine.give { m.next.withStack rest with heap := (operation m.heap).2 }
        (operation m.heap).1 := rfl
  rw [hgive] at hstep
  refine realizes_charge (Walk.ensures_onHeap (fun v heap hv ↦ ?_) fun err heap herr ↦ ?_)
  · rw [hv] at hmoved hresult
    rw [← show Except.ok v = (operation m.heap).1 from hresult] at hstep
    exact ⟨_, .single (.running hstep), hmoved.push v, ⟨rfl, rfl, rfl, rfl, rfl⟩⟩
  · rw [herr] at hmoved hresult
    rw [← show Except.error err = (operation m.heap).1 from hresult] at hstep
    exact interrupted_of_step hstep hmoved.output hmoved.steps

omit hlimits in
/-- An operation on the heap that gives nothing. -/
theorem realizes_change {operation : Heap → Heap.Effect Unit} {rest : List Value}
    (hstep : m.step e = (m.next.withStack rest).change operation)
    (hoperation : Heap.Forgetful operation)
    (hkeeps : ∀ heap, Heap.KeepsInstances heap (operation heap).2) :
    Realizes e m (do charge 1; Walk.onHeap operation) s fun _ s' m' ↦
      Matches e limits s' m' ∧ Follows m m' (m.place + 1) rest := by
  have hmoved := (hmatch.next.withStack rest).onHeap hoperation hkeeps
  have hresult := (hmatch.next.withStack rest).result_onHeap hoperation
  have hchange : (m.next.withStack rest).change operation =
      match (operation m.heap).1 with
      | .ok () => goOn { m.next.withStack rest with heap := (operation m.heap).2 }
      | .error err =>
        Machine.fail { m.next.withStack rest with heap := (operation m.heap).2 } err := by
    simp only [Machine.change, Machine.onHeap, Machine.withStack, Machine.next]
    cases operation m.heap with
    | mk r heap => cases r <;> rfl
  rw [hchange] at hstep
  refine realizes_charge (Walk.ensures_onHeap (fun v heap hv ↦ ?_) fun err heap herr ↦ ?_)
  · rw [hv] at hmoved hresult
    rw [← show Except.ok v = (operation m.heap).1 from hresult] at hstep
    exact ⟨_, .single (.running hstep), hmoved, ⟨rfl, rfl, rfl, rfl, rfl⟩⟩
  · rw [herr] at hmoved hresult
    rw [← show Except.error err = (operation m.heap).1 from hresult] at hstep
    exact interrupted_of_step hstep hmoved.output hmoved.steps

omit hlimits in
/-- A look at the heap. -/
theorem realizes_give {reading : Heap → Except RuntimeError Value} {rest : List Value}
    (hstep : m.step e = (m.next.withStack rest).give (reading m.heap))
    (hreading : reading m.heap.forget = reading m.heap) :
    Realizes e m (do charge 1; Walk.observe reading) s fun v s' m' ↦
      Matches e limits s' m' ∧ Follows m m' (m.place + 1) (v :: rest) := by
  have hmoved := hmatch.next.withStack rest
  rw [← hreading, ← hmatch.heap] at hstep
  refine realizes_charge (Walk.ensures_observe (fun v hv ↦ ?_) fun err herr ↦ ?_)
  · rw [show reading s.heap = .ok v from hv] at hstep
    exact ⟨_, .single (.running hstep), hmoved.push v, ⟨rfl, rfl, rfl, rfl, rfl⟩⟩
  · rw [show reading s.heap = .error err from herr] at hstep
    exact interrupted_of_step hstep hmoved.output hmoved.steps

theorem realizes_arith {op : ArithOp} {a b : Value} {rest : List Value}
    (hi : m.code[m.place]? = some (.arith op)) (hstack : m.stack = b :: a :: rest) :
    Realizes e m (do charge 1; Walk.onHeap fun h ↦ h.arith op a b) s fun v s' m' ↦
      Matches e limits s' m' ∧ Follows m m' (m.place + 1) (v :: rest) := by
  refine realizes_operate hmatch ?_ (Heap.forgetful_arith op a b) fun h ↦
    h.keepsInstances_arith op a b
  rw [hmatch.step hlimits hi, Machine.execute, show m.next.stack = b :: a :: rest from hstack]
  rfl

theorem realizes_compare {op : CompareOp} {a b : Value} {rest : List Value}
    (hi : m.code[m.place]? = some (.compare op)) (hstack : m.stack = b :: a :: rest) :
    Realizes e m (do charge 1; Walk.observe fun h ↦ (h.compare op a b).map .boolean) s
      fun v s' m' ↦ Matches e limits s' m' ∧ Follows m m' (m.place + 1) (v :: rest) := by
  refine realizes_give hmatch ?_ (by simp only [Heap.compare_forget])
  rw [hmatch.step hlimits hi, Machine.execute, show m.next.stack = b :: a :: rest from hstack]
  rfl

theorem realizes_loadIndex {list index : Value} {rest : List Value}
    (hi : m.code[m.place]? = some .loadIndex) (hstack : m.stack = index :: list :: rest) :
    Realizes e m (do charge 1; Walk.observe fun h ↦ h.loadIndex list index) s fun v s' m' ↦
      Matches e limits s' m' ∧ Follows m m' (m.place + 1) (v :: rest) := by
  refine realizes_give hmatch ?_ (Heap.loadIndex_forget _ _ _)
  rw [hmatch.step hlimits hi, Machine.execute,
    show m.next.stack = index :: list :: rest from hstack]
  rfl

theorem realizes_loadAttribute {name : String} {object : Value} {rest : List Value}
    (hi : m.code[m.place]? = some (.loadAttribute name)) (hstack : m.stack = object :: rest) :
    Realizes e m (do charge 1; Walk.observe fun h ↦ h.getAttribute object name) s fun v s' m' ↦
      Matches e limits s' m' ∧ Follows m m' (m.place + 1) (v :: rest) := by
  refine realizes_give hmatch ?_ (Heap.getAttribute_forget _ _ _)
  rw [hmatch.step hlimits hi, Machine.execute, show m.next.stack = object :: rest from hstack]
  rfl

theorem realizes_storeIndex {list index value : Value} {rest : List Value}
    (hi : m.code[m.place]? = some .storeIndex)
    (hstack : m.stack = value :: index :: list :: rest) :
    Realizes e m (do charge 1; Walk.onHeap fun h ↦ h.storeIndex list index value) s
      fun _ s' m' ↦ Matches e limits s' m' ∧ Follows m m' (m.place + 1) rest := by
  refine realizes_change hmatch ?_ (Heap.forgetful_storeIndex list index value) fun h ↦
    h.keepsInstances_storeIndex list index value
  rw [hmatch.step hlimits hi, Machine.execute,
    show m.next.stack = value :: index :: list :: rest from hstack]
  rfl

theorem realizes_storeAttribute {name : String} {object value : Value} {rest : List Value}
    (hi : m.code[m.place]? = some (.storeAttribute name))
    (hstack : m.stack = value :: object :: rest) :
    Realizes e m (do charge 1; Walk.onHeap fun h ↦ h.setAttribute object name value) s
      fun _ s' m' ↦ Matches e limits s' m' ∧ Follows m m' (m.place + 1) rest := by
  refine realizes_change hmatch ?_ (Heap.forgetful_setAttribute object name value) fun h ↦
    h.keepsInstances_setAttribute object name value
  rw [hmatch.step hlimits hi, Machine.execute,
    show m.next.stack = value :: object :: rest from hstack]
  rfl

theorem realizes_buildList {values rest : List Value}
    (hi : m.code[m.place]? = some (.buildList values.length))
    (hstack : m.stack = values.reverse ++ rest) :
    Realizes e m (do charge 1; Walk.allocate fun h ↦ h.newList values.toArray) s fun v s' m' ↦
      Matches e limits s' m' ∧ Follows m m' (m.place + 1) (v :: rest) := by
  refine realizes_operate hmatch ?_ (Heap.forgetful_newList values.toArray) fun h ↦
    Heap.keepsInstances_of_objects_eq rfl
  rw [hmatch.step hlimits hi, Machine.execute,
    Machine.operands_append (show m.next.stack = values.reverse ++ rest from hstack)]
  rfl

/-! ### Constants, variables and the stack -/

theorem realizes_loadConstant {c : Constant} {stack : List Value}
    (hi : m.code[m.place]? = some (.loadConstant c)) (hstack : m.stack = stack) :
    Realizes e m (charge 1) s fun _ s' m' ↦
      Matches e limits s' m' ∧ Follows m m' (m.place + 1) (.ofConstant c :: stack) := by
  refine realizes_reached (hmatch.step hlimits hi) ?_
  exact ⟨hmatch.next.push _, ⟨rfl, rfl, congrArg _ hstack, rfl, rfl⟩⟩

/-- Reading a variable whose value is known. -/
theorem realizes_loadVariable {name : String} {v : Value} {stack : List Value}
    (hi : m.code[m.place]? = some (.loadVariable name)) (hv : m.lookup name = some v)
    (hstack : m.stack = stack) :
    Realizes e m (charge 1) s fun _ s' m' ↦
      Matches e limits s' m' ∧ Follows m m' (m.place + 1) (v :: stack) := by
  have hstep : m.step e = goOn (m.next.push v) := by
    rw [hmatch.step hlimits hi, Machine.execute, show m.next.lookup name = some v from hv]
  exact realizes_reached hstep ⟨hmatch.next.push v, ⟨rfl, rfl, congrArg _ hstack, rfl, rfl⟩⟩

/-- Reading a variable of the program. -/
theorem realizes_load {name : String} {stack : List Value} (hname : Plain name)
    (hi : m.code[m.place]? = some (.loadVariable name)) (hstack : m.stack = stack) :
    Realizes e m (do charge 1; Walk.load name) s fun v s' m' ↦
      Matches e limits s' m' ∧ Follows m m' (m.place + 1) (v :: stack) := by
  refine realizes_charge (Walk.ensures_load (fun v hv ↦ ?_) fun _ ↦ interrupted_undefinedVariable)
  have hlookup : m.lookup name = some v := (hmatch.lookup hname).trans hv
  exact realizes_loadVariable hlimits hmatch hi hlookup hstack

theorem realizes_pop {v : Value} {rest : List Value} (hi : m.code[m.place]? = some .pop)
    (hstack : m.stack = v :: rest) :
    Realizes e m (charge 1) s fun _ s' m' ↦
      Matches e limits s' m' ∧ Follows m m' (m.place + 1) rest := by
  have hstep : m.step e = goOn (m.next.withStack rest) := by
    rw [hmatch.step hlimits hi, Machine.execute, show m.next.stack = v :: rest from hstack]
    rfl
  exact realizes_reached hstep ⟨hmatch.next.withStack rest, ⟨rfl, rfl, rfl, rfl, rfl⟩⟩

theorem step_storeVariable {name : String} {v : Value} {rest : List Value}
    (hi : m.code[m.place]? = some (.storeVariable name)) (hstack : m.stack = v :: rest) :
    m.step e = goOn ((m.next.withStack rest).bind name v) := by
  rw [hmatch.step hlimits hi, Machine.execute, show m.next.stack = v :: rest from hstack]
  rfl

/-- Writing a variable of the program. -/
theorem realizes_store {name : String} {v : Value} {rest : List Value}
    (hi : m.code[m.place]? = some (.storeVariable name)) (hstack : m.stack = v :: rest) :
    Realizes e m (do charge 1; Walk.store name v) s fun _ s' m' ↦
      Matches e limits s' m' ∧ Binds m m' name v rest := by
  have hstep := step_storeVariable hlimits hmatch hi hstack
  exact ⟨_, .single (.running hstep), (hmatch.next.withStack rest).bind name v,
    Machine.binds_bind m name v rest⟩

/-- Writing a hidden variable. -/
theorem realizes_storeHidden {name : String} {v : Value} {rest : List Value}
    (hname : ¬Plain name) (hi : m.code[m.place]? = some (.storeVariable name))
    (hstack : m.stack = v :: rest) :
    Realizes e m (charge 1) s fun _ s' m' ↦
      Matches e limits s' m' ∧ Binds m m' name v rest := by
  have hstep := step_storeVariable hlimits hmatch hi hstack
  exact realizes_reached hstep ⟨(hmatch.next.withStack rest).bind_hidden hname v,
    Machine.binds_bind m name v rest⟩

theorem realizes_print {v : Value} {rest : List Value} (hi : m.code[m.place]? = some .print)
    (hstack : m.stack = v :: rest) :
    Realizes e m (do
        charge 1
        modify fun s ↦ { s with output := s.output.push (s.heap.text v) }) s fun _ s' m' ↦
      Matches e limits s' m' ∧ Follows m m' (m.place + 1) rest := by
  have hstep : m.step e =
      goOn { m.next with stack := rest, output := m.output.push (m.heap.text v) } := by
    rw [hmatch.step hlimits hi, Machine.execute, show m.next.stack = v :: rest from hstack]
    rfl
  have htext : s.heap.text v = m.heap.text v := by rw [hmatch.heap, Heap.text_forget]
  refine ⟨_, .single (.running hstep), ?_, ⟨rfl, rfl, rfl, rfl, rfl⟩⟩
  refine { hmatch.next with output := ?_ }
  show m.output.push (m.heap.text v) = s.output.push (s.heap.text v)
  rw [htext, hmatch.output]

/-! ### Jumps -/

theorem realizes_jump {target : Nat} (hi : m.code[m.place]? = some (.jump target))
    (htarget : target ≤ m.code.size) :
    Realizes e m (charge 1) s fun _ s' m' ↦
      Matches e limits s' m' ∧ Follows m m' target m.stack := by
  have hstep : m.step e = goOn { m.next with place := target } := by
    rw [hmatch.step hlimits hi, Machine.execute, Machine.jumpTo,
      if_pos (show target ≤ m.next.code.size from htarget)]
  exact realizes_reached hstep ⟨hmatch.next.atPlace target, ⟨rfl, rfl, rfl, rfl, rfl⟩⟩

/-- A conditional jump goes on behind it where the value is true. -/
theorem realizes_jumpIfFalse {target : Nat} {v : Value} {rest : List Value}
    (hi : m.code[m.place]? = some (.jumpIfFalse target)) (hstack : m.stack = v :: rest)
    (htarget : target ≤ m.code.size) :
    Realizes e m (do charge 1; return (← get).heap.isTruthy v) s fun b s' m' ↦
      Matches e limits s' m' ∧ Follows m m' (if b then m.place + 1 else target) rest := by
  have htruth : s.heap.isTruthy v = m.heap.isTruthy v := by rw [hmatch.heap, Heap.isTruthy_forget]
  have hstep : m.step e =
      if m.heap.isTruthy v then goOn (m.next.withStack rest)
      else (m.next.withStack rest).jumpTo target := by
    rw [hmatch.step hlimits hi, Machine.execute, show m.next.stack = v :: rest from hstack]
    rfl
  refine realizes_charge (realizes_get_bind ?_)
  rw [show WalkState.heap { s with steps := s.steps + 1 } = s.heap from rfl, htruth]
  cases hv : m.heap.isTruthy v with
  | true =>
    rw [hv, if_pos rfl] at hstep
    exact ⟨_, .single (.running hstep), hmatch.next.withStack rest, ⟨rfl, rfl, rfl, rfl, rfl⟩⟩
  | false =>
    have hjump : (m.next.withStack rest).jumpTo target =
        goOn { m.next.withStack rest with place := target } := by
      rw [Machine.jumpTo, if_pos (show target ≤ (m.next.withStack rest).code.size from htarget)]
    rw [hv, if_neg (by decide), hjump] at hstep
    exact ⟨_, .single (.running hstep), (hmatch.next.withStack rest).atPlace target,
      ⟨rfl, rfl, rfl, rfl, rfl⟩⟩

/-! ### Definitions -/

theorem realizes_defineFunction {r : Routine Block} {rc : Routine Code}
    (hi : m.code[m.place]? = some (.defineFunction r.name))
    (hr : e.functions.get? r.name = some rc) (hcompiled : CompiledFrom r rc) :
    Realizes e m (do
        charge 1
        modify fun s ↦ { s with functions := s.functions.set r.name r }) s fun _ s' m' ↦
      Matches e limits s' m' ∧ Follows m m' (m.place + 1) m.stack := by
  have hstep : m.step e = goOn { m.next with functions := m.functions.set r.name rc } := by
    rw [hmatch.step hlimits hi, Machine.execute, hr]
    rfl
  refine ⟨_, .single (.running hstep), ?_, ⟨rfl, rfl, rfl, rfl, rfl⟩⟩
  refine { hmatch.next with functions := fun n ↦ ?_ }
  rw [Bindings.get?_set, Bindings.get?_set]
  split
  · exact .some hcompiled
  · exact hmatch.functions n

theorem realizes_defineClass {c : Class Block} {cc : ClassCode}
    (hi : m.code[m.place]? = some (.defineClass c.name))
    (hc : e.classes.get? c.name = some cc) (hcompiled : ClassCompiledFrom c cc) :
    Realizes e m (do
        charge 1
        modify fun s ↦ { s with classes := s.classes.set c.name c }) s fun _ s' m' ↦
      Matches e limits s' m' ∧ Follows m m' (m.place + 1) m.stack := by
  have hstep : m.step e = goOn { m.next with classes := m.classes.set c.name cc } := by
    rw [hmatch.step hlimits hi, Machine.execute, hc]
    rfl
  refine ⟨_, .single (.running hstep), ?_, ⟨rfl, rfl, rfl, rfl, rfl⟩⟩
  refine { hmatch.next with
    classes := fun n ↦ ?_, known := fun n cc' hcc ↦ ?_, instances := fun cell i hi ↦ ?_ }
  · rw [Bindings.get?_set, Bindings.get?_set]
    split
    · next hn => exact .some ⟨hn, hcompiled⟩
    · exact hmatch.classes n
  · rw [Bindings.get?_set] at hcc
    split at hcc
    · next hn =>
      cases hcc
      rw [← hn, hc]
    · exact hmatch.known n cc' hcc
  · obtain ⟨cc', hcc, hmethods⟩ := hmatch.instances cell i hi
    refine ⟨cc', ?_, hmethods⟩
    rw [Bindings.get?_set]
    split
    · next hn => rw [← hc, hn, hmatch.known _ _ hcc]
    · exact hcc

end

end Offside
