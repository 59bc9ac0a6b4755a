import Offside.Machine

/-!
What instructions do not look at: the number of steps taken, the lines printed so far, and but for
one case the limits. Whatever is put in place of them, an instruction does the same, unless it opens
a call as soon as the limit on depth admits that (`execute_unrecorded`).
-/

set_option autoImplicit false
set_option relaxedAutoImplicit false

namespace Offside.Machine

/-- The machine under other limits, with another number of steps taken and behind lines that have
been printed before. -/
def onRecord (m : Machine) (l : Limits) (taken : Nat) (lines : Array String) : Machine :=
  { m with limits := l, steps := taken, output := lines ++ m.output }

/-- An outcome on another record. -/
def Outcome.onRecord (o : Outcome) (l : Limits) (taken : Nat) (lines : Array String) : Outcome :=
  (o.1, o.2.onRecord l taken lines)

/-- A part of an instruction does the same on every record. -/
def Steady (m : Machine) (run : Machine → Outcome) : Prop :=
  ∀ l taken lines, run (m.onRecord l taken lines) = (run m).onRecord l taken lines

/-- A part of an instruction opens a call if the limit on depth admits it, and fails if not, whatever
else is on record. -/
structure Opens (m : Machine) (run : Machine → Outcome) (refused opened : Machine) : Prop where
  silent : refused.output = m.output
  admitted : ∀ {l : Limits}, l.admitCall m.depth = .ok () → ∀ taken lines,
    run (m.onRecord l taken lines) = (goOn opened).onRecord l taken lines
  stopped : ∀ {l : Limits} {e : RuntimeError}, l.admitCall m.depth = .error e → ∀ taken lines,
    run (m.onRecord l taken lines) = (fail refused e).onRecord l taken lines

/-- A part of an instruction does the same on every record, but for the limit on depth. -/
def Unrecorded (m : Machine) (run : Machine → Outcome) : Prop :=
  m.Steady run ∨ ∃ refused opened, m.Opens run refused opened

theorem onRecord_self (m : Machine) : m.onRecord m.limits m.steps #[] = m := by
  simp [onRecord]

/-- What is done behind taking operands may be looked at without them. -/
theorem Unrecorded.taking {m : Machine} {rest : List Value} {run run' : Machine → Outcome}
    (h : { m with stack := rest }.Unrecorded run)
    (heq : ∀ l taken lines, run' (m.onRecord l taken lines) =
      run ({ m with stack := rest }.onRecord l taken lines)) : m.Unrecorded run' := by
  rcases h with hsteady | ⟨refused, opened, hopens⟩
  · refine .inl fun l taken lines ↦ ?_
    have hself := heq m.limits m.steps #[]
    rw [onRecord_self] at hself
    rw [heq, hsteady, hself]
    exact congrArg (fun m ↦ (run m).onRecord l taken lines) (onRecord_self _).symm
  · exact .inr ⟨refused, opened, hopens.silent,
      fun hl taken lines ↦ (heq _ taken lines).trans (hopens.admitted hl taken lines),
      fun hl taken lines ↦ (heq _ taken lines).trans (hopens.stopped hl taken lines)⟩

/-! ### The parts of instructions -/

section

variable (m : Machine)

theorem steady_give (r : Except RuntimeError Value) : m.Steady (·.give r) := fun _ _ _ ↦ by
  cases r <;> rfl

theorem steady_operate (operation : Heap → Heap.Effect Value) : m.Steady (·.operate operation) :=
  steady_give { m with heap := (operation m.heap).2 } (operation m.heap).1

theorem steady_change (operation : Heap → Heap.Effect Unit) :
    m.Steady (·.change operation) := fun _ _ _ ↦ by
  simp only [change, onHeap, onRecord]
  cases operation m.heap with
  | mk r h => cases r <;> rfl

theorem steady_jumpTo (target : Nat) : m.Steady (·.jumpTo target) := fun l taken lines ↦ by
  have hcode : (m.onRecord l taken lines).code = m.code := rfl
  by_cases htarget : target ≤ m.code.size <;> simp only [jumpTo, hcode, htarget] <;> rfl

theorem steady_bind (name : String) (value : Value) :
    m.Steady fun m ↦ goOn (m.bind name value) := fun l taken lines ↦ by
  have hcalls : (m.onRecord l taken lines).calls = m.calls := rfl
  simp only [bind, hcalls]
  cases m.calls <;> rfl

theorem steady_returnValue (value : Value) :
    m.Steady (·.returnValue value) := fun l taken lines ↦ by
  have hcalls : (m.onRecord l taken lines).calls = m.calls := rfl
  simp only [returnValue, hcalls]
  cases m.calls <;> rfl

theorem admitCall_onRecord (l : Limits) (taken : Nat) (lines : Array String) :
    (m.onRecord l taken lines).limits.admitCall (m.onRecord l taken lines).depth =
      l.admitCall m.depth :=
  rfl

theorem unrecorded_call (r : Routine Code) (args : List Value) :
    m.Unrecorded (·.call r args) := by
  by_cases harity : r.params.length = args.length
  · refine .inr ⟨m, m.enter r args none, rfl, fun hl taken lines ↦ ?_, fun hl taken lines ↦ ?_⟩ <;>
      simp only [call, Limits.admitEntry, if_pos harity, admitCall_onRecord, hl] <;> rfl
  · refine .inl fun l taken lines ↦ ?_
    simp only [call, Limits.admitEntry, if_neg harity]
    rfl

theorem unrecorded_construct (c : ClassCode) (args : List Value) :
    m.Unrecorded (·.construct c args) := by
  cases hc : c.methods.get? constructorName with
  | some r =>
    by_cases harity : r.params.length = args.length + 1
    · refine .inr ⟨m, (m.make c).2.enter r ((m.make c).1 :: args) (some (m.make c).1), rfl,
        fun hl taken lines ↦ ?_, fun hl taken lines ↦ ?_⟩ <;>
        simp only [construct, hc, Limits.admitEntry, if_pos harity, admitCall_onRecord, hl] <;> rfl
    · refine .inl fun l taken lines ↦ ?_
      simp only [construct, hc, Limits.admitEntry, if_neg harity]
      rfl
  | none =>
    refine .inl fun l taken lines ↦ ?_
    simp only [construct, hc]
    cases args <;> rfl

theorem unrecorded_callNamed (name : String) (args : List Value) :
    m.Unrecorded (·.callNamed name args) := by
  have hfunctions (l taken lines) : (m.onRecord l taken lines).functions = m.functions := rfl
  have hclasses (l taken lines) : (m.onRecord l taken lines).classes = m.classes := rfl
  cases hr : m.functions.get? name with
  | some r =>
    refine (unrecorded_call m r args).taking fun l taken lines ↦ ?_
    simp only [callNamed, hfunctions, hr]
  | none =>
    cases hc : m.classes.get? name with
    | some c =>
      refine (unrecorded_construct m c args).taking fun l taken lines ↦ ?_
      simp only [callNamed, hfunctions, hr, hclasses, hc]
    | none =>
      refine .inl fun l taken lines ↦ ?_
      simp only [callNamed, hfunctions, hr, hclasses, hc]
      rfl

theorem unrecorded_callMethod (receiver : Value) (name : String) (args : List Value) :
    m.Unrecorded (·.callMethod receiver name args) := by
  have hheap (l taken lines) : (m.onRecord l taken lines).heap = m.heap := rfl
  cases receiver with
  | list cell =>
    refine .inl fun l taken lines ↦ ?_
    simp only [callMethod]
    exact steady_operate m _ l taken lines
  | object cell =>
    cases hr : (m.heap.instance? cell).bind fun i ↦ i.methods.get? name with
    | some r =>
      refine (unrecorded_call m r (.object cell :: args)).taking fun l taken lines ↦ ?_
      simp only [callMethod, hheap, hr]
    | none =>
      refine .inl fun l taken lines ↦ ?_
      simp only [callMethod, hheap, hr]
      rfl
  | _ => exact .inl fun _ _ _ ↦ rfl

/-- An instruction does the same on every record, but for the limit on depth. -/
theorem execute_unrecorded (e : Executable) (i : Instr) : m.Unrecorded (·.execute e i) := by
  have hstack (l taken lines) : (m.onRecord l taken lines).stack = m.stack := rfl
  have hoperands (l taken lines) : (m.onRecord l taken lines).operands = m.operands := rfl
  cases i with
  | loadConstant value => exact .inl fun _ _ _ ↦ rfl
  | loadVariable name =>
    refine .inl fun l taken lines ↦ ?_
    have hlookup : (m.onRecord l taken lines).lookup name = m.lookup name := rfl
    simp only [execute, hlookup]
    cases m.lookup name <;> rfl
  | storeVariable name =>
    refine .inl fun l taken lines ↦ ?_
    simp only [execute, hstack]
    cases m.stack with
    | nil => rfl
    | cons value rest => exact steady_bind { m with stack := rest } name value l taken lines
  | arith op =>
    refine .inl fun l taken lines ↦ ?_
    simp only [execute, hstack]
    rcases m.stack with _ | ⟨b, _ | ⟨a, rest⟩⟩
    · rfl
    · rfl
    · exact steady_operate { m with stack := rest } _ l taken lines
  | compare op =>
    refine .inl fun l taken lines ↦ ?_
    simp only [execute, hstack]
    rcases m.stack with _ | ⟨b, _ | ⟨a, rest⟩⟩
    · rfl
    · rfl
    · exact steady_give { m with stack := rest } _ l taken lines
  | print =>
    refine .inl fun l taken lines ↦ ?_
    simp only [execute, hstack]
    cases m.stack with
    | nil => rfl
    | cons value rest => simp [goOn, onRecord, Outcome.onRecord]
  | jump target => exact .inl (steady_jumpTo m target)
  | jumpIfFalse target =>
    refine .inl fun l taken lines ↦ ?_
    have hheap : (m.onRecord l taken lines).heap = m.heap := rfl
    simp only [execute, hstack, hheap]
    cases m.stack with
    | nil => rfl
    | cons value rest =>
      by_cases hvalue : m.heap.isTruthy value <;> simp only [hvalue]
      · rfl
      · exact steady_jumpTo { m with stack := rest } target l taken lines
  | buildList count =>
    refine .inl fun l taken lines ↦ ?_
    simp only [execute, hoperands]
    cases m.operands count with
    | none => rfl
    | some values => exact steady_operate { m with stack := values.2 } _ l taken lines
  | loadIndex =>
    refine .inl fun l taken lines ↦ ?_
    simp only [execute, hstack]
    rcases m.stack with _ | ⟨index, _ | ⟨list, rest⟩⟩
    · rfl
    · rfl
    · exact steady_give { m with stack := rest } _ l taken lines
  | storeIndex =>
    refine .inl fun l taken lines ↦ ?_
    simp only [execute, hstack]
    rcases m.stack with _ | ⟨value, _ | ⟨index, _ | ⟨list, rest⟩⟩⟩
    · rfl
    · rfl
    · rfl
    · exact steady_change { m with stack := rest } _ l taken lines
  | defineFunction name =>
    refine .inl fun l taken lines ↦ ?_
    simp only [execute]
    cases e.functions.get? name <;> rfl
  | callFunction name count =>
    cases hname : Builtin.ofName? name with
    | some b =>
      refine .inl fun l taken lines ↦ ?_
      simp only [execute, hname, hoperands]
      by_cases hcount : count = b.arity <;> simp only [hcount, if_true, if_false]
      · cases m.operands b.arity with
        | none => rfl
        | some values => exact steady_give { m with stack := values.2 } _ l taken lines
      · rfl
    | none =>
      cases hvalues : m.operands count with
      | none =>
        refine .inl fun l taken lines ↦ ?_
        simp only [execute, hname, hoperands, hvalues]
        rfl
      | some values =>
        refine (unrecorded_callNamed { m with stack := values.2 } name values.1).taking
          fun l taken lines ↦ ?_
        simp only [execute, hname, hoperands, hvalues]
        rfl
  | returnValue =>
    refine .inl fun l taken lines ↦ ?_
    simp only [execute, hstack]
    cases m.stack with
    | nil => rfl
    | cons value rest => exact steady_returnValue { m with stack := rest } value l taken lines
  | defineClass name =>
    refine .inl fun l taken lines ↦ ?_
    simp only [execute]
    cases e.classes.get? name <;> rfl
  | loadAttribute name =>
    refine .inl fun l taken lines ↦ ?_
    simp only [execute, hstack]
    cases m.stack with
    | nil => rfl
    | cons object rest => exact steady_give { m with stack := rest } _ l taken lines
  | storeAttribute name =>
    refine .inl fun l taken lines ↦ ?_
    simp only [execute, hstack]
    rcases m.stack with _ | ⟨value, _ | ⟨object, rest⟩⟩
    · rfl
    · rfl
    · exact steady_change { m with stack := rest } _ l taken lines
  | callMethod name count =>
    rcases hvalues : m.operands count with _ | ⟨args, _ | ⟨receiver, rest⟩⟩
    · refine .inl fun l taken lines ↦ ?_
      simp only [execute, hoperands, hvalues]
      rfl
    · refine .inl fun l taken lines ↦ ?_
      simp only [execute, hoperands, hvalues]
      rfl
    · refine (unrecorded_callMethod { m with stack := rest } receiver name args).taking
        fun l taken lines ↦ ?_
      simp only [execute, hoperands, hvalues]
      rfl
  | pop =>
    refine .inl fun l taken lines ↦ ?_
    simp only [execute, hstack]
    cases m.stack <;> rfl

/-- An instruction does the same under limits that agree on whether a call may be opened. -/
theorem execute_onRecord {l l' : Limits} (h : l.admitCall m.depth = l'.admitCall m.depth)
    (e : Executable) (i : Instr) :
    ∃ o : Outcome, ∀ taken lines,
      (m.onRecord l taken lines).execute e i = o.onRecord l taken lines ∧
        (m.onRecord l' taken lines).execute e i = o.onRecord l' taken lines := by
  rcases execute_unrecorded m e i with hsteady | ⟨refused, opened, hopens⟩
  · exact ⟨_, fun taken lines ↦ ⟨hsteady l taken lines, hsteady l' taken lines⟩⟩
  · cases hl : l.admitCall m.depth with
    | ok _ => exact ⟨goOn opened, fun taken lines ↦
        ⟨hopens.admitted hl taken lines, hopens.admitted (h ▸ hl) taken lines⟩⟩
    | error error => exact ⟨fail refused error, fun taken lines ↦
        ⟨hopens.stopped hl taken lines, hopens.stopped (h ▸ hl) taken lines⟩⟩

/-- An instruction leaves the limits as they are. -/
theorem execute_limits (e : Executable) (i : Instr) : (m.execute e i).2.limits = m.limits := by
  obtain ⟨o, ho⟩ := execute_onRecord m (rfl : m.limits.admitCall m.depth = _) e i
  have hrun := (ho m.steps #[]).1
  rw [onRecord_self] at hrun
  rw [hrun]
  rfl

/-- An instruction prints behind what has been printed before. -/
theorem execute_output (e : Executable) (i : Instr) :
    m.output.toList <+: (m.execute e i).2.output.toList := by
  let silent : Machine := { m with output := #[] }
  have hm : silent.onRecord m.limits m.steps m.output = m := by simp [silent, onRecord]
  obtain ⟨o, ho⟩ := execute_onRecord silent (rfl : m.limits.admitCall m.depth = _) e i
  have hrun := (ho m.steps m.output).1
  rw [hm] at hrun
  rw [hrun]
  show m.output.toList <+: (m.output ++ o.2.output).toList
  rw [Array.toList_append]
  exact List.prefix_append _ _

end

end Offside.Machine
