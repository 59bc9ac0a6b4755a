import Offside.Proofs.Realization.Instructions
import Offside.Proofs.Value.Errors

/-!
Calls. A call instruction is refused where the walk refuses to enter the routine, and else opens a
call in front of the code of the routine. `InvokesRealized` is what is needed of the way in which
routines are run: from an open call, the machine follows the body back to the caller. The two sides
find the same routines, though the machine takes a method from the instance itself.
-/

set_option autoImplicit false
set_option relaxedAutoImplicit false

namespace Offside

open Walk (Ensures)
open Machine (Follows goOn)
open Tariff (charge)

theorem CompiledFrom.name_eq {r : Routine Block} {rc : Routine Code} (h : CompiledFrom r rc) :
    rc.name = r.name := by
  obtain ⟨-, g, rfl⟩ := h
  obtain ⟨name, params, body⟩ := r
  rfl

theorem CompiledFrom.params_eq {r : Routine Block} {rc : Routine Code} (h : CompiledFrom r rc) :
    rc.params = r.params := by
  obtain ⟨-, g, rfl⟩ := h
  obtain ⟨name, params, body⟩ := r
  rfl

/-- A way to run routines that the machine follows. -/
structure InvokesRealized (e : Executable) (limits : Limits) (invoke : Walk.Invocation) : Prop where
  /-- A routine that cannot be entered is not run. -/
  refused : ∀ {r args s err},
    limits.admitEntry r.name r.params args.length s.depth = .error err →
      Ensures (invoke r args) s (fun _ _ ↦ False)
        fun i s' ↦ s' = s ∧ (i = .error err ∨ i = .outOfFuel)
  /-- From an open call, the machine follows the routine back to the caller. -/
  entered : ∀ {r rc args constructed s m}, CompiledFrom r rc → Matches e limits s m →
    limits.admitEntry r.name r.params args.length s.depth = .ok () →
      Realizes e (m.enter rc args constructed) (invoke r args) s fun v s' m' ↦
        Matches e limits s' m' ∧ Follows m m' m.place (constructed.getD v :: m.stack)

section

variable {e : Executable} {limits : Limits} {invoke : Walk.Invocation}
  (hinvoke : InvokesRealized e limits invoke)

include hinvoke

/-- An instruction that opens a call of a routine, unless it is refused. The call is opened from
`m₂`, and `m₁` is left where it is refused. -/
theorem realizes_invoke (constructed : Option Value) {r : Routine Block} {rc : Routine Code}
    {args : List Value} {s : WalkState} {m m₁ m₂ : Machine}
    (hcompiled : CompiledFrom r rc) (hmatch : Matches e limits s m₂)
    (hrefused : ∀ err, limits.admitEntry rc.name rc.params args.length m₂.depth = .error err →
      m.step e = Machine.fail m₁ err)
    (hentered : limits.admitEntry rc.name rc.params args.length m₂.depth = .ok () →
      m.step e = goOn (m₂.enter rc args constructed))
    (houtput : m₁.output = s.output) (hsteps : m₁.steps = s.steps)
    (hcharged : s.steps ≤ m.steps + 1) :
    Realizes e m (invoke r args) s fun v s' m' ↦
      Matches e limits s' m' ∧ Follows m₂ m' m₂.place (constructed.getD v :: m₂.stack) := by
  rw [hcompiled.name_eq, hcompiled.params_eq, hmatch.depth] at hrefused hentered
  cases hadmitted : limits.admitEntry r.name r.params args.length s.depth with
  | ok _ =>
    exact .of_step (hentered hadmitted) (hinvoke.entered hcompiled hmatch hadmitted)
  | error err =>
    refine Ensures.mono (hinvoke.refused hadmitted) (fun _ _ h ↦ h.elim) ?_
    rintro i s' ⟨rfl, rfl | rfl⟩
    · exact interrupted_of_step (hrefused err hadmitted) houtput hsteps
    · exact interrupted_outOfFuel hcharged

/-- An instruction that calls a routine. -/
theorem realizes_routine {r : Routine Block} {rc : Routine Code} {args : List Value}
    {s : WalkState} {m m₁ : Machine} (hcompiled : CompiledFrom r rc)
    (hmatch : Matches e limits s m₁) (hstep : m.step e = m₁.call rc args)
    (hcharged : s.steps ≤ m.steps + 1) :
    Realizes e m (invoke r args) s fun v s' m' ↦
      Matches e limits s' m' ∧ Follows m₁ m' m₁.place (v :: m₁.stack) := by
  unfold Machine.call at hstep
  refine realizes_invoke hinvoke none hcompiled hmatch (fun err herr ↦ ?_) (fun hok ↦ ?_)
    hmatch.output hmatch.steps hcharged
  · rw [← hmatch.limits] at herr
    rw [hstep, herr]
  · rw [← hmatch.limits] at hok
    rw [hstep, hok]

end

/-! ### Making instances -/

section

variable {e : Executable} {limits : Limits} {s : WalkState} {m : Machine}

theorem Matches.made_eq (hmatch : Matches e limits s m) (cc : ClassCode) :
    (s.heap.newObject cc.name .empty).1 = (m.make cc).1 := by
  rw [hmatch.heap, Heap.newObject_forget m.heap cc.name cc.methods]
  rfl

theorem Matches.make (hmatch : Matches e limits s m) {cc : ClassCode}
    (hcc : m.classes.get? cc.name = some cc) :
    Matches e limits { s with heap := (s.heap.newObject cc.name .empty).2 } (m.make cc).2 := by
  refine { hmatch with heap := ?_, instances := fun cell i hi ↦ ?_ }
  · show (s.heap.newObject cc.name .empty).2 = (m.heap.newObject cc.name cc.methods).2.forget
    rw [hmatch.heap, Heap.newObject_forget m.heap cc.name cc.methods]
  · have hnew := Heap.instance?_newObject m.heap cc.name cc.methods cell
    rw [show (m.make cc).2.heap = (m.heap.newObject cc.name cc.methods).2 from rfl, hnew] at hi
    split at hi
    · cases hi
      exact ⟨cc, hcc, rfl⟩
    · exact hmatch.instances cell i hi

/-- The methods of an instance are those that its class has in the walk. -/
theorem Matches.method? (hmatch : Matches e limits s m) (cell : Nat) (name : String) :
    Option.Rel CompiledFrom
      ((s.classes.get? (s.heap.className cell)).bind fun c ↦ c.method? name)
      ((m.heap.instance? cell).bind fun i ↦ i.methods.get? name) := by
  rw [hmatch.heap, Heap.className_forget]
  cases hi : m.heap.instance? cell with
  | none =>
    -- No class has the empty name.
    have hname : m.heap.className cell = "" := by
      rw [Heap.className, hi]
      rfl
    have hclasses := hmatch.classes ""
    rw [hname]
    cases hc : s.classes.get? "" with
    | none => exact .none
    | some c =>
      rw [hc] at hclasses
      generalize m.classes.get? "" = found at hclasses
      cases hclasses with
      | some hclass => exact absurd hclass.1 hclass.2.plain.ne_empty
  | some i =>
    have hname : m.heap.className cell = i.className := by
      rw [Heap.className, hi]
      rfl
    obtain ⟨cc, hcc, hmethods⟩ := hmatch.instances cell i hi
    have hclasses := hmatch.classes i.className
    rw [hname]
    rw [hcc] at hclasses
    cases hc : s.classes.get? i.className with
    | none =>
      rw [hc] at hclasses
      cases hclasses
    | some c =>
      rw [hc] at hclasses
      cases hclasses with
      | some hclass =>
        rw [Option.bind_some, Option.bind_some, hmethods]
        exact hclass.2.methods name

end

/-! ### The instructions that call -/

/-- What a call of a class does with the instance that it has made. -/
def Walk.construct (invoke : Walk.Invocation) (c : Class Block) (args : List Value)
    (made : Value) : Walk Value := do
  match c.method? constructorName with
  | some r =>
    let _ ← invoke r (made :: args)
    return made
  | none =>
    if args.isEmpty then return made
    else fail (.arityMismatch c.name 0 args.length)

theorem Machine.callMethod_object (m : Machine) (cell : Nat) (name : String) (args : List Value) :
    m.callMethod (.object cell) name args =
      ((m.heap.instance? cell).bind fun i ↦ i.methods.get? name).elim
        (fail m (.unknownMethod name (m.heap.typeName (.object cell))))
        fun r ↦ m.call r (.object cell :: args) := by
  rw [Machine.callMethod]
  cases (m.heap.instance? cell).bind fun i ↦ i.methods.get? name <;> rfl

section

variable {e : Executable} {limits : Limits} {invoke : Walk.Invocation} {s : WalkState}
  {m : Machine} (hinvoke : InvokesRealized e limits invoke)

include hinvoke

/-- The machine makes an instance only once it knows that its constructor can be entered. -/
theorem realizes_construct {c : Class Block} {cc : ClassCode} {args : List Value}
    {m₁ : Machine} (hcompiled : ClassCompiledFrom c cc)
    (hmatch : Matches e limits s (m₁.make cc).2) (hstep : m.step e = m₁.construct cc args)
    (hcharged : s.steps ≤ m.steps + 1) :
    Realizes e m (Walk.construct invoke c args (m₁.make cc).1) s fun v s' m' ↦
      Matches e limits s' m' ∧ Follows m₁ m' m₁.place (v :: m₁.stack) := by
  have hmethods := hcompiled.methods constructorName
  unfold Walk.construct
  unfold Machine.construct at hstep
  cases hr : c.method? constructorName with
  | none =>
    rw [hr] at hmethods
    generalize cc.methods.get? constructorName = found at hmethods hstep
    cases hmethods
    cases args with
    | nil => exact .of_step hstep (realizes_pure ⟨hmatch.push _, ⟨rfl, rfl, rfl, rfl, rfl⟩⟩)
    | cons value values =>
      rw [hcompiled.name] at hstep
      exact interrupted_of_step hstep hmatch.output hmatch.steps
  | some r =>
    rw [hr] at hmethods
    generalize cc.methods.get? constructorName = found at hmethods hstep
    cases hmethods with
    | @some r rc hroutine =>
      rw [show m₁.limits = limits from hmatch.limits] at hstep
      have hrefused (err : RuntimeError) (herr : limits.admitEntry rc.name rc.params
          ((m₁.make cc).1 :: args).length (m₁.make cc).2.depth = .error err) :
          m.step e = Machine.fail m₁ err := by
        simp only [hstep, show limits.admitEntry rc.name rc.params (args.length + 1) m₁.depth =
          .error err from herr]
      refine (realizes_invoke hinvoke (some (m₁.make cc).1) hroutine hmatch hrefused
        (fun hok ↦ ?_) hmatch.output hmatch.steps hcharged).bind ?_
      · simp only [hstep, show limits.admitEntry rc.name rc.params (args.length + 1) m₁.depth =
          .ok () from hok]
      · rintro v s' m' ⟨hmatch', hfollows⟩
        exact realizes_pure ⟨hmatch', ⟨hfollows.code, hfollows.place, hfollows.stack,
          hfollows.calls, hfollows.globals⟩⟩

/-- A call by a name that is no builtin. -/
theorem realizes_callNamed {name : String} {args : List Value} {m₁ : Machine}
    (hbuiltin : Builtin.ofName? name = none) (hmatch : Matches e limits s m₁)
    (hstep : m.step e = m₁.callNamed name args) (hcharged : s.steps ≤ m.steps + 1) :
    Realizes e m (Walk.call invoke name args) s fun v s' m' ↦
      Matches e limits s' m' ∧ Follows m₁ m' m₁.place (v :: m₁.stack) := by
  unfold Walk.call
  rw [hbuiltin]
  refine realizes_get_bind ?_
  have hfunctions := hmatch.functions name
  unfold Machine.callNamed at hstep
  cases hr : s.functions.get? name with
  | some r =>
    rw [hr] at hfunctions
    generalize m₁.functions.get? name = found at hfunctions hstep
    cases hfunctions with
    | some hroutine => exact realizes_routine hinvoke hroutine hmatch hstep hcharged
  | none =>
    rw [hr] at hfunctions
    generalize m₁.functions.get? name = found at hfunctions hstep
    cases hfunctions
    refine realizes_get_bind ?_
    have hclasses := hmatch.classes name
    cases hc : s.classes.get? name with
    | none =>
      rw [hc] at hclasses
      generalize m₁.classes.get? name = found at hclasses hstep
      cases hclasses
      exact interrupted_of_step hstep hmatch.output hmatch.steps
    | some c =>
      cases hcc : m₁.classes.get? name with
      | none =>
        rw [hc, hcc] at hclasses
        cases hclasses
      | some cc =>
        rw [hc, hcc] at hclasses
        rw [hcc] at hstep
        cases hclasses with
        | some hclass =>
          obtain ⟨hname, hcompiled⟩ := hclass
          have hfound : m₁.classes.get? cc.name = some cc := by rw [hcompiled.name, hname, hcc]
          have hmade := hmatch.make hfound
          have heq := hmatch.made_eq cc
          rw [hcompiled.name] at hmade heq
          show Realizes e m (Walk.construct invoke c args (s.heap.newObject c.name .empty).1)
            { s with heap := (s.heap.newObject c.name .empty).2 } _
          rw [heq]
          exact realizes_construct hinvoke hcompiled hmade hstep hcharged

variable (hlimits : limits.steps = none) (hmatch : Matches e limits s m)

include hlimits hmatch

/-- A call by name. -/
theorem realizes_call {name : String} {args rest : List Value}
    (hi : m.code[m.place]? = some (.callFunction name args.length))
    (hstack : m.stack = args.reverse ++ rest) :
    Realizes e m (do charge 1; Walk.call invoke name args) s fun v s' m' ↦
      Matches e limits s' m' ∧ Follows m m' (m.place + 1) (v :: rest) := by
  have hmoved := hmatch.next.withStack rest
  have hoperands := Machine.operands_append (show m.next.stack = args.reverse ++ rest from hstack)
  have hstep := hmatch.step hlimits hi
  rw [Machine.execute] at hstep
  cases hb : Builtin.ofName? name with
  | some b =>
    unfold Walk.call
    rw [hb]
    rw [hb] at hstep
    by_cases harity : args.length = b.arity
    · simp only [harity, if_true] at hstep
      rw [← harity, hoperands] at hstep
      exact realizes_give hmatch hstep (Heap.callBuiltin_forget _ b args)
    · simp only [harity, if_false] at hstep
      refine realizes_charge (Walk.ensures_observe (fun v hv ↦ ?_) fun err herr ↦ ?_)
      · rw [Heap.callBuiltin_of_arity_ne harity] at hv
        cases hv
      · rw [Heap.callBuiltin_of_arity_ne harity] at herr
        cases herr
        exact interrupted_of_step hstep hmoved.output hmoved.steps
  | none =>
    simp only [hb, hoperands] at hstep
    have hcharged : s.steps + 1 ≤ m.steps + 1 := Nat.le_of_eq (congrArg (· + 1) hmatch.steps.symm)
    refine realizes_charge ((realizes_callNamed hinvoke hb hmoved hstep hcharged).post ?_)
    rintro v s' m' ⟨hmatch', hfollows⟩
    exact ⟨hmatch', ⟨hfollows.code, hfollows.place, hfollows.stack, hfollows.calls,
      hfollows.globals⟩⟩

/-- A call of a method. -/
theorem realizes_callMethod {name : String} {receiver : Value} {args rest : List Value}
    (hi : m.code[m.place]? = some (.callMethod name args.length))
    (hstack : m.stack = args.reverse ++ receiver :: rest) :
    Realizes e m (do charge 1; Walk.callMethod invoke receiver name args) s fun v s' m' ↦
      Matches e limits s' m' ∧ Follows m m' (m.place + 1) (v :: rest) := by
  have hmoved := hmatch.next.withStack rest
  have hstep := hmatch.step hlimits hi
  simp only [Machine.execute, Machine.operands_append
    (show m.next.stack = args.reverse ++ receiver :: rest from hstack)] at hstep
  have hunknown (hstep : m.step e =
        Machine.fail (m.next.withStack rest) (.unknownMethod name (m.heap.typeName receiver))) :
      Realizes e m (do charge 1; Walk.fail (.unknownMethod name (s.heap.typeName receiver))) s
        fun v s' m' ↦ Matches e limits s' m' ∧ Follows m m' (m.place + 1) (v :: rest) := by
    rw [hmatch.heap, Heap.typeName_forget]
    exact interrupted_of_step hstep hmoved.output hmoved.steps
  cases receiver with
  | list cell =>
    have hlist : m.step e =
        (m.next.withStack rest).operate fun h ↦ h.callListMethod (.list cell) name args := hstep
    show Realizes e m (do charge 1; Walk.onHeap fun h ↦ h.callListMethod (.list cell) name args) _ _
    exact realizes_operate hmatch hlist (Heap.forgetful_callListMethod _ name args) fun h ↦
      h.keepsInstances_callListMethod _ name args
  | object cell =>
    have hmethods := hmatch.method? cell name
    have hwalk : Walk.callMethod invoke (.object cell) name args =
        (do
          let className := (← get).heap.className cell
          match ((← get).classes.get? className).bind fun c ↦ c.method? name with
          | some r => invoke r (.object cell :: args)
          | none => Walk.fail (.unknownMethod name className)) := rfl
    rw [hwalk]
    rw [Machine.callMethod_object] at hstep
    refine realizes_charge (realizes_get_bind (realizes_get_bind ?_))
    show Realizes e m
      (match (s.classes.get? (s.heap.className cell)).bind fun c ↦ c.method? name with
        | some r => invoke r (.object cell :: args)
        | none => Walk.fail (.unknownMethod name (s.heap.className cell))) _ _
    generalize (s.classes.get? (s.heap.className cell)).bind (fun c ↦ c.method? name) = found
      at hmethods ⊢
    change m.step e = Option.elim ((m.heap.instance? cell).bind fun i ↦ i.methods.get? name)
      _ _ at hstep
    generalize (m.heap.instance? cell).bind (fun i ↦ i.methods.get? name) = found' at hmethods hstep
    cases hmethods with
    | none => exact hunknown hstep
    | some hroutine =>
      have hcharged : s.steps + 1 ≤ m.steps + 1 :=
        Nat.le_of_eq (congrArg (· + 1) hmatch.steps.symm)
      refine (realizes_routine hinvoke hroutine hmoved hstep hcharged).post ?_
      rintro v s' m' ⟨hmatch', hfollows⟩
      exact ⟨hmatch', ⟨hfollows.code, hfollows.place, hfollows.stack, hfollows.calls,
        hfollows.globals⟩⟩
  | _ => exact hunknown hstep

end

end Offside
