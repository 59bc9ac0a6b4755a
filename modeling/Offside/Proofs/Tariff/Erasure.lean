import Offside.Proofs.Tariff.Mirrors

/-!
A metered walk without its charges is the plain walk without a limit on its steps: both end alike
(`erased_program`), so they have the same answers (`walk_eq_counted`).
-/

set_option autoImplicit false
set_option relaxedAutoImplicit false

namespace Offside.Tariff

open Walk (Mirrors mirrors_pure mirrors_throw mirrors_load mirrors_store mirrors_onHeap
  mirrors_observe mirrors_allocate mirrors_modify mirrors_iterate)

section

variable {α : Type} (t : Tariff) {x y : Walk α}

/-- Without a limit, counting a step is a charge. -/
theorem tick_eq_charge {limits : Limits} (hlimits : limits.steps = none) :
    Walk.tick limits = charge 1 := by
  obtain ⟨steps, depth⟩ := limits
  cases hlimits
  rfl

theorem observe_map (reading : Heap → Except RuntimeError α) {β : Type} (g : α → β) :
    Walk.observe (fun h ↦ (reading h).map g) = do return g (← Walk.observe reading) := by
  funext s
  show (Walk.ofExcept ((reading s.heap).map g)) s =
    (Walk.ofExcept (reading s.heap) >>= fun a ↦ pure (g a) : Walk β) s
  cases reading s.heap <;> rfl

theorem erased_perform (h : Mirrors id False x y) (operands : Nat) :
    Mirrors id False x (t.perform operands y) :=
  (h.charge_right id 1).charge_right id _

theorem erased_operate (h : Mirrors id False x y) (operands : Nat) :
    Mirrors id False x (t.operate operands y) := by
  rw [← bind_pure x]
  exact (erased_perform t h operands).bind fun a ↦ (mirrors_pure a).charge_right id _

theorem erased_load (name : String) : Mirrors id False (Walk.load name) (t.load name) :=
  (mirrors_load name).charge_right id _

/-- The truth of a value on both sides. -/
theorem erased_test (v : Value) {g k : Bool → Walk α} (h : ∀ b, Mirrors id False (g b) (k b)) :
    Mirrors id False (do g ((← get).heap.isTruthy v)) (do k (← t.test v)) := by
  have htest : Mirrors id False (do return (← get).heap.isTruthy v) (t.test v) := by
    refine erased_perform t (Walk.mirrors_get_bind fun s s' hs ↦ ?_) 1
    rw [hs.heap]
    exact mirrors_pure _ hs
  have hleft : (do g ((← get).heap.isTruthy v)) =
      (do return (← get).heap.isTruthy v : Walk Bool) >>= g := rfl
  rw [hleft]
  exact htest.bind h

/-- The outcome of a comparison is taken as it is, or put away as a value that is then tested. -/
theorem erased_comparison (operands : Nat) (reading : Heap → Except RuntimeError Bool)
    {g k : Bool → Walk α} (h : ∀ b, Mirrors id False (g b) (k b)) :
    Mirrors id False (do g (← Walk.observe reading))
      (do
        let v ← t.operate operands (Walk.observe fun h ↦ (reading h).map Value.boolean)
        k (← t.test v)) := by
  have hleft : (do g (← Walk.observe reading)) =
      (do
        let v ← (Walk.observe fun h ↦ (reading h).map Value.boolean)
        g ((← get).heap.isTruthy v)) := by
    rw [observe_map, bind_assoc]
    rfl
  rw [hleft]
  exact (erased_operate t (mirrors_observe _) operands).bind fun v ↦ erased_test t v h

theorem erased_countUp (counter : Value) :
    Mirrors id False (Walk.onHeap fun h ↦ h.arith .add counter (.number (.int 1)))
      (t.countUp counter) := by
  rw [← bind_pure (Walk.onHeap _)]
  refine .charge_right (.charge_right (Mirrors.bind ?_ fun next ↦ ?_) id _) id _
  · exact erased_operate t (mirrors_onHeap _) 2
  · exact erased_perform t (mirrors_pure next) 1

end

section

variable {t : Tariff} {limits : Limits} {fuel : Nat} {invoke invoke' : Walk.Invocation}

mutual

theorem erased_eval (hinvoke : ∀ r args, Mirrors id False (invoke r args) (invoke' r args)) :
    ∀ e : Expr, Mirrors id False (Walk.eval invoke e) (t.eval invoke' e)
  | .number _ => by
    rw [Walk.eval, eval]
    exact (mirrors_pure _).charge_right id _
  | .boolean _ => by
    rw [Walk.eval, eval]
    exact (mirrors_pure _).charge_right id _
  | .variable name => by
    rw [Walk.eval, eval]
    exact erased_load t name
  | .arith _ left right => by
    rw [Walk.eval, eval]
    refine (erased_eval hinvoke left).bind fun a ↦ (erased_eval hinvoke right).bind fun b ↦ ?_
    exact erased_operate t (mirrors_onHeap _) 2
  | .compare _ left right => by
    rw [Walk.eval, eval]
    refine (erased_eval hinvoke left).bind fun a ↦ (erased_eval hinvoke right).bind fun b ↦ ?_
    rw [observe_map]
    exact erased_operate t ((mirrors_observe _).bind fun _ ↦ mirrors_pure _) 2
  | .call name args => by
    rw [Walk.eval, eval]
    refine (erased_evalAll hinvoke args).bind fun values ↦ ?_
    exact erased_operate t (Walk.mirrors_call (fun _ ↦ rfl) hinvoke name values) _
  | .list items => by
    rw [Walk.eval, eval]
    refine (erased_evalAll hinvoke items).bind fun values ↦ ?_
    exact erased_operate t (mirrors_allocate _) _
  | .index name position => by
    rw [Walk.eval, eval]
    refine (erased_load t name).bind fun list ↦ (erased_eval hinvoke position).bind fun index ↦ ?_
    exact erased_operate t (mirrors_observe _) 2
  | .member object _ => by
    rw [Walk.eval, eval]
    exact (erased_load t object).bind fun v ↦ erased_operate t (mirrors_observe _) 1
  | .methodCall object method args => by
    rw [Walk.eval, eval]
    refine (erased_load t object).bind fun receiver ↦ (erased_evalAll hinvoke args).bind
      fun values ↦ ?_
    exact erased_operate t (Walk.mirrors_callMethod (fun _ ↦ rfl) hinvoke receiver method values) _

theorem erased_evalAll (hinvoke : ∀ r args, Mirrors id False (invoke r args) (invoke' r args)) :
    ∀ es : List Expr, Mirrors id False (Walk.evalAll invoke es) (t.evalAll invoke' es)
  | [] => by
    rw [Walk.evalAll, evalAll]
    exact mirrors_pure _
  | e :: es => by
    rw [Walk.evalAll, evalAll]
    refine (erased_eval hinvoke e).bind fun value ↦ ?_
    exact (erased_evalAll hinvoke es).bind fun values ↦ mirrors_pure _

end

mutual

theorem erased_exec (hlimits : limits.steps = none)
    (hinvoke : ∀ r args, Mirrors id False (invoke r args) (invoke' r args)) :
    ∀ s : Stmt, Mirrors id False (Walk.exec limits fuel invoke s) (t.exec fuel invoke' s)
  | .assign name value => by
    rw [Walk.exec, exec, tick_eq_charge hlimits]
    refine .charge_left ((erased_eval hinvoke value).bind fun v ↦ ?_) 1
    exact (erased_perform t (mirrors_store name v) 1).bind fun _ ↦ mirrors_pure _
  | .assignIndex name position value => by
    rw [Walk.exec, exec, tick_eq_charge hlimits]
    refine .charge_left ((erased_load t name).bind fun list ↦ ?_) 1
    refine (erased_eval hinvoke position).bind fun index ↦ ?_
    refine (erased_eval hinvoke value).bind fun v ↦ ?_
    exact (erased_perform t (mirrors_onHeap _) 3).bind fun _ ↦ mirrors_pure _
  | .assignAttribute object name value => by
    rw [Walk.exec, exec, tick_eq_charge hlimits]
    refine .charge_left ((erased_load t object).bind fun o ↦ ?_) 1
    refine (erased_eval hinvoke value).bind fun v ↦ ?_
    exact (erased_perform t (mirrors_onHeap _) 2).bind fun _ ↦ mirrors_pure _
  | .print value => by
    rw [Walk.exec, exec, tick_eq_charge hlimits]
    refine .charge_left ((erased_eval hinvoke value).bind fun v ↦ ?_) 1
    refine (erased_perform t (mirrors_modify fun s s' h ↦ ?_) 1).bind fun _ ↦ mirrors_pure _
    exact { h with output := by rw [h.output, h.heap] }
  | .expr value => by
    rw [Walk.exec, exec, tick_eq_charge hlimits]
    refine .charge_left ((erased_eval hinvoke value).bind fun v ↦ ?_) 1
    exact (mirrors_pure _).charge_right id _
  | .ifElse condition body orelse => by
    rw [Walk.exec, exec, tick_eq_charge hlimits]
    refine .charge_left ((erased_eval hinvoke condition).bind fun v ↦ ?_) 1
    refine erased_test t v (g := fun b ↦ if b = true then _ else _) fun b ↦ ?_
    cases b with
    | false => exact erased_execBlock hlimits hinvoke orelse
    | true =>
      rw [if_pos rfl, if_pos rfl, ← bind_pure (Walk.execBlock limits fuel invoke body)]
      refine (erased_execBlock hlimits hinvoke body).bind fun c ↦ ?_
      cases c with
      | returned v => exact mirrors_pure _
      | next => exact (mirrors_pure _).charge_right id _
  | .whileLoop condition body => by
    rw [Walk.exec, exec, tick_eq_charge hlimits]
    refine .charge_left (mirrors_iterate (fun _ ↦ ?_) fuel ()) 1
    refine (erased_eval hinvoke condition).bind fun v ↦ ?_
    refine erased_test t v (g := fun b ↦ if b = true then _ else _) fun b ↦ ?_
    cases b with
    | false => exact mirrors_pure _
    | true =>
      refine (erased_execBlock hlimits hinvoke body).bind fun c ↦ ?_
      cases c with
      | returned v => exact mirrors_pure _
      | next => exact ((mirrors_pure _).charge_right id 1).charge_left 1
  | .forRange name start stop body => by
    rw [Walk.exec, exec, tick_eq_charge hlimits]
    refine .charge_left ((erased_eval hinvoke start).bind fun first ↦ ?_) 1
    refine ((Mirrors.bind ?_ fun bound ↦ ?_).charge_right id 1).charge_right id _
    · exact erased_eval hinvoke stop
    refine .charge_right (mirrors_iterate (fun counter ↦ ?_) fuel first) id _
    refine ((erased_comparison t 2 _ (g := fun b ↦ if b = true then _ else _)
      fun b ↦ ?_).charge_right id _).charge_right id _
    cases b with
    | false => exact mirrors_pure _
    | true =>
      refine .charge_right ((erased_perform t (mirrors_store name counter) 1).bind fun _ ↦ ?_) id _
      refine (erased_execBlock hlimits hinvoke body).bind fun c ↦ ?_
      cases c with
      | returned v => exact mirrors_pure _
      | next =>
        refine (erased_countUp t counter).bind fun next ↦ ?_
        exact ((mirrors_pure _).charge_right id 1).charge_left 1
  | .define routine => by
    rw [Walk.exec, exec, tick_eq_charge hlimits]
    refine .charge_left (.charge_right (Mirrors.bind ?_ fun _ ↦ mirrors_pure _) id 1) 1
    refine mirrors_modify fun s s' h ↦ { h with functions := fun n ↦ ?_ }
    rw [Bindings.get?_set, Bindings.get?_set]
    split
    · rfl
    · exact h.functions n
  | .defineClass definition => by
    rw [Walk.exec, exec, tick_eq_charge hlimits]
    refine .charge_left (.charge_right (Mirrors.bind ?_ fun _ ↦ mirrors_pure _) id 1) 1
    refine mirrors_modify fun s s' h ↦ { h with classes := fun n ↦ ?_ }
    rw [Bindings.get?_set, Bindings.get?_set]
    split
    · rw [Option.map_some, Class.mapMethods, List.map_id]
    · exact h.classes n
  | .return none => by
    rw [Walk.exec, exec, tick_eq_charge hlimits]
    exact .charge_left ((mirrors_pure _).charge_right id 1) 1
  | .return (some value) => by
    rw [Walk.exec, exec, tick_eq_charge hlimits]
    refine .charge_left ((erased_eval hinvoke value).bind fun v ↦ ?_) 1
    exact (mirrors_pure _).charge_right id _
  | .pass => by
    rw [Walk.exec, exec, tick_eq_charge hlimits]
    exact .charge_left (mirrors_pure _) 1

theorem erased_execBlock (hlimits : limits.steps = none)
    (hinvoke : ∀ r args, Mirrors id False (invoke r args) (invoke' r args)) :
    ∀ block : List Stmt,
      Mirrors id False (Walk.execBlock limits fuel invoke block) (t.execBlock fuel invoke' block)
  | [] => by
    rw [Walk.execBlock, execBlock]
    exact mirrors_pure _
  | s :: ss => by
    rw [Walk.execBlock, execBlock]
    refine (erased_exec hlimits hinvoke s).bind fun c ↦ ?_
    cases c with
    | returned v => exact mirrors_pure _
    | next => exact erased_execBlock hlimits hinvoke ss

end

theorem erased_invoke (hlimits : limits.steps = none) (fuel : Nat) :
    ∀ r args,
      Mirrors id False (Walk.invoke limits fuel r args) (Tariff.invoke limits fuel r args) := by
  induction fuel with
  | zero => exact fun _ _ ↦ mirrors_throw .outOfFuel
  | succ fuel ih =>
    intro r args
    rw [Walk.invoke, Tariff.invoke]
    refine Walk.mirrors_get_bind fun s s' h ↦ Walk.mirrors_get_bind (fun s₁ s₁' h₁ ↦ ?_) h
    rw [h.depth, h₁.locals]
    refine (Walk.mirrors_ofExcept _ h₁).bind fun _ ↦ Mirrors.bind ?_ fun _ ↦ ?_
    · exact mirrors_modify fun _ _ h ↦ { h with locals := rfl, depth := rfl }
    refine (erased_execBlock hlimits ih r.body).bind fun c ↦ Mirrors.bind ?_ fun _ ↦ ?_
    · exact mirrors_modify fun _ _ h ↦ { h with locals := rfl, depth := rfl }
    cases c with
    | returned v => exact (mirrors_pure v).charge_right id 1
    | next => exact (mirrors_pure Value.none).charge_right id 2

/-- A program that is walked and one that is walked with a meter end alike. -/
theorem erased_program (hlimits : limits.steps = none) (fuel : Nat) (program : Block) :
    Mirrors id False (Walk.program limits fuel program) (t.program limits fuel program) := by
  refine (erased_execBlock hlimits (erased_invoke hlimits fuel) program).bind fun c ↦ ?_
  cases c with
  | returned v => exact (Walk.mirrors_fail _).charge_right id 1
  | next => exact mirrors_pure ()

end

/-- Without a limit on steps, the answers of a program are those of the metered walk. -/
theorem walk_eq_counted (t : Tariff) {limits : Limits} (hlimits : limits.steps = none)
    (program : Block) (fuel : Nat) :
    walk program limits fuel = (t.counted limits fuel program).map Prod.fst := by
  have hinitial : Walk.Similar id False .initial .initial := by
    refine ⟨rfl, rfl, fun n ↦ rfl, fun n ↦ rfl, rfl, rfl, rfl, False.elim⟩
  have hmirrors := erased_program (t := t) hlimits fuel program hinitial
  unfold Walk.MirrorsAt at hmirrors
  rw [Walk.walk_eq_answer?, counted]
  generalize Walk.outcome (Walk.program limits fuel program) .initial = o at hmirrors ⊢
  generalize Walk.outcome (t.program limits fuel program) .initial = p at hmirrors ⊢
  obtain ⟨i | _, s⟩ := o <;> obtain ⟨j | _, s'⟩ := p
  · obtain ⟨rfl, houtput, -⟩ := hmirrors
    cases j with
    | error e => simp only [Walk.answer?, Option.map_some, houtput]
    | outOfFuel => rfl
  · exact hmirrors.elim
  · exact hmirrors.elim
  · simp only [Walk.answer?, Option.map_some, hmirrors.2.output]

theorem walk_eq_some (t : Tariff) {limits : Limits} (hlimits : limits.steps = none)
    {program : Block} {fuel : Nat} {a : Answer} :
    walk program limits fuel = some a ↔ ∃ n, t.counted limits fuel program = some (a, n) := by
  rw [walk_eq_counted t hlimits, Option.map_eq_some_iff]
  simp only [Prod.exists, exists_and_right, exists_eq_right]

end Offside.Tariff
