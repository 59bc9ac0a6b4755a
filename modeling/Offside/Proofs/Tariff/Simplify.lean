import Offside.Proofs.Scope.Simplify
import Offside.Proofs.Tariff.Mirrors

/-!
Simplifying preserves meaning and costs nothing: the metered walk of a simplified program ends like
that of the program itself and is charged no more (`simplified_program`). An operation is folded
only where it has a result, so a fold moves no error; a branch takes the place of its conditional
only where the condition has a known value, which needs no test; and what stands behind a `return`
in a routine is never reached.
-/

set_option autoImplicit false
set_option relaxedAutoImplicit false

namespace Offside.Tariff

open Walk (Mirrors mirrors_pure mirrors_throw mirrors_onHeap mirrors_observe mirrors_allocate
  mirrors_modify mirrors_iterate mirrors_charge mirrors_store mirrors_fail mirrors_test
  mirrors_meteredLoad mirrors_whileTurn mirrors_forTurn)

/-- A tariff under which simplifying raises no price. -/
structure Economical (t : Tariff) : Prop where
  keep : ∀ e : Expr, t.keep e.simplify ≤ t.keep e
  skip : ∀ i block, t.skip (simplifyBlock i block) ≤ t.skip block

theorem length_simplifyExprs (es : List Expr) : (simplifyExprs es).length = es.length := by
  induction es with
  | nil => rfl
  | cons e es ih => rw [simplifyExprs, List.length_cons, List.length_cons, ih]

theorem isVariable_simplify (e : Expr) : e.simplify.isVariable = e.isVariable := by
  cases e with
  | arith op left right =>
    show (foldArith op left.simplify right.simplify).isVariable = false
    unfold foldArith
    split
    · split <;> rfl
    · rfl
  | _ => rfl

theorem economical_direct : Economical direct where
  keep _ := Nat.le_refl _
  skip i block := by
    cases block with
    | nil => exact Nat.le_refl _
    | cons s ss =>
      show (if (simplifyBlock i (s :: ss)).isEmpty then 0 else 1) ≤ 1
      split <;> decide

theorem economical_threeAddress : Economical threeAddress where
  keep e := by
    show (if e.simplify.isVariable then 2 else 0) ≤ if e.isVariable then 2 else 0
    exact Nat.le_of_eq (by rw [isVariable_simplify])
  skip _ _ := Nat.le_refl _

theorem economical_ofLowering (l : Lowering) : Economical (ofLowering l) := by
  cases l with
  | threeAddress => exact economical_threeAddress
  | direct => exact economical_direct

/-- One walk mirrors another that runs simplified routines and is charged no more. -/
abbrev Simplifies {α : Type} (x y : Walk α) : Prop :=
  Mirrors simplifyRoutine True x y

section

variable {t : Tariff} {invoke invoke' : Walk.Invocation}

theorem simplified_charge (n : Nat) : Simplifies (charge n) (charge n) :=
  mirrors_charge fun _ ↦ Nat.le_refl n

/-! ### Expressions -/

/-- An operation on two literals that has a result is no operation on the machine. -/
theorem simplified_foldArith {op : ArithOp} {x y : Walk Value} {left right : Expr}
    (hleft : Simplifies x (t.eval invoke' left)) (hright : Simplifies y (t.eval invoke' right)) :
    Simplifies
      (do
        let a ← x
        let b ← y
        t.operate 2 (Walk.onHeap fun h ↦ h.arith op a b))
      (t.eval invoke' (foldArith op left right)) := by
  have hkept : Simplifies
      (do
        let a ← x
        let b ← y
        t.operate 2 (Walk.onHeap fun h ↦ h.arith op a b))
      (t.eval invoke' (.arith op left right)) := by
    rw [eval]
    exact hleft.bind fun a ↦ hright.bind fun b ↦ (mirrors_onHeap _).operate t 2
  unfold foldArith
  split
  · next a b =>
    split
    · next c hc =>
      rw [eval] at hleft hright ⊢
      refine hleft.bind_charged (hright.uncharged.bind_known ?_)
      have hheap : (Walk.onHeap fun h ↦ h.arith op (.number a) (.number b)) =
          (pure (.number c) : Walk Value) := by
        funext s
        show ((Heap.arith s.heap op (.number a) (.number b)).1.mapError _,
          { s with heap := (Heap.arith s.heap op (.number a) (.number b)).2 }) = _
        simp only [Heap.arith, Value.number?, hc]
        rfl
      rw [hheap]
      exact (((mirrors_pure _).charge_left t.result).charge_left 1).charge_left (2 * t.operand)
    · exact hkept
  · exact hkept

mutual

theorem simplified_eval
    (hinvoke : ∀ r args, Simplifies (invoke r args) (invoke' (simplifyRoutine r) args)) :
    ∀ e : Expr, Simplifies (t.eval invoke e) (t.eval invoke' e.simplify)
  | .number _ => by
    rw [Expr.simplify, eval, eval]
    exact (simplified_charge _).bind fun _ ↦ mirrors_pure _
  | .boolean _ => by
    rw [Expr.simplify, eval, eval]
    exact (simplified_charge _).bind fun _ ↦ mirrors_pure _
  | .variable name => by
    rw [Expr.simplify, eval, eval]
    exact mirrors_meteredLoad t name
  | .arith op left right => by
    rw [Expr.simplify, eval]
    exact simplified_foldArith (simplified_eval hinvoke left) (simplified_eval hinvoke right)
  | .compare _ left right => by
    rw [Expr.simplify, eval, eval]
    refine (simplified_eval hinvoke left).bind fun a ↦ ?_
    refine (simplified_eval hinvoke right).bind fun b ↦ ?_
    exact (mirrors_observe _).operate t 2
  | .call name args => by
    rw [Expr.simplify, eval, eval, length_simplifyExprs]
    refine (simplified_evalAll hinvoke args).bind fun values ↦ ?_
    exact (Walk.mirrors_call simplifyRoutine_name hinvoke name values).operate t _
  | .list items => by
    rw [Expr.simplify, eval, eval, length_simplifyExprs]
    exact (simplified_evalAll hinvoke items).bind fun values ↦ (mirrors_allocate _).operate t _
  | .index name position => by
    rw [Expr.simplify, eval, eval]
    refine (mirrors_meteredLoad t name).bind fun list ↦ ?_
    exact (simplified_eval hinvoke position).bind fun index ↦ (mirrors_observe _).operate t 2
  | .member object name => by
    rw [Expr.simplify, eval, eval]
    exact (mirrors_meteredLoad t object).bind fun v ↦ (mirrors_observe _).operate t 1
  | .methodCall object method args => by
    rw [Expr.simplify, eval, eval, length_simplifyExprs]
    refine (mirrors_meteredLoad t object).bind fun receiver ↦ ?_
    refine (simplified_evalAll hinvoke args).bind fun values ↦ ?_
    exact (Walk.mirrors_callMethod simplifyRoutine_name hinvoke receiver method values).operate t _

theorem simplified_evalAll
    (hinvoke : ∀ r args, Simplifies (invoke r args) (invoke' (simplifyRoutine r) args)) :
    ∀ es : List Expr, Simplifies (t.evalAll invoke es) (t.evalAll invoke' (simplifyExprs es))
  | [] => by
    rw [simplifyExprs, evalAll, evalAll]
    exact mirrors_pure _
  | e :: es => by
    rw [simplifyExprs, evalAll, evalAll]
    refine (simplified_eval hinvoke e).bind fun value ↦ ?_
    exact (simplified_evalAll hinvoke es).bind fun values ↦ mirrors_pure _

end

/-! ### Blocks behind one another -/

variable (t) (fuel : Nat) (invoke)

theorem execBlock_singleton (s : Stmt) : t.execBlock fuel invoke [s] = t.exec fuel invoke s := by
  rw [execBlock]
  conv => rhs; rw [← bind_pure (t.exec fuel invoke s)]
  congr 1
  funext c
  cases c with
  | returned v => rfl
  | next => rw [execBlock]

/-- What is run behind a block that was not left with a return. -/
def andThen (rest : Walk Completion) : Completion → Walk Completion
  | .returned value => return .returned value
  | .next => rest

theorem execBlock_cons (s : Stmt) (ss : Block) :
    t.execBlock fuel invoke (s :: ss) =
      t.exec fuel invoke s >>= andThen (t.execBlock fuel invoke ss) := by
  rw [execBlock]
  rfl

theorem andThen_bind (x y : Walk Completion) (c : Completion) :
    (andThen x c >>= andThen y) = andThen (x >>= andThen y) c := by
  cases c <;> rfl

theorem execBlock_append (first rest : Block) :
    t.execBlock fuel invoke (first ++ rest) =
      t.execBlock fuel invoke first >>= andThen (t.execBlock fuel invoke rest) := by
  induction first with
  | nil =>
    rw [List.nil_append, execBlock, pure_bind]
    rfl
  | cons s ss ih =>
    rw [List.cons_append, execBlock_cons, execBlock_cons, ih, bind_assoc]
    congr 1
    funext c
    exact (andThen_bind _ _ c).symm

/-- Nothing is run behind a `return`. -/
theorem execBlock_of_endsInReturn {block : Block} (h : endsInReturn block = true)
    (rest : Walk Completion) :
    t.execBlock fuel invoke block >>= andThen rest = t.execBlock fuel invoke block := by
  obtain ⟨s, hs, hreturn⟩ := (Option.any_eq_true _ _).mp h
  obtain ⟨first, rfl⟩ := List.getLast?_eq_some_iff.mp hs
  have hlast : t.exec fuel invoke s >>= andThen rest = t.exec fuel invoke s := by
    cases s with
    | «return» value =>
      cases value with
      | none =>
        rw [exec]
        rfl
      | some value =>
        rw [exec]
        simp only [bind_assoc, pure_bind]
        rfl
    | _ => cases hreturn
  rw [execBlock_append, bind_assoc, execBlock_singleton]
  congr 1
  funext c
  rw [andThen_bind, hlast]

variable {t} {fuel} {invoke}

/-! ### Statements -/

/-- The truth of a literal is known before it is evaluated. -/
theorem simplified_test {α : Type} {x : Walk Value} {condition : Expr} {truth : Bool}
    (hcondition : Simplifies x (t.eval invoke' condition))
    (htruth : condition.literalTruth? = some truth) {g : Bool → Walk α} {y : Walk α}
    (hg : Simplifies (g truth) y) :
    Simplifies
      (do
        let v ← x
        g (← t.test v))
      y := by
  have hknown (v : Value) (hv : ∀ h : Heap, h.isTruthy v = truth) :
      Simplifies (do g (← t.test v)) y := by
    have htest : t.test v = t.perform 1 (pure truth) := by
      unfold test
      congr 1
      funext s
      show (Except.ok (s.heap.isTruthy v), s) = _
      rw [hv]
      rfl
    rw [htest]
    exact (hg.charge_left 1).charge_left _
  cases condition with
  | number n =>
    cases htruth
    rw [eval] at hcondition
    exact hcondition.uncharged.bind_known (hknown _ fun _ ↦ rfl)
  | boolean b =>
    cases htruth
    rw [eval] at hcondition
    exact hcondition.uncharged.bind_known (hknown _ fun _ ↦ rfl)
  | _ => cases htruth

theorem simplified_andThen {x y : Walk Completion} (h : Simplifies x y) (c : Completion) :
    Simplifies (andThen x c) (andThen y c) := by
  cases c with
  | returned v => exact mirrors_pure _
  | next => exact h

mutual

/-- A statement and the block that takes its place end alike. -/
theorem simplified_exec (ht : Economical t) (i : Bool)
    (hinvoke : ∀ r args, Simplifies (invoke r args) (invoke' (simplifyRoutine r) args)) :
    ∀ s : Stmt, Simplifies (t.exec fuel invoke s) (t.execBlock fuel invoke' (s.simplify i))
  | .assign name value => by
    rw [Stmt.simplify, execBlock_singleton, exec, exec]
    refine (simplified_eval hinvoke value).bind fun v ↦ ?_
    exact ((mirrors_store name v).perform t 1).bind fun _ ↦ mirrors_pure _
  | .assignIndex name position value => by
    rw [Stmt.simplify, execBlock_singleton, exec, exec]
    refine (mirrors_meteredLoad t name).bind fun list ↦ ?_
    refine (simplified_eval hinvoke position).bind fun index ↦ ?_
    refine (simplified_eval hinvoke value).bind fun v ↦ ?_
    exact ((mirrors_onHeap _).perform t 3).bind fun _ ↦ mirrors_pure _
  | .assignAttribute object name value => by
    rw [Stmt.simplify, execBlock_singleton, exec, exec]
    refine (mirrors_meteredLoad t object).bind fun o ↦ ?_
    refine (simplified_eval hinvoke value).bind fun v ↦ ?_
    exact ((mirrors_onHeap _).perform t 2).bind fun _ ↦ mirrors_pure _
  | .print value => by
    rw [Stmt.simplify, execBlock_singleton, exec, exec]
    refine (simplified_eval hinvoke value).bind fun v ↦ ?_
    refine (Mirrors.perform (mirrors_modify fun s s' h ↦ ?_) t 1).bind fun _ ↦ mirrors_pure _
    exact { h with output := by rw [h.output, h.heap] }
  | .expr value => by
    rw [Stmt.simplify, execBlock_singleton, exec, exec]
    refine (simplified_eval hinvoke value).bind fun v ↦ ?_
    exact (simplified_charge _).bind fun _ ↦ mirrors_pure _
  | .ifElse condition body orelse => by
    have hcondition := simplified_eval hinvoke (t := t) condition
    have hbody := simplified_execBlock ht i hinvoke body
    have horelse := simplified_execBlock ht i hinvoke orelse
    rw [Stmt.simplify, exec]
    split
    · next htruth =>
      refine simplified_test hcondition htruth (g := fun b ↦ if b = true then _ else _) ?_
      rw [if_pos rfl, ← bind_pure (t.execBlock fuel invoke' _)]
      refine hbody.bind fun c ↦ ?_
      cases c with
      | returned v => exact mirrors_pure _
      | next => exact (mirrors_pure _).charge_left _
    · next htruth =>
      exact simplified_test hcondition htruth (g := fun b ↦ if b = true then _ else _) horelse
    · rw [execBlock_singleton, exec]
      refine hcondition.bind fun v ↦ (mirrors_test t v).bind fun b ↦ ?_
      cases b with
      | false => exact horelse
      | true =>
        rw [if_pos rfl, if_pos rfl]
        refine hbody.bind fun c ↦ ?_
        cases c with
        | returned v => exact mirrors_pure _
        | next => exact (mirrors_charge fun _ ↦ ht.skip i orelse).bind fun _ ↦ mirrors_pure _
  | .whileLoop condition body => by
    rw [Stmt.simplify, execBlock_singleton, exec, exec]
    exact mirrors_iterate (mirrors_whileTurn t (simplified_eval hinvoke condition)
      (simplified_execBlock ht i hinvoke body)) fuel ()
  | .forRange name start stop body => by
    rw [Stmt.simplify, execBlock_singleton, exec, exec]
    refine (simplified_eval hinvoke start).bind fun first ↦ ?_
    refine ((mirrors_pure ()).perform t 1).bind fun _ ↦ ?_
    refine (simplified_eval hinvoke stop).bind fun bound ↦ ?_
    refine (mirrors_charge fun _ ↦ ht.keep stop).bind fun _ ↦ ?_
    exact mirrors_iterate (mirrors_forTurn t name bound (simplified_execBlock ht i hinvoke body))
      fuel first
  | .define routine => by
    rw [Stmt.simplify, execBlock_singleton, exec, exec]
    refine (simplified_charge 1).bind fun _ ↦ Mirrors.bind ?_ fun _ ↦ mirrors_pure _
    refine mirrors_modify fun s s' h ↦ { h with functions := fun n ↦ ?_ }
    rw [Bindings.get?_set, Bindings.get?_set, simplifyRoutine_name]
    split
    · rfl
    · exact h.functions n
  | .defineClass definition => by
    rw [Stmt.simplify, execBlock_singleton, exec, exec]
    refine (simplified_charge 1).bind fun _ ↦ Mirrors.bind ?_ fun _ ↦ mirrors_pure _
    refine mirrors_modify fun s s' h ↦ { h with classes := fun n ↦ ?_ }
    rw [Bindings.get?_set, Bindings.get?_set, simplifyClass_name]
    split
    · rw [Option.map_some, Class.mapMethods, ← simplifyClass_methods, ← simplifyClass_name]
    · exact h.classes n
  | .return none => by
    rw [Stmt.simplify, execBlock_singleton, exec, exec]
    exact (simplified_charge 1).bind fun _ ↦ mirrors_pure _
  | .return (some value) => by
    rw [Stmt.simplify, execBlock_singleton, exec, exec]
    refine (simplified_eval hinvoke value).bind fun v ↦ ?_
    exact (simplified_charge _).bind fun _ ↦ mirrors_pure _
  | .pass => by
    rw [Stmt.simplify, execBlock_singleton, exec, exec]
    exact mirrors_pure _

theorem simplified_execBlock (ht : Economical t) (i : Bool)
    (hinvoke : ∀ r args, Simplifies (invoke r args) (invoke' (simplifyRoutine r) args)) :
    ∀ block : List Stmt,
      Simplifies (t.execBlock fuel invoke block) (t.execBlock fuel invoke' (simplifyBlock i block))
  | [] => by
    rw [simplifyBlock, execBlock, execBlock]
    exact mirrors_pure _
  | s :: ss => by
    have hrest := simplified_execBlock ht i hinvoke ss
    rw [simplifyBlock, execBlock_cons]
    split
    · next hreturn =>
      rw [← execBlock_of_endsInReturn t invoke' fuel (Bool.and_eq_true_iff.mp hreturn).2
        (t.execBlock fuel invoke' (simplifyBlock i ss))]
      exact (simplified_exec ht i hinvoke s).bind (simplified_andThen hrest)
    · rw [execBlock_append]
      exact (simplified_exec ht i hinvoke s).bind (simplified_andThen hrest)

end

theorem simplified_invoke (limits : Limits) (fuel : Nat) :
    ∀ r args, Simplifies (Tariff.invoke limits fuel r args)
      (Tariff.invoke limits fuel (simplifyRoutine r) args) := by
  induction fuel with
  | zero => exact fun _ _ ↦ mirrors_throw .outOfFuel
  | succ fuel ih =>
    intro r args
    rw [Tariff.invoke, Tariff.invoke, simplifyRoutine_name, simplifyRoutine_params,
      simplifyRoutine_body]
    refine Walk.mirrors_get_bind fun s s' h ↦ Walk.mirrors_get_bind (fun s₁ s₁' h₁ ↦ ?_) h
    rw [h.depth, h₁.locals]
    refine (Walk.mirrors_ofExcept _ h₁).bind fun _ ↦ Mirrors.bind ?_ fun _ ↦ ?_
    · exact mirrors_modify fun _ _ h ↦ { h with locals := rfl, depth := rfl }
    refine (simplified_execBlock economical_direct true ih r.body).bind fun c ↦
      Mirrors.bind ?_ fun _ ↦ ?_
    · exact mirrors_modify fun _ _ h ↦ { h with locals := rfl, depth := rfl }
    cases c with
    | returned v => exact (simplified_charge 1).bind fun _ ↦ mirrors_pure v
    | next => exact (simplified_charge 2).bind fun _ ↦ mirrors_pure Value.none

/-- A program and its simplified form end alike, and the simplified form is charged no more. -/
theorem simplified_program (ht : Economical t) (limits : Limits) (fuel : Nat) (program : Block) :
    Simplifies (t.program limits fuel program) (t.program limits fuel (simplify program)) := by
  refine (simplified_execBlock ht false (simplified_invoke limits fuel) program).bind fun c ↦ ?_
  cases c with
  | returned v => exact (simplified_charge 1).bind fun _ ↦ mirrors_fail _
  | next => exact mirrors_pure ()

/-- A program and its simplified form have the same answer, and the simplified form is charged no
more for it. -/
theorem simplified_counted (ht : Economical t) (limits : Limits) (fuel : Nat) (program : Block) :
    Option.Rel (fun x y ↦ y.1 = x.1 ∧ y.2 ≤ x.2) (t.counted limits fuel program)
      (t.counted limits fuel (simplify program)) := by
  have hinitial : Walk.Similar simplifyRoutine True .initial .initial := by
    refine ⟨rfl, rfl, fun n ↦ rfl, fun n ↦ rfl, rfl, rfl, rfl, fun _ ↦ Nat.le_refl _⟩
  have hmirrors := simplified_program ht limits fuel program hinitial
  unfold Walk.MirrorsAt at hmirrors
  unfold counted
  generalize Walk.outcome (t.program limits fuel program) .initial = o at hmirrors ⊢
  generalize Walk.outcome (t.program limits fuel (simplify program)) .initial = p at hmirrors ⊢
  obtain ⟨i | _, s⟩ := o <;> obtain ⟨j | _, s'⟩ := p
  · obtain ⟨rfl, houtput, hsteps⟩ := hmirrors
    cases j with
    | error e =>
      refine .some ⟨?_, hsteps trivial⟩
      simp only [houtput]
    | outOfFuel => exact .none
  · exact hmirrors.elim
  · exact hmirrors.elim
  · refine .some ⟨?_, hmirrors.2.steps trivial⟩
    simp only [hmirrors.2.output]

theorem counted_simplify (ht : Economical t) {limits : Limits} {fuel n : Nat} {program : Block}
    {a : Answer} (h : t.counted limits fuel program = some (a, n)) :
    ∃ n', t.counted limits fuel (simplify program) = some (a, n') ∧ n' ≤ n := by
  have hrel := simplified_counted ht limits fuel program
  rw [h] at hrel
  cases hy : t.counted limits fuel (simplify program) with
  | none =>
    rw [hy] at hrel
    exact absurd hrel Option.not_rel_some_none
  | some y =>
    obtain ⟨a', n'⟩ := y
    rw [hy] at hrel
    obtain ⟨rfl, hle⟩ := Option.rel_some_some.mp hrel
    exact ⟨n', rfl, hle⟩

theorem counted_of_simplify (ht : Economical t) {limits : Limits} {fuel n : Nat} {program : Block}
    {a : Answer} (h : t.counted limits fuel (simplify program) = some (a, n)) :
    ∃ n', t.counted limits fuel program = some (a, n') := by
  have hrel := simplified_counted ht limits fuel program
  rw [h] at hrel
  cases hy : t.counted limits fuel program with
  | none =>
    rw [hy] at hrel
    cases hrel
  | some y =>
    obtain ⟨a', n'⟩ := y
    rw [hy] at hrel
    obtain ⟨rfl, -⟩ := Option.rel_some_some.mp hrel
    exact ⟨n', rfl⟩

end

end Offside.Tariff
