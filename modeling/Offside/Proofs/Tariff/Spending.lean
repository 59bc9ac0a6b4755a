import Offside.Proofs.Tariff

/-!
A metered walk that runs out of fuel has spent it: every turn of a loop and every call is charged at
least once, so a walk begun with `fuel` is charged `fuel` before it gives up (`spends_program`). A
program without an answer therefore keeps the machine busy for as many steps as one likes.
-/

set_option autoImplicit false
set_option relaxedAutoImplicit false

namespace Offside.Tariff

open Walk (Ensures)

section

variable {α β σ : Type} {a b n : Nat} {x : Walk α}

/-- A part of a walk that is charged at least `a`, and at least `n` if it runs out of fuel. -/
def Spends (a n : Nat) (x : Walk α) : Prop :=
  ∀ s, Ensures x s (fun _ s' ↦ s.steps + a ≤ s'.steps)
    fun i s' ↦ i = .outOfFuel → s.steps + n ≤ s'.steps

theorem Spends.mono {b k : Nat} (h : Spends a n x) (hb : b ≤ a) (hk : k ≤ n) : Spends b k x :=
  fun s ↦ (h s).mono (fun _ _ hs ↦ by omega) fun _ _ hs hi ↦ by have := hs hi; omega

theorem Spends.free (h : Spends a n x) : Spends 0 n x :=
  h.mono (Nat.zero_le a) (Nat.le_refl n)

theorem Spends.then {f : α → Walk β} (hx : Spends 0 n x) (hf : ∀ v, Spends b n (f v)) :
    Spends b n (x >>= f) := by
  intro s
  refine (hx s).bind fun v s₁ h₁ ↦ ((hf v) s₁).mono (fun _ _ h₂ ↦ ?_) fun _ _ h₂ hi ↦ ?_
  · omega
  · have := h₂ hi
    omega

/-- What the first part is charged need not be charged again. -/
theorem Spends.before {f : α → Walk β} (hx : Spends a n x) (hf : ∀ v, Spends 0 (n - a) (f v)) :
    Spends a n (x >>= f) := by
  intro s
  refine (hx s).bind fun v s₁ h₁ ↦ ((hf v) s₁).mono (fun _ _ h₂ ↦ ?_) fun _ _ h₂ hi ↦ ?_
  · omega
  · have := h₂ hi
    omega

theorem spends_pure (v : α) : Spends 0 n (pure v) :=
  fun s ↦ Nat.le_refl s.steps

theorem spends_fail (e : RuntimeError) : Spends b n (Walk.fail e : Walk α) := by
  intro s hi
  cases hi

theorem spends_charge (k : Nat) : Spends k n (charge k) :=
  fun s ↦ Nat.le_refl (s.steps + k)

theorem spends_modify {g : WalkState → WalkState} (hg : ∀ s, (g s).steps = s.steps) :
    Spends 0 n (modify g) :=
  fun s ↦ Nat.le_of_eq (hg s).symm

theorem spends_get_bind {f : WalkState → Walk α} (hf : ∀ s, Spends a n (f s)) :
    Spends a n (get >>= f) :=
  fun s ↦ hf s s

theorem spends_ofExcept (r : Except RuntimeError α) : Spends 0 n (Walk.ofExcept r) := by
  cases r with
  | ok v => exact spends_pure v
  | error e => exact spends_fail e

theorem spends_observe (reading : Heap → Except RuntimeError α) :
    Spends 0 n (Walk.observe reading) :=
  spends_get_bind fun _ ↦ spends_ofExcept _

theorem spends_onHeap (operation : Heap → Heap.Effect α) : Spends 0 n (Walk.onHeap operation) := by
  intro s
  refine Walk.ensures_onHeap (fun _ _ _ ↦ Nat.le_refl s.steps) fun e _ _ hi ↦ ?_
  cases hi

theorem spends_load (name : String) : Spends 0 n (Walk.load name) := by
  refine spends_get_bind fun s ↦ ?_
  split
  · exact spends_pure _
  · exact spends_fail _

theorem spends_store (name : String) (value : Value) : Spends 0 n (Walk.store name value) := by
  refine spends_modify fun s ↦ ?_
  unfold WalkState.bind
  split <;> rfl

variable (t : Tariff)

/-- An instruction is charged for before it is carried out. -/
theorem Spends.perform (hx : Spends 0 (n - 1) x) (operands : Nat) :
    Spends 1 n (t.perform operands x) := by
  refine ((spends_charge (operands * t.operand)).free).then
    fun _ ↦ ?_
  exact (spends_charge 1).before fun _ ↦ hx

theorem Spends.operate (hx : Spends 0 (n - 1) x) (operands : Nat) :
    Spends 1 n (t.operate operands x) := by
  refine (hx.perform t operands).before fun v ↦ ?_
  exact ((spends_charge t.result).free).then fun _ ↦ spends_pure v

theorem spends_meteredLoad (name : String) : Spends 0 n (t.load name) :=
  ((spends_charge t.lookup).free).then fun _ ↦ spends_load name

theorem spends_test (v : Value) : Spends 1 n (t.test v) :=
  Spends.perform t (spends_get_bind fun _ ↦ spends_pure _) 1

theorem spends_endTurn {rest : Walk σ} (hrest : Spends 0 n rest) (c : Completion) :
    Spends 0 n (endTurn rest c) := by
  cases c with
  | returned v => exact spends_pure _
  | next =>
    refine hrest.then fun _ ↦ ?_
    exact ((spends_charge 1).free).then fun _ ↦ spends_pure _

theorem spends_whileTurn {condition : Walk Value} {body : Walk Completion}
    (hcondition : Spends 0 n condition) (hbody : Spends 0 n body) (u : Unit) :
    Spends 1 n (t.whileTurn condition body u) := by
  refine hcondition.then fun v ↦ (spends_test t v).before fun below ↦ ?_
  split
  · refine (hbody.mono (Nat.le_refl _) (Nat.sub_le n 1)).then fun c ↦ ?_
    exact spends_endTurn (spends_pure ()) c
  · exact spends_pure _

theorem spends_countUp (counter : Value) : Spends 0 n (t.countUp counter) := by
  refine ((spends_charge _).free).then fun _ ↦ ?_
  refine ((spends_charge _).free).then fun _ ↦ ?_
  refine ((Spends.operate t (spends_onHeap _) 2).free).then
    fun next ↦ ?_
  exact (Spends.perform t (spends_pure next) 1).free

theorem spends_forTurn {body : Walk Completion} (hbody : Spends 0 n body) (name : String)
    (bound counter : Value) : Spends 1 n (t.forTurn name bound body counter) := by
  refine ((spends_charge _).free).then fun _ ↦ ?_
  refine ((spends_charge _).free).then fun _ ↦ ?_
  refine ((Spends.operate t (spends_observe _) 2).free).then
    fun v ↦ ?_
  refine (spends_test t v).before fun below ↦ ?_
  split
  · refine ((spends_charge _).free).then fun _ ↦ ?_
    refine ((Spends.perform t (spends_store name counter) 1).free).then fun _ ↦ ?_
    refine (hbody.mono (Nat.le_refl _) (Nat.sub_le n 1)).then fun c ↦ ?_
    exact spends_endTurn (spends_countUp t counter) c
  · exact spends_pure _

/-- A loop whose turns are all charged for spends the fuel that it is given. -/
theorem spends_iterate {turn : σ → Walk (σ ⊕ α)} (hturn : ∀ v, Spends 1 n (turn v))
    {fuel : Nat} (hfuel : fuel ≤ n) : ∀ v, Spends 0 fuel (Walk.iterate turn fuel v) := by
  induction fuel with
  | zero => exact fun _ s _ ↦ Nat.le_refl s.steps
  | succ fuel ih =>
    intro v
    rw [Walk.iterate]
    refine (((hturn v).mono (Nat.le_refl 1) hfuel).before fun r ↦ ?_).free
    cases r with
    | inl w => exact ih (Nat.le_of_succ_le hfuel) w
    | inr a => exact spends_pure a

end

section

variable {t : Tariff} {n : Nat} {invoke : Walk.Invocation}

theorem spends_call (hinvoke : ∀ r args, Spends 0 n (invoke r args)) (name : String)
    (args : List Value) : Spends 0 n (Walk.call invoke name args) := by
  unfold Walk.call
  split
  · exact spends_observe _
  · refine spends_get_bind fun s ↦ ?_
    split
    · exact hinvoke _ args
    · refine spends_get_bind fun s ↦ ?_
      split
      · exact spends_fail _
      · refine Spends.then (spends_onHeap _) fun made ↦ ?_
        split
        · exact (hinvoke _ _).then fun _ ↦ spends_pure made
        · split
          · exact spends_pure made
          · exact spends_fail _

theorem spends_callMethod (hinvoke : ∀ r args, Spends 0 n (invoke r args)) (receiver : Value)
    (name : String) (args : List Value) :
    Spends 0 n (Walk.callMethod invoke receiver name args) := by
  unfold Walk.callMethod
  split
  · exact spends_onHeap _
  · refine spends_get_bind fun s ↦ spends_get_bind fun s ↦ ?_
    split
    · exact hinvoke _ _
    · exact spends_fail _
  · exact spends_get_bind fun s ↦ spends_fail _

mutual

theorem spends_eval (hinvoke : ∀ r args, Spends 0 (n - 1) (invoke r args)) :
    ∀ e : Expr, Spends 0 n (t.eval invoke e)
  | .number _ => by
    rw [eval]
    exact ((spends_charge _).free).then fun _ ↦ spends_pure _
  | .boolean _ => by
    rw [eval]
    exact ((spends_charge _).free).then fun _ ↦ spends_pure _
  | .variable name => by
    rw [eval]
    exact spends_meteredLoad t name
  | .arith _ left right => by
    rw [eval]
    refine (spends_eval hinvoke left).then fun a ↦ (spends_eval hinvoke right).then fun b ↦ ?_
    exact (Spends.operate t (spends_onHeap _) 2).free
  | .compare _ left right => by
    rw [eval]
    refine (spends_eval hinvoke left).then fun a ↦ (spends_eval hinvoke right).then fun b ↦ ?_
    exact (Spends.operate t (spends_observe _) 2).free
  | .call name args => by
    rw [eval]
    refine (spends_evalAll hinvoke args).then fun values ↦ ?_
    exact (Spends.operate t (spends_call hinvoke name values) _).free
  | .list items => by
    rw [eval]
    refine (spends_evalAll hinvoke items).then fun values ↦ ?_
    exact (Spends.operate t (spends_onHeap _) _).free
  | .index name position => by
    rw [eval]
    refine (spends_meteredLoad t name).then fun list ↦ (spends_eval hinvoke position).then
      fun index ↦ ?_
    exact (Spends.operate t (spends_observe _) 2).free
  | .member object _ => by
    rw [eval]
    refine (spends_meteredLoad t object).then fun v ↦ ?_
    exact (Spends.operate t (spends_observe _) 1).free
  | .methodCall object method args => by
    rw [eval]
    refine (spends_meteredLoad t object).then fun receiver ↦ (spends_evalAll hinvoke args).then
      fun values ↦ ?_
    exact (Spends.operate t (spends_callMethod hinvoke receiver method values) _).free

theorem spends_evalAll (hinvoke : ∀ r args, Spends 0 (n - 1) (invoke r args)) :
    ∀ es : List Expr, Spends 0 n (t.evalAll invoke es)
  | [] => by
    rw [evalAll]
    exact spends_pure _
  | e :: es => by
    rw [evalAll]
    refine (spends_eval hinvoke e).then fun value ↦ ?_
    exact (spends_evalAll hinvoke es).then fun values ↦ spends_pure _

end

mutual

theorem spends_exec (hinvoke : ∀ r args, Spends 0 (n - 1) (invoke r args)) :
    ∀ s : Stmt, Spends 0 n (t.exec n invoke s)
  | .assign name value => by
    rw [exec]
    refine (spends_eval hinvoke value).then fun v ↦ Spends.then ?_ fun _ ↦ spends_pure _
    exact (Spends.perform t (spends_store name v) 1).free
  | .assignIndex name position value => by
    rw [exec]
    refine (spends_meteredLoad t name).then fun list ↦ ?_
    refine (spends_eval hinvoke position).then fun index ↦ ?_
    refine (spends_eval hinvoke value).then fun v ↦ Spends.then ?_ fun _ ↦ spends_pure _
    exact (Spends.perform t (spends_onHeap _) 3).free
  | .assignAttribute object name value => by
    rw [exec]
    refine (spends_meteredLoad t object).then fun o ↦ ?_
    refine (spends_eval hinvoke value).then fun v ↦ Spends.then ?_ fun _ ↦ spends_pure _
    exact (Spends.perform t (spends_onHeap _) 2).free
  | .print value => by
    rw [exec]
    refine (spends_eval hinvoke value).then fun v ↦ Spends.then ?_ fun _ ↦ spends_pure _
    refine Spends.free (Spends.perform t (spends_modify fun _ ↦ ?_) 1)
    rfl
  | .expr value => by
    rw [exec]
    refine (spends_eval hinvoke value).then fun v ↦ ?_
    exact ((spends_charge _).free).then fun _ ↦ spends_pure _
  | .ifElse condition body orelse => by
    rw [exec]
    refine (spends_eval hinvoke condition).then fun v ↦ ?_
    refine ((spends_test t v).free).then fun b ↦ ?_
    split
    · refine (spends_execBlock hinvoke body).then fun c ↦ ?_
      cases c with
      | returned v => exact spends_pure _
      | next =>
        exact ((spends_charge _).free).then fun _ ↦ spends_pure _
    · exact spends_execBlock hinvoke orelse
  | .whileLoop condition body => by
    rw [exec]
    exact spends_iterate (spends_whileTurn t (spends_eval hinvoke condition)
      (spends_execBlock hinvoke body)) (Nat.le_refl n) ()
  | .forRange name start stop body => by
    rw [exec]
    refine (spends_eval hinvoke start).then fun first ↦ ?_
    refine ((Spends.perform t (spends_pure ()) 1).free).then
      fun _ ↦ ?_
    refine (spends_eval hinvoke stop).then fun bound ↦ ?_
    refine ((spends_charge _).free).then fun _ ↦ ?_
    exact spends_iterate (spends_forTurn t (spends_execBlock hinvoke body) name bound)
      (Nat.le_refl n) first
  | .define routine => by
    rw [exec]
    refine ((spends_charge 1).free).then fun _ ↦ ?_
    exact Spends.then (spends_modify fun _ ↦ rfl) fun _ ↦ spends_pure _
  | .defineClass definition => by
    rw [exec]
    refine ((spends_charge 1).free).then fun _ ↦ ?_
    exact Spends.then (spends_modify fun _ ↦ rfl) fun _ ↦ spends_pure _
  | .return none => by
    rw [exec]
    exact ((spends_charge 1).free).then fun _ ↦ spends_pure _
  | .return (some value) => by
    rw [exec]
    refine (spends_eval hinvoke value).then fun v ↦ ?_
    exact ((spends_charge _).free).then fun _ ↦ spends_pure _
  | .pass => by
    rw [exec]
    exact spends_pure _

theorem spends_execBlock (hinvoke : ∀ r args, Spends 0 (n - 1) (invoke r args)) :
    ∀ block : List Stmt, Spends 0 n (t.execBlock n invoke block)
  | [] => by
    rw [execBlock]
    exact spends_pure _
  | s :: ss => by
    rw [execBlock]
    refine (spends_exec hinvoke s).then fun c ↦ ?_
    cases c with
    | returned v => exact spends_pure _
    | next => exact spends_execBlock hinvoke ss

end

/-- A call that runs out of fuel has spent all but the fuel for its own body. -/
theorem spends_invoke (limits : Limits) (fuel : Nat) :
    ∀ r args, Spends 0 (fuel - 1) (Tariff.invoke limits fuel r args) := by
  induction fuel with
  | zero => exact fun _ _ s _ ↦ Nat.le_refl s.steps
  | succ fuel ih =>
    intro r args
    rw [Tariff.invoke]
    refine spends_get_bind fun s ↦ spends_get_bind fun s' ↦ (spends_ofExcept _).then fun _ ↦ ?_
    refine Spends.then (spends_modify fun _ ↦ rfl) fun _ ↦ ?_
    refine (spends_execBlock ih r.body).then fun c ↦ ?_
    refine Spends.then (spends_modify fun _ ↦ rfl) fun _ ↦ ?_
    cases c with
    | returned v =>
      exact ((spends_charge 1).free).then fun _ ↦ spends_pure _
    | next =>
      exact ((spends_charge 2).free).then fun _ ↦ spends_pure _

/-- A program that runs out of fuel has been charged for all of it. -/
theorem spends_program (t : Tariff) (limits : Limits) (fuel : Nat) (program : Block) :
    Spends 0 fuel (t.program limits fuel program) := by
  refine (spends_execBlock (spends_invoke limits fuel) program).then fun c ↦ ?_
  cases c with
  | returned v =>
    exact ((spends_charge 1).free).then fun _ ↦ spends_fail _
  | next => exact spends_pure ()

end

end Offside.Tariff
