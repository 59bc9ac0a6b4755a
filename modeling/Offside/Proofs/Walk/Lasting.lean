import Offside.Proofs.Limits
import Offside.Proofs.Walk.Ensures

/-!
Walks under a limit on steps. Only statements and finished iterations count as steps; expressions,
arguments and calls do not. Still a walk passes no loop and no call for ever, as each turn of a loop
counts a step and so does the body of a routine, unless it is empty. So with fuel for as many turns
and as many open calls as the limit admits steps, a walk never runs out of it (`lasts_program`).
-/

set_option autoImplicit false
set_option relaxedAutoImplicit false

namespace Offside.Walk

section

variable {α β σ : Type} {n taken taken' : Nat} {l : Limits}

/-- Begun when at least `taken` steps have been counted, a part of a walk does not run out of fuel,
and takes no step back. -/
def Lasts (taken : Nat) (x : Walk α) : Prop :=
  ∀ s, taken ≤ s.steps → Ensures x s (fun _ s' ↦ s.steps ≤ s'.steps) fun i _ ↦ i ≠ .outOfFuel

/-- A turn of a loop that lasts, and counts a step that `n` admits if another turn follows. -/
def TurnLasts (n taken : Nat) (turn : Walk (σ ⊕ α)) : Prop :=
  ∀ s, taken ≤ s.steps → Ensures turn s
    (fun r s' ↦ s.steps ≤ s'.steps ∧ (r.isLeft = true → s.steps < s'.steps ∧ s.steps < n))
    fun i _ ↦ i ≠ .outOfFuel

theorem Lasts.mono {x : Walk α} (h : Lasts taken x) (hle : taken ≤ taken') : Lasts taken' x :=
  fun s hs ↦ h s (Nat.le_trans hle hs)

theorem Lasts.bind {x : Walk β} {f : β → Walk α} (hx : Lasts taken x)
    (hf : ∀ b, Lasts taken (f b)) : Lasts taken (x >>= f) := by
  intro s hs
  refine (hx s hs).bind fun b s' hle ↦ ?_
  exact (hf b s' (Nat.le_trans hs hle)).post fun _ _ hle' ↦ Nat.le_trans hle hle'

theorem Lasts.bind_turn {x : Walk β} {f : β → Walk (σ ⊕ α)} (hx : Lasts taken x)
    (hf : ∀ b, TurnLasts n taken (f b)) : TurnLasts n taken (x >>= f) := by
  intro s hs
  refine (hx s hs).bind fun b s' hle ↦ ?_
  refine (hf b s' (Nat.le_trans hs hle)).post fun r s'' ⟨hle', hleft⟩ ↦ ?_
  refine ⟨Nat.le_trans hle hle', fun hr ↦ ?_⟩
  obtain ⟨hlt, hlimit⟩ := hleft hr
  exact ⟨Nat.lt_of_le_of_lt hle hlt, Nat.lt_of_le_of_lt hle hlimit⟩

/-! ### The parts of a walk -/

theorem lasts_pure (a : α) : Lasts taken (pure a) :=
  fun s _ ↦ Nat.le_refl s.steps

theorem lasts_fail (e : RuntimeError) : Lasts taken (fail e : Walk α) :=
  fun _ _ ↦ Interrupt.noConfusion

theorem lasts_get : Lasts taken get :=
  fun s _ ↦ Nat.le_refl s.steps

theorem lasts_modify {g : WalkState → WalkState} (h : ∀ s, (g s).steps = s.steps) :
    Lasts taken (modify g) :=
  fun s _ ↦ Nat.le_of_eq (h s).symm

theorem lasts_ofExcept (r : Except RuntimeError α) : Lasts taken (ofExcept r) := by
  cases r with
  | ok a => exact lasts_pure a
  | error e => exact lasts_fail e

theorem lasts_load (name : String) : Lasts taken (load name) := by
  refine lasts_get.bind fun s ↦ ?_
  cases s.lookup name with
  | some value => exact lasts_pure value
  | none => exact lasts_fail _

theorem lasts_store (name : String) (value : Value) : Lasts taken (store name value) := by
  refine lasts_modify fun s ↦ ?_
  unfold WalkState.bind
  split <;> rfl

theorem lasts_onHeap (operation : Heap → Heap.Effect α) : Lasts taken (onHeap operation) :=
  fun s _ ↦ ensures_onHeap (fun _ _ _ ↦ Nat.le_refl s.steps) fun _ _ _ ↦ Interrupt.noConfusion

theorem lasts_observe (reading : Heap → Except RuntimeError α) : Lasts taken (observe reading) :=
  lasts_get.bind fun _ ↦ lasts_ofExcept _

/-! ### Steps -/

/-- A step that is counted is one that the limit admits. -/
theorem ensures_tick (hl : l.steps = some n) (s : WalkState) :
    Ensures (tick l) s (fun _ s' ↦ s'.steps = s.steps + 1 ∧ s.steps < n)
      fun i _ ↦ i ≠ .outOfFuel := by
  rw [tick, ensures_get_bind, ensures_bind]
  refine ensures_ofExcept (fun _ hadmitted ↦ ?_) fun _ _ ↦ Interrupt.noConfusion
  exact ⟨rfl, Limits.admitStep_eq_ok.mp hadmitted n hl⟩

/-- Behind a counted step there is one less to go, and none at the limit. -/
theorem lasts_tick_bind (hl : l.steps = some n) {f : Unit → Walk α}
    (hf : taken < n → Lasts (taken + 1) (f ())) : Lasts taken (tick l >>= f) := by
  intro s hs
  refine (ensures_tick hl s).bind fun _ s' ⟨hsteps, hlt⟩ ↦ ?_
  have hrest := hf (Nat.lt_of_le_of_lt hs hlt) s' (by omega)
  exact hrest.post fun _ s'' hle ↦ by omega

theorem turnLasts_next (hl : l.steps = some n) (x : σ) :
    TurnLasts n taken (tick l >>= fun _ ↦ pure (.inl x : σ ⊕ α)) := by
  intro s _
  refine (ensures_tick hl s).bind fun _ s' ⟨hsteps, hlt⟩ ↦ ?_
  have hle : s.steps ≤ s'.steps := by omega
  exact ⟨hle, fun _ ↦ ⟨by omega, hlt⟩⟩

theorem turnLasts_done (a : α) : TurnLasts n taken (pure (.inr a : σ ⊕ α)) :=
  fun s _ ↦ ⟨Nat.le_refl s.steps, fun h ↦ absurd h Bool.false_ne_true⟩

/-- A loop whose turns last does, with fuel for one more turn than there are steps to go. -/
theorem lasts_iterate {turn : σ → Walk (σ ⊕ α)} (hturn : ∀ x, TurnLasts n taken (turn x))
    {fuel : Nat} : ∀ {k}, taken ≤ k → n ≤ k + fuel → ∀ x, Lasts k (iterate turn (fuel + 1) x) := by
  induction fuel with
  | zero =>
    intro k hk hn x s hs
    rw [iterate]
    refine (hturn x s (Nat.le_trans hk hs)).bind fun r s' hafter ↦ ?_
    obtain ⟨hle, hleft⟩ := hafter
    cases r with
    | inl y => exact absurd (hleft rfl).2 (by omega)
    | inr a => exact hle
  | succ fuel ih =>
    intro k hk hn x s hs
    rw [iterate]
    refine (hturn x s (Nat.le_trans hk hs)).bind fun r s' hafter ↦ ?_
    obtain ⟨hle, hleft⟩ := hafter
    cases r with
    | inl y =>
      have hlt := (hleft rfl).1
      have hrest := ih (k := k + 1) (by omega) (by omega) y s' (by omega)
      exact hrest.post fun _ s'' hle' ↦ Nat.le_trans hle hle'
    | inr a => exact hle

/-- A loop behind a counted step. -/
theorem lasts_iterate_behind {turn : σ → Walk (σ ⊕ α)}
    (hturn : ∀ x, TurnLasts n (taken + 1) (turn x)) {fuel : Nat} (hfuel : n ≤ taken + fuel)
    (hlt : taken < n) (x : σ) : Lasts (taken + 1) (iterate turn fuel x) := by
  obtain ⟨fuel, rfl⟩ : ∃ k, fuel = k + 1 := ⟨fuel - 1, by omega⟩
  exact lasts_iterate hturn (Nat.le_refl _) (by omega) x

end

/-! ### Expressions -/

section

variable {taken : Nat} {invoke : Invocation}

theorem lasts_call (hinvoke : ∀ r args, Lasts taken (invoke r args)) (name : String)
    (args : List Value) : Lasts taken (call invoke name args) := by
  unfold call
  split
  · exact lasts_observe _
  · refine lasts_get.bind fun s ↦ ?_
    split
    · exact hinvoke _ args
    · refine lasts_get.bind fun s ↦ ?_
      split
      · exact lasts_fail _
      · refine (lasts_onHeap _).bind fun made ↦ ?_
        split
        · exact (hinvoke _ _).bind fun _ ↦ lasts_pure made
        · split
          · exact lasts_pure made
          · exact lasts_fail _

theorem lasts_callMethod (hinvoke : ∀ r args, Lasts taken (invoke r args)) (receiver : Value)
    (name : String) (args : List Value) : Lasts taken (callMethod invoke receiver name args) := by
  unfold callMethod
  split
  · exact lasts_onHeap _
  · refine lasts_get.bind fun s ↦ lasts_get.bind fun s' ↦ ?_
    split
    · exact hinvoke _ _
    · exact lasts_fail _
  · exact lasts_get.bind fun s ↦ lasts_fail _

mutual

theorem lasts_eval (hinvoke : ∀ r args, Lasts taken (invoke r args)) :
    ∀ e : Expr, Lasts taken (eval invoke e)
  | .number n => by
    rw [eval]
    exact lasts_pure _
  | .boolean b => by
    rw [eval]
    exact lasts_pure _
  | .variable name => by
    rw [eval]
    exact lasts_load name
  | .arith _ left right => by
    rw [eval]
    exact (lasts_eval hinvoke left).bind fun _ ↦ (lasts_eval hinvoke right).bind fun _ ↦
      lasts_onHeap _
  | .compare _ left right => by
    rw [eval]
    exact (lasts_eval hinvoke left).bind fun _ ↦ (lasts_eval hinvoke right).bind fun _ ↦
      (lasts_observe _).bind fun _ ↦ lasts_pure _
  | .call name args => by
    rw [eval]
    exact (lasts_evalAll hinvoke args).bind fun _ ↦ lasts_call hinvoke name _
  | .list items => by
    rw [eval]
    exact (lasts_evalAll hinvoke items).bind fun _ ↦ lasts_onHeap _
  | .index name position => by
    rw [eval]
    exact (lasts_load name).bind fun _ ↦ (lasts_eval hinvoke position).bind fun _ ↦
      lasts_observe _
  | .member object name => by
    rw [eval]
    exact (lasts_load object).bind fun _ ↦ lasts_observe _
  | .methodCall object method args => by
    rw [eval]
    exact (lasts_load object).bind fun receiver ↦ (lasts_evalAll hinvoke args).bind fun _ ↦
      lasts_callMethod hinvoke receiver method _

theorem lasts_evalAll (hinvoke : ∀ r args, Lasts taken (invoke r args)) :
    ∀ es : List Expr, Lasts taken (evalAll invoke es)
  | [] => by
    rw [evalAll]
    exact lasts_pure _
  | e :: es => by
    rw [evalAll]
    exact (lasts_eval hinvoke e).bind fun _ ↦ (lasts_evalAll hinvoke es).bind fun _ ↦ lasts_pure _

end

end

/-! ### Statements -/

section

variable {n taken fuel : Nat} {l : Limits} {invoke : Invocation}

mutual

/-- A statement lasts with fuel for as many turns of its loops as there are steps to go, if calls
last behind one more step. -/
theorem lasts_exec (hl : l.steps = some n) (hfuel : n ≤ taken + fuel)
    (hinvoke : taken < n → ∀ r args, Lasts (taken + 1) (invoke r args)) :
    ∀ st : Stmt, Lasts taken (exec l fuel invoke st)
  | .assign name value => by
    rw [exec]
    refine lasts_tick_bind hl fun hlt ↦ ?_
    exact (lasts_eval (hinvoke hlt) value).bind fun _ ↦ (lasts_store name _).bind fun _ ↦
      lasts_pure _
  | .assignIndex name position value => by
    rw [exec]
    refine lasts_tick_bind hl fun hlt ↦ (lasts_load name).bind fun _ ↦ ?_
    exact (lasts_eval (hinvoke hlt) position).bind fun _ ↦
      (lasts_eval (hinvoke hlt) value).bind fun _ ↦ (lasts_onHeap _).bind fun _ ↦ lasts_pure _
  | .assignAttribute object name value => by
    rw [exec]
    refine lasts_tick_bind hl fun hlt ↦ (lasts_load object).bind fun _ ↦ ?_
    exact (lasts_eval (hinvoke hlt) value).bind fun _ ↦ (lasts_onHeap _).bind fun _ ↦ lasts_pure _
  | .print value => by
    rw [exec]
    refine lasts_tick_bind hl fun hlt ↦ (lasts_eval (hinvoke hlt) value).bind fun v ↦ ?_
    exact Lasts.bind (lasts_modify fun _ ↦ rfl) fun _ ↦ lasts_pure _
  | .expr value => by
    rw [exec]
    refine lasts_tick_bind hl fun hlt ↦ ?_
    exact (lasts_eval (hinvoke hlt) value).bind fun _ ↦ lasts_pure _
  | .ifElse condition body orelse => by
    rw [exec]
    refine lasts_tick_bind hl fun hlt ↦ (lasts_eval (hinvoke hlt) condition).bind fun v ↦
      lasts_get.bind fun s ↦ ?_
    split
    · exact (lasts_execBlock hl hfuel hinvoke body).mono (Nat.le_succ _)
    · exact (lasts_execBlock hl hfuel hinvoke orelse).mono (Nat.le_succ _)
  | .whileLoop condition body => by
    rw [exec]
    refine lasts_tick_bind hl fun hlt ↦ lasts_iterate_behind (fun _ ↦ ?_) hfuel hlt ()
    refine (lasts_eval (hinvoke hlt) condition).bind_turn fun v ↦ lasts_get.bind_turn fun s ↦ ?_
    split
    · have hbody := (lasts_execBlock hl hfuel hinvoke body).mono (Nat.le_succ _)
      refine hbody.bind_turn fun c ↦ ?_
      cases c with
      | returned value => exact turnLasts_done _
      | next => exact turnLasts_next hl ()
    · exact turnLasts_done _
  | .forRange name start stop body => by
    rw [exec]
    refine lasts_tick_bind hl fun hlt ↦ (lasts_eval (hinvoke hlt) start).bind fun first ↦
      (lasts_eval (hinvoke hlt) stop).bind fun bound ↦
        lasts_iterate_behind (fun counter ↦ ?_) hfuel hlt first
    refine (lasts_observe _).bind_turn fun inside ↦ ?_
    split
    · have hbody := (lasts_execBlock hl hfuel hinvoke body).mono (Nat.le_succ _)
      refine (lasts_store name counter).bind_turn fun _ ↦ hbody.bind_turn fun c ↦ ?_
      cases c with
      | returned value => exact turnLasts_done _
      | next => exact (lasts_onHeap _).bind_turn fun next ↦ turnLasts_next hl next
    · exact turnLasts_done _
  | .define _ => by
    rw [exec]
    exact lasts_tick_bind hl fun _ ↦ Lasts.bind (lasts_modify fun _ ↦ rfl) fun _ ↦ lasts_pure _
  | .defineClass _ => by
    rw [exec]
    exact lasts_tick_bind hl fun _ ↦ Lasts.bind (lasts_modify fun _ ↦ rfl) fun _ ↦ lasts_pure _
  | .return none => by
    rw [exec]
    exact lasts_tick_bind hl fun _ ↦ lasts_pure _
  | .return (some value) => by
    rw [exec]
    refine lasts_tick_bind hl fun hlt ↦ ?_
    exact (lasts_eval (hinvoke hlt) value).bind fun _ ↦ lasts_pure _
  | .pass => by
    rw [exec]
    exact lasts_tick_bind hl fun _ ↦ lasts_pure _

theorem lasts_execBlock (hl : l.steps = some n) (hfuel : n ≤ taken + fuel)
    (hinvoke : taken < n → ∀ r args, Lasts (taken + 1) (invoke r args)) :
    ∀ block : List Stmt, Lasts taken (execBlock l fuel invoke block)
  | [] => by
    rw [execBlock]
    exact lasts_pure _
  | st :: sts => by
    rw [execBlock]
    refine (lasts_exec hl hfuel hinvoke st).bind fun c ↦ ?_
    cases c with
    | returned value => exact lasts_pure _
    | next => exact lasts_execBlock hl hfuel hinvoke sts

end

end

/-! ### Routines and programs -/

section

variable {n fuel : Nat} {l : Limits}

/-- A call lasts if the body of the routine does. -/
theorem lasts_invocation {taken : Nat} {r : Routine Block}
    (hbody : Lasts taken (execBlock l fuel (invoke l fuel) r.body)) (args : List Value) :
    Lasts taken (invoke l (fuel + 1) r args) := by
  rw [invoke]
  refine lasts_get.bind fun s ↦ lasts_get.bind fun s' ↦ (lasts_ofExcept _).bind fun _ ↦ ?_
  refine Lasts.bind (lasts_modify fun _ ↦ rfl) fun _ ↦ hbody.bind fun c ↦ ?_
  refine Lasts.bind (lasts_modify fun _ ↦ rfl) fun _ ↦ ?_
  cases c <;> exact lasts_pure _

/-- A call lasts with fuel for one more open call than there are steps to go: the statements of a
body count, so what the body calls has one step less to go. -/
theorem lasts_invoke (hl : l.steps = some n) {taken : Nat} (hfuel : n ≤ taken + fuel)
    (r : Routine Block) (args : List Value) : Lasts taken (invoke l (fuel + 1) r args) := by
  induction fuel generalizing taken r args with
  | zero =>
    have hinvoke : taken < n → ∀ r args, Lasts (taken + 1) (invoke l 0 r args) :=
      fun hlt ↦ absurd hfuel (Nat.not_le_of_lt hlt)
    exact lasts_invocation (lasts_execBlock hl hfuel hinvoke r.body) args
  | succ fuel ih =>
    have hinvoke : taken < n → ∀ r args, Lasts (taken + 1) (invoke l (fuel + 1) r args) :=
      fun _ ↦ ih (by omega)
    exact lasts_invocation (lasts_execBlock hl hfuel hinvoke r.body) args

/-- A program lasts with fuel for as many turns and open calls as the limit admits steps. -/
theorem lasts_program (hl : l.steps = some n) (statements : Block) :
    Lasts 0 (program l n statements) := by
  have hinvoke : 0 < n → ∀ r args, Lasts (0 + 1) (invoke l n r args) := by
    intro hn r args
    obtain ⟨fuel, rfl⟩ : ∃ k, n = k + 1 := ⟨n - 1, by omega⟩
    exact lasts_invoke hl (by omega) r args
  refine (lasts_execBlock hl (by omega) hinvoke statements).bind fun c ↦ ?_
  cases c with
  | next => exact lasts_pure ()
  | returned value => exact lasts_fail _

end

end Offside.Walk
