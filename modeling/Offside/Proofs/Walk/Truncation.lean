import Offside.Proofs.Limits
import Offside.Proofs.Walk.Ensures

/-!
Walks cut short. `Truncates E x y` says that from every state `x` does what `y` does, or is
interrupted before with a cause in `E` and has printed a part of the lines that `y` prints. A
program under narrower limits or with less fuel truncates the program under wider ones or with more
(`truncates_program`); there is one rule for each of the parts that walks are put together from.
-/

set_option autoImplicit false
set_option relaxedAutoImplicit false

namespace Offside.Walk

section

variable {α β σ : Type} {E : Interrupt → Prop} {l l' : Limits}

/-- Begun in `s`, the part `y` prints behind what has been printed before, and `x` does the same or
is interrupted with a cause in `E` on the way. -/
structure TruncatesAt (E : Interrupt → Prop) (s : WalkState) (x y : Walk α) : Prop where
  prints : s.output.toList <+: (outcome y s).2.output.toList
  same_or_stops : outcome x s = outcome y s ∨
    ∃ i s', outcome x s = (.error i, s') ∧ E i ∧
      s'.output.toList <+: (outcome y s).2.output.toList

/-- From every state `x` does what `y` does or is interrupted with a cause in `E` on the way. -/
def Truncates (E : Interrupt → Prop) (x y : Walk α) : Prop :=
  ∀ s, TruncatesAt E s x y

/-- A part of a walk that is not cut short. -/
theorem truncates_self {x : Walk α}
    (h : ∀ s, s.output.toList <+: (outcome x s).2.output.toList) : Truncates E x x :=
  fun s ↦ ⟨h s, .inl rfl⟩

/-- A part of a walk that prints nothing. -/
theorem truncates_silent {x : Walk α} (h : ∀ s, (outcome x s).2.output = s.output) :
    Truncates E x x :=
  truncates_self fun s ↦ ⟨[], by rw [h, List.append_nil]⟩

theorem truncates_pure (a : α) : Truncates E (pure a) (pure a) :=
  truncates_silent fun _ ↦ rfl

theorem truncates_throw (i : Interrupt) : Truncates E (throw i : Walk α) (throw i) :=
  truncates_silent fun _ ↦ rfl

theorem truncates_fail (e : RuntimeError) : Truncates E (fail e : Walk α) (fail e) :=
  truncates_throw (.error e)

theorem truncates_get : Truncates E get get :=
  truncates_silent fun _ ↦ rfl

theorem truncates_modify {g : WalkState → WalkState} (h : ∀ s, (g s).output = s.output) :
    Truncates E (modify g) (modify g) :=
  truncates_silent h

theorem truncates_ofExcept (r : Except RuntimeError α) :
    Truncates E (ofExcept r) (ofExcept r) := by
  cases r with
  | ok a => exact truncates_pure a
  | error e => exact truncates_fail e

/-- What is interrupted at once truncates everything that prints behind what has been printed. -/
theorem truncates_stop {y : Walk α} (h : Truncates E y y) {i : Interrupt} (hi : E i) :
    Truncates E (throw i) y :=
  fun s ↦ ⟨(h s).prints, .inr ⟨i, s, rfl, hi, (h s).prints⟩⟩

/-- What is truncated prints behind what has been printed. -/
theorem Truncates.right {x y : Walk α} (h : Truncates E x y) : Truncates E y y :=
  truncates_self fun s ↦ (h s).prints

theorem Truncates.bind {x y : Walk β} {f g : β → Walk α} (hx : Truncates E x y)
    (hf : ∀ b, Truncates E (f b) (g b)) : Truncates E (x >>= f) (y >>= g) := by
  intro s
  obtain ⟨hprints, hstops⟩ := hx s
  have hrest : (outcome y s).2.output.toList <+: (outcome (y >>= g) s).2.output.toList := by
    rw [outcome_bind]
    generalize outcome y s = o
    obtain ⟨i | b, s'⟩ := o
    · exact List.prefix_refl _
    · exact (hf b s').prints
  refine ⟨hprints.trans hrest, ?_⟩
  rcases hstops with hsame | ⟨i, s', hstops, hi, hpart⟩
  · rw [outcome_bind, outcome_bind, hsame]
    generalize outcome y s = o
    obtain ⟨i | b, s'⟩ := o
    · exact .inl rfl
    · exact (hf b s').same_or_stops
  · refine .inr ⟨i, s', ?_, hi, hpart.trans hrest⟩
    rw [outcome_bind, hstops]

theorem truncates_load (name : String) : Truncates E (load name) (load name) := by
  refine truncates_get.bind fun s ↦ ?_
  cases s.lookup name with
  | some value => exact truncates_pure value
  | none => exact truncates_fail _

theorem truncates_store (name : String) (value : Value) :
    Truncates E (store name value) (store name value) := by
  refine truncates_modify fun s ↦ ?_
  unfold WalkState.bind
  split <;> rfl

theorem truncates_onHeap (operation : Heap → Heap.Effect α) :
    Truncates E (onHeap operation) (onHeap operation) :=
  truncates_silent fun _ ↦ rfl

theorem truncates_observe (reading : Heap → Except RuntimeError α) :
    Truncates E (observe reading) (observe reading) :=
  truncates_get.bind fun _ ↦ truncates_ofExcept _

theorem truncates_allocate (cell : Heap → Value × Heap) :
    Truncates E (allocate cell) (allocate cell) :=
  truncates_onHeap _

/-! ### Fuel and limits -/

/-- The fuel is the same, or less and running out of it is in `E`. -/
def Shortens (E : Interrupt → Prop) (fuel fuel' : Nat) : Prop :=
  fuel = fuel' ∨ fuel ≤ fuel' ∧ E .outOfFuel

/-- The limits are the same, or narrower and meeting them is in `E`. -/
def Narrows (E : Interrupt → Prop) (l l' : Limits) : Prop :=
  l = l' ∨ l ≤ l' ∧ ∀ e, l.Exceeded e → E (.error e)

theorem Shortens.pred {fuel fuel' : Nat} (h : Shortens E (fuel + 1) fuel') :
    ∃ n, fuel' = n + 1 ∧ Shortens E fuel n := by
  rcases h with rfl | ⟨hle, houtOfFuel⟩
  · exact ⟨fuel, rfl, .inl rfl⟩
  · obtain ⟨n, rfl⟩ := Nat.exists_eq_add_of_le' (Nat.le_trans (Nat.le_add_left 1 fuel) hle)
    exact ⟨n, rfl, .inr ⟨Nat.le_of_succ_le_succ hle, houtOfFuel⟩⟩

theorem truncates_turn {turn turn' : σ → Walk (σ ⊕ α)} {fuel fuel' : Nat}
    (hturn : ∀ x, Truncates E (turn x) (turn' x))
    (hrest : ∀ x, Truncates E (iterate turn fuel x) (iterate turn' fuel' x)) (x : σ) :
    Truncates E (iterate turn (fuel + 1) x) (iterate turn' (fuel' + 1) x) := by
  rw [iterate, iterate]
  refine (hturn x).bind fun r ↦ ?_
  cases r with
  | inl y => exact hrest y
  | inr a => exact truncates_pure a

/-- Loops whose turns are truncated are truncated. -/
theorem truncates_iterate {turn turn' : σ → Walk (σ ⊕ α)} {fuel fuel' : Nat}
    (hturn : ∀ x, Truncates E (turn x) (turn' x)) (hfuel : Shortens E fuel fuel') :
    ∀ x, Truncates E (iterate turn fuel x) (iterate turn' fuel' x) := by
  have hsame : ∀ fuel x, Truncates E (iterate turn' fuel x) (iterate turn' fuel x) := by
    intro fuel
    induction fuel with
    | zero => exact fun _ ↦ truncates_throw .outOfFuel
    | succ fuel ih => exact truncates_turn (fun x ↦ (hturn x).right) ih
  induction fuel generalizing fuel' with
  | zero =>
    intro x
    rcases hfuel with rfl | ⟨-, houtOfFuel⟩
    · exact truncates_throw .outOfFuel
    · exact truncates_stop (hsame fuel' x) houtOfFuel
  | succ fuel ih =>
    obtain ⟨n, rfl, hrest⟩ := hfuel.pred
    exact truncates_turn hturn (ih hrest)

/-- What narrower limits refuse, and wider ones only if narrower ones do. -/
theorem truncates_admission {r r' : Except RuntimeError Unit} (hok : r = .ok () → r' = .ok ())
    (herror : ∀ e, r = .error e → E (.error e)) : Truncates E (ofExcept r) (ofExcept r') := by
  cases r with
  | ok _ =>
    rw [hok rfl]
    exact truncates_pure ()
  | error e => exact truncates_stop (truncates_ofExcept r') (herror e rfl)

theorem truncates_tick (hlimits : Narrows E l l') : Truncates E (tick l) (tick l') := by
  refine truncates_get.bind fun s ↦ Truncates.bind ?_ fun _ ↦ truncates_modify fun _ ↦ rfl
  rcases hlimits with rfl | ⟨hle, hexceeded⟩
  · exact truncates_ofExcept _
  · exact truncates_admission (Limits.admitStep_of_le hle) fun e he ↦
      hexceeded e (Limits.exceeded_of_admitStep he)

theorem truncates_admitEntry (hlimits : Narrows E l l') (name : String) (params : List String)
    (arguments opened : Nat) :
    Truncates E (ofExcept (l.admitEntry name params arguments opened))
      (ofExcept (l'.admitEntry name params arguments opened)) := by
  unfold Limits.admitEntry
  by_cases harity : params.length = arguments
  · rw [if_pos harity, if_pos harity]
    rcases hlimits with rfl | ⟨hle, hexceeded⟩
    · exact truncates_ofExcept _
    · exact truncates_admission (Limits.admitCall_of_le hle) fun e he ↦
        hexceeded e (Limits.exceeded_of_admitCall he)
  · rw [if_neg harity, if_neg harity]
    exact truncates_ofExcept _

end

/-- A way to run routines that truncates another one. -/
def InvokesTruncated (E : Interrupt → Prop) (invoke invoke' : Invocation) : Prop :=
  ∀ r args, Truncates E (invoke r args) (invoke' r args)

/-! ### Expressions -/

section

variable {E : Interrupt → Prop} {l l' : Limits} {fuel fuel' : Nat}
  {invoke invoke' : Invocation}

theorem truncates_call (hinvoke : InvokesTruncated E invoke invoke') (name : String)
    (args : List Value) :
    Truncates E (call invoke name args) (call invoke' name args) := by
  unfold call
  split
  · exact truncates_observe _
  · refine truncates_get.bind fun s ↦ ?_
    split
    · exact hinvoke _ args
    · refine truncates_get.bind fun s ↦ ?_
      split
      · exact truncates_fail _
      · refine (truncates_allocate _).bind fun made ↦ ?_
        split
        · exact (hinvoke _ _).bind fun _ ↦ truncates_pure made
        · split
          · exact truncates_pure made
          · exact truncates_fail _

theorem truncates_callMethod (hinvoke : InvokesTruncated E invoke invoke') (receiver : Value)
    (name : String) (args : List Value) :
    Truncates E (callMethod invoke receiver name args) (callMethod invoke' receiver name args) := by
  unfold callMethod
  split
  · exact truncates_onHeap _
  · refine truncates_get.bind fun s ↦ truncates_get.bind fun s' ↦ ?_
    split
    · exact hinvoke _ _
    · exact truncates_fail _
  · exact truncates_get.bind fun s ↦ truncates_fail _

mutual

theorem truncates_eval (hinvoke : InvokesTruncated E invoke invoke') :
    ∀ e : Expr, Truncates E (eval invoke e) (eval invoke' e)
  | .number n => by
    rw [eval, eval]
    exact truncates_pure _
  | .boolean b => by
    rw [eval, eval]
    exact truncates_pure _
  | .variable name => by
    rw [eval, eval]
    exact truncates_load name
  | .arith _ left right => by
    rw [eval, eval]
    exact (truncates_eval hinvoke left).bind fun _ ↦ (truncates_eval hinvoke right).bind fun _ ↦
      truncates_onHeap _
  | .compare _ left right => by
    rw [eval, eval]
    exact (truncates_eval hinvoke left).bind fun _ ↦ (truncates_eval hinvoke right).bind fun _ ↦
      (truncates_observe _).bind fun _ ↦ truncates_pure _
  | .call name args => by
    rw [eval, eval]
    exact (truncates_evalAll hinvoke args).bind fun _ ↦ truncates_call hinvoke name _
  | .list items => by
    rw [eval, eval]
    exact (truncates_evalAll hinvoke items).bind fun _ ↦ truncates_allocate _
  | .index name position => by
    rw [eval, eval]
    exact (truncates_load name).bind fun _ ↦ (truncates_eval hinvoke position).bind fun _ ↦
      truncates_observe _
  | .member object name => by
    rw [eval, eval]
    exact (truncates_load object).bind fun _ ↦ truncates_observe _
  | .methodCall object method args => by
    rw [eval, eval]
    exact (truncates_load object).bind fun receiver ↦
      (truncates_evalAll hinvoke args).bind fun _ ↦ truncates_callMethod hinvoke receiver method _

theorem truncates_evalAll (hinvoke : InvokesTruncated E invoke invoke') :
    ∀ es : List Expr, Truncates E (evalAll invoke es) (evalAll invoke' es)
  | [] => by
    rw [evalAll, evalAll]
    exact truncates_pure _
  | e :: es => by
    rw [evalAll, evalAll]
    exact (truncates_eval hinvoke e).bind fun _ ↦ (truncates_evalAll hinvoke es).bind fun _ ↦
      truncates_pure _

end

/-! ### Statements -/

mutual

theorem truncates_exec (hlimits : Narrows E l l') (hfuel : Shortens E fuel fuel')
    (hinvoke : InvokesTruncated E invoke invoke') :
    ∀ st : Stmt, Truncates E (exec l fuel invoke st) (exec l' fuel' invoke' st)
  | .assign name value => by
    rw [exec, exec]
    exact (truncates_tick hlimits).bind fun _ ↦ (truncates_eval hinvoke value).bind fun _ ↦
      (truncates_store name _).bind fun _ ↦ truncates_pure _
  | .assignIndex name position value => by
    rw [exec, exec]
    exact (truncates_tick hlimits).bind fun _ ↦ (truncates_load name).bind fun _ ↦
      (truncates_eval hinvoke position).bind fun _ ↦ (truncates_eval hinvoke value).bind fun _ ↦
        (truncates_onHeap _).bind fun _ ↦ truncates_pure _
  | .assignAttribute object name value => by
    rw [exec, exec]
    exact (truncates_tick hlimits).bind fun _ ↦ (truncates_load object).bind fun _ ↦
      (truncates_eval hinvoke value).bind fun _ ↦ (truncates_onHeap _).bind fun _ ↦
        truncates_pure _
  | .print value => by
    rw [exec, exec]
    refine (truncates_tick hlimits).bind fun _ ↦ (truncates_eval hinvoke value).bind fun v ↦ ?_
    refine (truncates_self fun s ↦ ?_).bind fun _ ↦ truncates_pure _
    exact ⟨[s.heap.text v], Array.toList_push.symm⟩
  | .expr value => by
    rw [exec, exec]
    exact (truncates_tick hlimits).bind fun _ ↦ (truncates_eval hinvoke value).bind fun _ ↦
      truncates_pure _
  | .ifElse condition body orelse => by
    rw [exec, exec]
    refine (truncates_tick hlimits).bind fun _ ↦ (truncates_eval hinvoke condition).bind fun v ↦
      truncates_get.bind fun s ↦ ?_
    split
    · exact truncates_execBlock hlimits hfuel hinvoke body
    · exact truncates_execBlock hlimits hfuel hinvoke orelse
  | .whileLoop condition body => by
    rw [exec, exec]
    refine (truncates_tick hlimits).bind fun _ ↦ truncates_iterate (fun _ ↦ ?_) hfuel ()
    refine (truncates_eval hinvoke condition).bind fun v ↦ truncates_get.bind fun s ↦ ?_
    split
    · refine (truncates_execBlock hlimits hfuel hinvoke body).bind fun c ↦ ?_
      cases c with
      | returned value => exact truncates_pure _
      | next => exact (truncates_tick hlimits).bind fun _ ↦ truncates_pure _
    · exact truncates_pure _
  | .forRange name start stop body => by
    rw [exec, exec]
    refine (truncates_tick hlimits).bind fun _ ↦ (truncates_eval hinvoke start).bind fun first ↦
      (truncates_eval hinvoke stop).bind fun bound ↦
        truncates_iterate (fun counter ↦ ?_) hfuel first
    refine (truncates_observe _).bind fun inside ↦ ?_
    split
    · refine (truncates_store name counter).bind fun _ ↦
        (truncates_execBlock hlimits hfuel hinvoke body).bind fun c ↦ ?_
      cases c with
      | returned value => exact truncates_pure _
      | next =>
        exact (truncates_onHeap _).bind fun _ ↦ (truncates_tick hlimits).bind fun _ ↦
          truncates_pure _
    · exact truncates_pure _
  | .define _ => by
    rw [exec, exec]
    refine (truncates_tick hlimits).bind fun _ ↦ ?_
    exact Truncates.bind (truncates_modify fun _ ↦ rfl) fun _ ↦ truncates_pure _
  | .defineClass _ => by
    rw [exec, exec]
    refine (truncates_tick hlimits).bind fun _ ↦ ?_
    exact Truncates.bind (truncates_modify fun _ ↦ rfl) fun _ ↦ truncates_pure _
  | .return none => by
    rw [exec, exec]
    exact (truncates_tick hlimits).bind fun _ ↦ truncates_pure _
  | .return (some value) => by
    rw [exec, exec]
    exact (truncates_tick hlimits).bind fun _ ↦ (truncates_eval hinvoke value).bind fun _ ↦
      truncates_pure _
  | .pass => by
    rw [exec, exec]
    exact (truncates_tick hlimits).bind fun _ ↦ truncates_pure _

theorem truncates_execBlock (hlimits : Narrows E l l') (hfuel : Shortens E fuel fuel')
    (hinvoke : InvokesTruncated E invoke invoke') :
    ∀ block : List Stmt,
      Truncates E (execBlock l fuel invoke block) (execBlock l' fuel' invoke' block)
  | [] => by
    rw [execBlock, execBlock]
    exact truncates_pure _
  | st :: sts => by
    rw [execBlock, execBlock]
    refine (truncates_exec hlimits hfuel hinvoke st).bind fun c ↦ ?_
    cases c with
    | returned value => exact truncates_pure _
    | next => exact truncates_execBlock hlimits hfuel hinvoke sts

end

end

/-! ### Routines and programs -/

section

variable {E : Interrupt → Prop} {l l' : Limits} {fuel fuel' : Nat}

theorem truncates_invocation (hlimits : Narrows E l l') (hfuel : Shortens E fuel fuel')
    (hinner : InvokesTruncated E (invoke l fuel) (invoke l' fuel')) :
    InvokesTruncated E (invoke l (fuel + 1)) (invoke l' (fuel' + 1)) := by
  intro r args
  rw [Walk.invoke, Walk.invoke]
  refine truncates_get.bind fun s ↦ truncates_get.bind fun s' ↦
    (truncates_admitEntry hlimits _ _ _ _).bind fun _ ↦ ?_
  refine Truncates.bind (truncates_modify fun _ ↦ rfl) fun _ ↦ ?_
  refine (truncates_execBlock hlimits hfuel hinner r.body).bind fun c ↦ ?_
  refine Truncates.bind (truncates_modify fun _ ↦ rfl) fun _ ↦ ?_
  cases c with
  | returned value => exact truncates_pure _
  | next => exact truncates_pure _

theorem invokesTruncated (hlimits : Narrows E l l') (hfuel : Shortens E fuel fuel') :
    InvokesTruncated E (invoke l fuel) (invoke l' fuel') := by
  have hsame : ∀ fuel, InvokesTruncated E (invoke l' fuel) (invoke l' fuel) := by
    intro fuel
    induction fuel with
    | zero => exact fun _ _ ↦ truncates_throw .outOfFuel
    | succ fuel ih => exact truncates_invocation (.inl rfl) (.inl rfl) ih
  induction fuel generalizing fuel' with
  | zero =>
    intro r args
    rcases hfuel with rfl | ⟨-, houtOfFuel⟩
    · exact truncates_throw .outOfFuel
    · exact truncates_stop (hsame fuel' r args) houtOfFuel
  | succ fuel ih =>
    obtain ⟨n, rfl, hrest⟩ := hfuel.pred
    exact truncates_invocation hlimits hrest (ih hrest)

theorem truncates_program (hlimits : Narrows E l l') (hfuel : Shortens E fuel fuel')
    (statements : Block) :
    Truncates E (program l fuel statements) (program l' fuel' statements) := by
  refine (truncates_execBlock hlimits hfuel (invokesTruncated hlimits hfuel) statements).bind
    fun c ↦ ?_
  cases c with
  | next => exact truncates_pure ()
  | returned value => exact truncates_fail _

end

end Offside.Walk
