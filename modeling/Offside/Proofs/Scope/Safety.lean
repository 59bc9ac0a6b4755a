import Offside.Proofs.Scope.Operations
import Offside.Proofs.Scope.Scoped
import Offside.Proofs.Walk.Ensures

/-!
The walk of a well-formed program meets no unbound variable and no `return` outside of a routine,
under any limits (`walk_safe`). `Safe` is what holds between the statements: the variables in scope
are bound, and whatever can be called is scoped in the global variables bound so far. Since a call
has variables of its own and global ones are never removed, it keeps what is bound for its caller.
-/

set_option autoImplicit false
set_option relaxedAutoImplicit false

namespace Offside

/-! ### Safe states -/

namespace Bindings

variable {α : Type}

theorem get?_set_ne_none {b : Bindings α} {name x : String} (value : α)
    (h : x = name ∨ b.get? x ≠ none) : (b.set name value).get? x ≠ none := by
  rw [get?_set]
  split
  · exact Option.some_ne_none value
  · next hne => exact h.resolve_left fun heq ↦ hne heq.symm

theorem get?_setAll_ne_none {pairs : List (String × α)} {x : String} :
    ∀ {b : Bindings α}, (x ∈ pairs.map Prod.fst ∨ b.get? x ≠ none) →
      (b.setAll pairs).get? x ≠ none := by
  induction pairs with
  | nil => exact fun h ↦ h.resolve_left List.not_mem_nil
  | cons pair pairs ih =>
    intro b h
    refine ih ?_
    rcases h with h | h
    · rcases List.mem_cons.mp h with rfl | h
      · exact .inr (get?_set_ne_none _ (.inl rfl))
      · exact .inl h
    · exact .inr (get?_set_ne_none _ (.inr h))

end Bindings

theorem or_ne_none {α : Type} {a b : Option α} : a.or b ≠ none ↔ a ≠ none ∨ b ≠ none := by
  cases a <;> simp

/-- A routine whose body is scoped in global variables that are bound. -/
def Callable (globals : Bindings Value) (r : Routine Block) : Prop :=
  ∃ P, RoutineScoped P r ∧ ∀ x, P x → globals.get? x ≠ none

theorem Callable.mono {globals globals' : Bindings Value} {r : Routine Block}
    (h : Callable globals r) (hkept : ∀ x, globals.get? x ≠ none → globals'.get? x ≠ none) :
    Callable globals' r := by
  obtain ⟨P, hr, hP⟩ := h
  exact ⟨P, hr, fun x hx ↦ hkept x (hP x hx)⟩

/-- A state of a walk in which the variables of `P` are bound, those of `G` globally, and whatever
can be called is scoped. `i` says whether a routine is being run. -/
structure Safe (i : Bool) (G P : String → Prop) (s : WalkState) : Prop where
  functions : ∀ n r, s.functions.get? n = some r → Callable s.globals r
  classes : ∀ n c, s.classes.get? n = some c → ∀ m ∈ c.methods, Callable s.globals m
  globals : ∀ x, G x → s.globals.get? x ≠ none
  bound : ∀ x, P x → s.lookup x ≠ none
  frame : s.locals.isSome = i

namespace Safe

variable {i : Bool} {G P Q : String → Prop} {s : WalkState}

theorem mono (h : Safe i G P s) (hQ : ∀ x, Q x → P x) : Safe i G Q s :=
  { h with bound := fun x hx ↦ h.bound x (hQ x hx) }

/-- Only the variables and the tables matter. -/
theorem congr {s' : WalkState} (h : Safe i G P s) (hglobals : s'.globals = s.globals)
    (hlocals : s'.locals = s.locals) (hfunctions : s'.functions = s.functions)
    (hclasses : s'.classes = s.classes) : Safe i G P s' := by
  obtain ⟨globals, locals, functions, classes, heap, steps, depth, output⟩ := s
  obtain ⟨globals', locals', functions', classes', heap', steps', depth', output'⟩ := s'
  cases hglobals
  cases hlocals
  cases hfunctions
  cases hclasses
  exact ⟨h.functions, h.classes, h.globals, h.bound, h.frame⟩

theorem withHeap (h : Safe i G P s) (heap : Heap) : Safe i G P { s with heap := heap } :=
  h.congr rfl rfl rfl rfl

/-- Binding a variable. -/
theorem bind (h : Safe i G P s) (name : String) (value : Value) :
    Safe i G (Declaring name P) (s.bind name value) := by
  obtain ⟨globals, locals, functions, classes, heap, steps, depth, output⟩ := s
  cases locals with
  | none =>
    have hkept : ∀ x, globals.get? x ≠ none → (globals.set name value).get? x ≠ none :=
      fun x hx ↦ Bindings.get?_set_ne_none value (.inr hx)
    refine ⟨fun n r hr ↦ (h.functions n r hr).mono hkept,
      fun n c hc m hm ↦ (h.classes n c hc m hm).mono hkept, fun x hx ↦ hkept x (h.globals x hx),
      fun x hx ↦ ?_, h.frame⟩
    exact Bindings.get?_set_ne_none value (hx.imp_right (h.bound x))
  | some locals =>
    refine ⟨h.functions, h.classes, h.globals, fun x hx ↦ ?_, h.frame⟩
    show ((locals.set name value).get? x).or (globals.get? x) ≠ none
    rw [Bindings.get?_set]
    split
    · simp
    · next hne => exact hx.elim (fun heq ↦ absurd heq.symm hne) (h.bound x)

theorem define (h : Safe false G P s) {r : Routine Block} (hr : RoutineScoped P r) :
    Safe false G P { s with functions := s.functions.set r.name r } := by
  obtain ⟨globals, locals, functions, classes, heap, steps, depth, output⟩ := s
  obtain rfl : locals = none := Option.not_isSome_iff_eq_none.mp (by simp [h.frame])
  refine ⟨fun n r' hr' ↦ ?_, h.classes, h.globals, h.bound, rfl⟩
  rw [Bindings.get?_set] at hr'
  split at hr'
  · cases hr'
    exact ⟨P, hr, h.bound⟩
  · exact h.functions n r' hr'

theorem defineClass (h : Safe false G P s) {c : Class Block} (hc : ClassScoped P c) :
    Safe false G P { s with classes := s.classes.set c.name c } := by
  obtain ⟨globals, locals, functions, classes, heap, steps, depth, output⟩ := s
  obtain rfl : locals = none := Option.not_isSome_iff_eq_none.mp (by simp [h.frame])
  refine ⟨h.functions, fun n c' hc' ↦ ?_, h.globals, h.bound, rfl⟩
  rw [Bindings.get?_set] at hc'
  split at hc'
  · cases hc'
    obtain ⟨name, methods⟩ := c
    exact fun m hm ↦ ⟨P, methodsScoped_iff.mp hc.2.2 m hm, h.bound⟩
  · exact h.classes n c' hc'

theorem callable (h : Safe i G P s) {n : String} {r : Routine Block}
    (hr : s.functions.get? n = some r) : Callable s.globals r :=
  h.functions n r hr

theorem callable_method (h : Safe i G P s) {n name : String} {c : Class Block}
    {r : Routine Block} (hc : s.classes.get? n = some c) (hr : c.method? name = some r) :
    Callable s.globals r :=
  h.classes n c hc r (List.mem_of_find?_eq_some hr)

end Safe

/-! ### Safe walks -/

namespace Walk

/-- An interruption by anything but a scope error. -/
def Allowed (i : Interrupt) (_ : WalkState) : Prop :=
  ∀ e, i = .error e → ¬e.IsScopeError

theorem allowed_error {e : RuntimeError} {s : WalkState} (h : ¬e.IsScopeError) :
    Allowed (.error e) s := by
  intro e' he
  cases he
  exact h

theorem allowed_outOfFuel {s : WalkState} : Allowed .outOfFuel s := by
  intro e he
  cases he

/-- An invocation that keeps states safe, if what it runs is callable. -/
def InvokesSafely (invoke : Invocation) : Prop :=
  ∀ {i : Bool} {G P : String → Prop} {s : WalkState} {r : Routine Block} {args : List Value},
    Safe i G P s → Callable s.globals r →
      Ensures (invoke r args) s (fun _ s' ↦ Safe i G P s') Allowed

section

variable {limits : Limits} {fuel : Nat} {invoke : Invocation} {i : Bool} {G P : String → Prop}
  {s : WalkState}

theorem safe_onHeap {α : Type} {operation : Heap → Heap.Effect α} (h : Safe i G P s)
    (herror : ∀ e h', operation s.heap = (.error e, h') → ¬e.IsScopeError) :
    Ensures (onHeap operation) s (fun _ s' ↦ Safe i G P s') Allowed :=
  ensures_onHeap (fun _ heap _ ↦ h.withHeap heap)
    fun e heap he ↦ allowed_error (herror e heap he)

theorem safe_observe {α : Type} {reading : Heap → Except RuntimeError α} (h : Safe i G P s)
    (herror : ∀ e, reading s.heap = .error e → ¬e.IsScopeError) :
    Ensures (observe reading) s (fun _ s' ↦ Safe i G P s') Allowed :=
  ensures_observe (fun _ _ ↦ h) fun e he ↦ allowed_error (herror e he)

theorem safe_load {name : String} (h : Safe i G P s) (hname : P name) :
    Ensures (load name) s (fun _ s' ↦ Safe i G P s') Allowed :=
  ensures_load (fun _ _ ↦ h) fun hnone ↦ absurd hnone (h.bound name hname)

theorem safe_tick (h : Safe i G P s) :
    Ensures (tick limits) s (fun _ s' ↦ Safe i G P s') Allowed := by
  refine ensures_get_bind.mpr (Ensures.bind (P := fun _ s' ↦ Safe i G P s') ?_ ?_)
  · exact ensures_ofExcept (fun _ _ ↦ h) fun e he ↦ allowed_error (Limits.admitStep_error he)
  · exact fun _ _ h ↦ h.congr rfl rfl rfl rfl

theorem safe_call (hinvoke : InvokesSafely invoke) {name : String} {args : List Value}
    (h : Safe i G P s) :
    Ensures (call invoke name args) s (fun _ s' ↦ Safe i G P s') Allowed := by
  unfold call
  split
  · exact safe_observe h fun e he ↦ Heap.callBuiltin_not_scopeError he
  · rw [ensures_get_bind]
    split
    · next hr => exact hinvoke h (h.callable hr)
    · rw [ensures_get_bind]
      split
      · exact allowed_error (s := s) id
      · next c hc =>
        refine Ensures.bind (P := fun _ s' ↦ Safe i G P s' ∧ s'.globals = s.globals) ?_ ?_
        · exact ⟨h.withHeap _, rfl⟩
        · rintro made s' ⟨h', hglobals⟩
          split
          · next r hr =>
            have hcallable := h.callable_method hc hr
            rw [← hglobals] at hcallable
            exact (hinvoke h' hcallable).bind fun _ _ h ↦ h
          · split
            · exact h'
            · exact allowed_error (s := s') id

theorem safe_callMethod (hinvoke : InvokesSafely invoke) {receiver : Value} {name : String}
    {args : List Value} (h : Safe i G P s) :
    Ensures (callMethod invoke receiver name args) s (fun _ s' ↦ Safe i G P s') Allowed := by
  cases receiver with
  | list cell =>
    rw [callMethod]
    exact safe_onHeap h fun e h' he ↦ Heap.callListMethod_not_scopeError he
  | object cell =>
    rw [callMethod, ensures_get_bind]
    dsimp only
    rw [ensures_get_bind]
    split
    · next r hr =>
      obtain ⟨c, hc, hmethod⟩ := Option.bind_eq_some_iff.mp hr
      exact hinvoke h (h.callable_method hc hmethod)
    · exact allowed_error (s := s) id
  | _ => exact allowed_error (s := s) id

mutual

/-- A scoped expression is evaluated without a scope error. -/
theorem safe_eval (hinvoke : InvokesSafely invoke) :
    ∀ {e : Expr} {s : WalkState}, e.Reads P → Safe i G P s →
      Ensures (eval invoke e) s (fun _ s' ↦ Safe i G P s') Allowed
  | .number _, _, _, h => by
    rw [eval]
    exact h
  | .boolean _, _, _, h => by
    rw [eval]
    exact h
  | .variable _, _, hread, h => by
    rw [eval]
    exact safe_load h hread
  | .arith _ _ _, _, hread, h => by
    rw [eval]
    refine (safe_eval hinvoke hread.1 h).bind fun a s₁ h₁ ↦ ?_
    refine (safe_eval hinvoke hread.2 h₁).bind fun b s₂ h₂ ↦ ?_
    exact safe_onHeap h₂ fun e h' he ↦ (Heap.arith_error he).not_scopeError
  | .compare _ _ _, _, hread, h => by
    rw [eval]
    refine (safe_eval hinvoke hread.1 h).bind fun a s₁ h₁ ↦ ?_
    refine (safe_eval hinvoke hread.2 h₁).bind fun b s₂ h₂ ↦ ?_
    exact (safe_observe h₂ fun e he ↦ (Heap.compare_error he).not_scopeError).bind fun _ _ h ↦ h
  | .call _ _, _, hread, h => by
    rw [eval]
    exact (safe_evalAll hinvoke hread h).bind fun _ _ h ↦ safe_call hinvoke h
  | .list _, _, hread, h => by
    rw [eval]
    exact (safe_evalAll hinvoke hread h).bind fun _ _ h ↦ h.withHeap _
  | .index _ _, _, hread, h => by
    rw [eval]
    refine (safe_load h hread.1).bind fun list s₁ h₁ ↦ (safe_eval hinvoke hread.2 h₁).bind
      fun index s₂ h₂ ↦ ?_
    exact safe_observe h₂ fun e he ↦ (Heap.loadIndex_error he).not_scopeError
  | .member _ _, _, hread, h => by
    rw [eval]
    refine (safe_load h hread).bind fun v s₁ h₁ ↦ ?_
    exact safe_observe h₁ fun e he ↦ (Heap.getAttribute_error he).not_scopeError
  | .methodCall _ _ _, _, hread, h => by
    rw [eval]
    refine (safe_load h hread.1).bind fun receiver s₁ h₁ ↦ ?_
    exact (safe_evalAll hinvoke hread.2 h₁).bind fun _ _ h ↦ safe_callMethod hinvoke h

theorem safe_evalAll (hinvoke : InvokesSafely invoke) :
    ∀ {es : List Expr} {s : WalkState}, ExprsRead P es → Safe i G P s →
      Ensures (evalAll invoke es) s (fun _ s' ↦ Safe i G P s') Allowed
  | [], _, _, h => by
    rw [evalAll]
    exact h
  | _ :: _, _, hread, h => by
    rw [evalAll]
    refine (safe_eval hinvoke hread.1 h).bind fun value s₁ h₁ ↦ ?_
    exact (safe_evalAll hinvoke hread.2 h₁).bind fun _ _ h ↦ h

end

/-- What holds behind a part of a routine or a program that was begun where `P` was bound: a part
that ends with a return is inside of a routine. -/
def SafelyCompleted (i : Bool) (G P : String → Prop) (c : Completion) (s : WalkState) : Prop :=
  Safe i G P s ∧ ∀ v, c = .returned v → i = true

theorem SafelyCompleted.next (h : Safe i G P s) : SafelyCompleted i G P .next s := by
  refine ⟨h, fun v hv ↦ ?_⟩
  cases hv

/-- What holds behind a statement: where it is not left by a return, what it declares is bound. -/
def SafelyRun (i : Bool) (G P : String → Prop) (st : Stmt) (c : Completion) (s : WalkState) :
    Prop :=
  SafelyCompleted i G P c s ∧ (c = .next → Safe i G (st.declared P) s)

theorem SafelyRun.next {st : Stmt} (h : Safe i G (st.declared P) s) :
    SafelyRun i G P st .next s :=
  ⟨.next (h.mono fun _ ↦ st.declared_of), fun _ ↦ h⟩

theorem SafelyCompleted.run {c : Completion} {st : Stmt} (h : SafelyCompleted i G P c s)
    (hst : st.declared P = P) : SafelyRun i G P st c s := by
  refine ⟨h, fun _ ↦ ?_⟩
  rw [hst]
  exact h.1

section

variable {i : Bool} {G P : String → Prop} {body : List Stmt} {s : WalkState}
  (hinvoke : InvokesSafely invoke)

include hinvoke

theorem safe_whileLoop {condition : Expr} (hcondition : condition.Reads P)
    (hbody : ∀ {s}, Safe i G P s →
      Ensures (execBlock limits fuel invoke body) s (SafelyCompleted i G P) Allowed)
    (h : Safe i G P s) :
    Ensures (exec limits fuel invoke (.whileLoop condition body)) s (SafelyCompleted i G P)
      Allowed := by
  rw [exec]
  refine (safe_tick h).bind fun _ s₁ h₁ ↦ ?_
  refine ensures_iterate (I := fun _ s' ↦ Safe i G P s') (fun _ s₂ h₂ ↦ ?_)
    (fun _ _ _ ↦ allowed_outOfFuel) fuel () s₁ h₁
  refine (safe_eval hinvoke hcondition h₂).bind fun v s₃ h₃ ↦ ?_
  rw [ensures_get_bind]
  split
  · refine (hbody h₃).bind fun c s₄ h₄ ↦ ?_
    cases c with
    | returned v => exact h₄
    | next => exact (safe_tick h₄.1).bind fun _ _ h ↦ h
  · exact .next h₃

/-- Before each turn of a counting loop, its variable need not be bound. -/
theorem safe_forRange {name : String} {start stop : Expr} (hstart : start.Reads P)
    (hstop : stop.Reads P)
    (hbody : ∀ {s}, Safe i G (Declaring name P) s →
      Ensures (execBlock limits fuel invoke body) s (SafelyCompleted i G (Declaring name P))
        Allowed)
    (h : Safe i G P s) :
    Ensures (exec limits fuel invoke (.forRange name start stop body)) s (SafelyCompleted i G P)
      Allowed := by
  rw [exec]
  refine (safe_tick h).bind fun _ s₁ h₁ ↦ ?_
  refine (safe_eval hinvoke hstart h₁).bind fun first s₂ h₂ ↦ ?_
  refine (safe_eval hinvoke hstop h₂).bind fun bound s₃ h₃ ↦ ?_
  refine ensures_iterate (I := fun _ s' ↦ Safe i G P s') (fun counter s₄ h₄ ↦ ?_)
    (fun _ _ _ ↦ allowed_outOfFuel) fuel first s₃ h₃
  refine (safe_observe h₄ fun e he ↦ (Heap.compare_error he).not_scopeError).bind
    fun below s₅ h₅ ↦ ?_
  split
  · refine ensures_bind.mpr ((hbody (h₅.bind name counter)).bind fun c s₆ h₆ ↦ ?_)
    have hdropped := h₆.1.mono fun x hx ↦ Or.inr hx
    cases c with
    | returned v => exact ⟨hdropped, h₆.2⟩
    | next =>
      refine (safe_onHeap hdropped fun e h' he ↦ (Heap.arith_error he).not_scopeError).bind
        fun next s₇ h₇ ↦ ?_
      exact (safe_tick h₇).bind fun _ _ h ↦ h
  · exact .next h₅

end

mutual

/-- A scoped statement is run without a scope error, and what it declares is bound behind it. -/
theorem safe_exec (hinvoke : InvokesSafely invoke) {i : Bool} {G P : String → Prop} :
    ∀ {st : Stmt} {s : WalkState}, st.Scoped i P → Safe i G P s →
      Ensures (exec limits fuel invoke st) s (SafelyRun i G P st) Allowed
  | .assign name value, _, hscoped, h => by
    rw [exec]
    refine (safe_tick h).bind fun _ s₁ h₁ ↦ (safe_eval hinvoke hscoped.2 h₁).bind fun v s₂ h₂ ↦ ?_
    have hbound : Safe i G (Declaring name P) (s₂.bind name v) := h₂.bind name v
    exact SafelyRun.next hbound
  | .assignIndex name position value, _, hscoped, h => by
    rw [exec]
    refine (safe_tick h).bind fun _ s₁ h₁ ↦ (safe_load h₁ hscoped.1).bind fun list s₂ h₂ ↦ ?_
    refine (safe_eval hinvoke hscoped.2.1 h₂).bind fun index s₃ h₃ ↦ ?_
    refine (safe_eval hinvoke hscoped.2.2 h₃).bind fun v s₄ h₄ ↦ ?_
    refine (safe_onHeap h₄ fun e h' he ↦ (Heap.storeIndex_error he).not_scopeError).bind
      fun _ s₅ h₅ ↦ ?_
    exact SafelyRun.next h₅
  | .assignAttribute object name value, _, hscoped, h => by
    rw [exec]
    refine (safe_tick h).bind fun _ s₁ h₁ ↦ (safe_load h₁ hscoped.1).bind fun o s₂ h₂ ↦ ?_
    refine (safe_eval hinvoke hscoped.2 h₂).bind fun v s₃ h₃ ↦ ?_
    refine (safe_onHeap h₃ fun e h' he ↦ (Heap.setAttribute_error he).not_scopeError).bind
      fun _ s₄ h₄ ↦ ?_
    exact SafelyRun.next h₄
  | .print value, _, hscoped, h => by
    rw [exec]
    refine (safe_tick h).bind fun _ s₁ h₁ ↦ (safe_eval hinvoke hscoped h₁).bind fun v s₂ h₂ ↦ ?_
    have hprinted : Safe i G P { s₂ with output := s₂.output.push (s₂.heap.text v) } :=
      h₂.congr rfl rfl rfl rfl
    exact SafelyRun.next hprinted
  | .expr value, _, hscoped, h => by
    rw [exec]
    refine (safe_tick h).bind fun _ s₁ h₁ ↦ (safe_eval hinvoke hscoped h₁).bind fun v s₂ h₂ ↦ ?_
    exact SafelyRun.next h₂
  | .ifElse condition body orelse, _, hscoped, h => by
    rw [exec]
    refine (safe_tick h).bind fun _ s₁ h₁ ↦ ?_
    refine (safe_eval hinvoke hscoped.1 h₁).bind fun v s₂ h₂ ↦ ?_
    rw [ensures_get_bind]
    split
    · exact (safe_execBlock hinvoke hscoped.2.1 h₂).post fun c s' hc ↦ hc.run rfl
    · exact (safe_execBlock hinvoke hscoped.2.2 h₂).post fun c s' hc ↦ hc.run rfl
  | .whileLoop condition body, _, hscoped, h =>
    (safe_whileLoop hinvoke hscoped.1 (safe_execBlock hinvoke hscoped.2) h).post
      fun c s' hc ↦ hc.run rfl
  | .forRange name start stop body, _, hscoped, h =>
    (safe_forRange hinvoke hscoped.2.1 hscoped.2.2.1 (safe_execBlock hinvoke hscoped.2.2.2)
      h).post fun c s' hc ↦ hc.run rfl
  | .define routine, _, hscoped, h => by
    obtain ⟨rfl, hroutine⟩ := hscoped
    rw [exec]
    refine (safe_tick h).bind fun _ s₁ h₁ ↦ ?_
    exact SafelyRun.next (h₁.define hroutine)
  | .defineClass definition, _, hscoped, h => by
    obtain ⟨rfl, hclass⟩ := hscoped
    rw [exec]
    refine (safe_tick h).bind fun _ s₁ h₁ ↦ ?_
    exact SafelyRun.next (h₁.defineClass hclass)
  | .return none, _, hscoped, h => by
    rw [exec]
    refine (safe_tick h).bind fun _ s₁ h₁ ↦ ?_
    exact ⟨⟨h₁, fun _ _ ↦ hscoped⟩, fun _ ↦ h₁⟩
  | .return (some value), _, hscoped, h => by
    rw [exec]
    refine (safe_tick h).bind fun _ s₁ h₁ ↦ (safe_eval hinvoke hscoped.2 h₁).bind fun v s₂ h₂ ↦ ?_
    exact ⟨⟨h₂, fun _ _ ↦ hscoped.1⟩, fun _ ↦ h₂⟩
  | .pass, _, _, h => by
    rw [exec]
    refine (safe_tick h).bind fun _ s₁ h₁ ↦ ?_
    exact SafelyRun.next h₁

theorem safe_execBlock (hinvoke : InvokesSafely invoke) {i : Bool} {G P : String → Prop} :
    ∀ {block : List Stmt} {s : WalkState}, BlockScoped i P block → Safe i G P s →
      Ensures (execBlock limits fuel invoke block) s (SafelyCompleted i G P) Allowed
  | [], _, _, h => by
    rw [execBlock]
    exact .next h
  | st :: _, _, hscoped, h => by
    rw [execBlock]
    refine (safe_exec hinvoke hscoped.1 h).bind fun c s₁ h₁ ↦ ?_
    cases c with
    | returned v => exact h₁.1
    | next =>
      refine (safe_execBlock hinvoke hscoped.2 (h₁.2 rfl)).post fun c s' hc ↦ ?_
      exact ⟨hc.1.mono fun _ ↦ st.declared_of, hc.2⟩

end

end

/-- Running the body of a routine keeps states safe. The variables of the caller are bound behind
the call as they were before, since the global ones still are. -/
theorem invokesSafely (limits : Limits) (fuel : Nat) : InvokesSafely (invoke limits fuel) := by
  induction fuel with
  | zero =>
    intro i G P s r args _ _
    exact allowed_outOfFuel (s := s)
  | succ fuel ih =>
    intro i G P s r args h hr
    obtain ⟨P', hscoped, hP'⟩ := hr
    rw [invoke, ensures_get_bind, ensures_get_bind]
    refine Ensures.bind (P := fun _ s' ↦ s = s' ∧ r.params.length = args.length) ?_ ?_
    · exact ensures_ofExcept (fun _ hok ↦ ⟨rfl, Limits.admitEntry_arity hok⟩)
        fun e he ↦ allowed_error (Limits.admitEntry_error he)
    · rintro _ s₀ ⟨heq, hlength⟩
      subst heq
      have hparams : (r.params.zip args).map Prod.fst = r.params :=
        List.map_fst_zip (Nat.le_of_eq hlength)
      -- What is bound globally before the call still is behind it.
      have hinner : Safe true (fun x ↦ s.globals.get? x ≠ none) (WithParams r.params P')
          { s with
            locals := some (Bindings.ofList (r.params.zip args)), depth := s.depth + 1 } := by
        refine ⟨h.functions, h.classes, fun _ hx ↦ hx, fun x hx ↦ ?_, rfl⟩
        show ((Bindings.ofList (r.params.zip args)).get? x).or (s.globals.get? x) ≠ none
        rw [or_ne_none]
        rcases hx with hx | hx
        · exact .inl (Bindings.get?_setAll_ne_none (.inl (hparams.symm ▸ hx)))
        · exact .inr (hP' x hx)
      obtain ⟨name, params, body⟩ := r
      rw [ensures_modify_bind]
      refine (safe_execBlock ih hscoped.2 hinner).bind fun c s' hc ↦ ?_
      have hkept := hc.1.globals
      have houter : Safe i G P { s' with locals := s.locals, depth := s.depth } := by
        refine ⟨hc.1.functions, hc.1.classes, fun x hx ↦ hkept x (h.globals x hx), fun x hx ↦ ?_,
          h.frame⟩
        have hbound := h.bound x hx
        unfold WalkState.lookup at hbound ⊢
        dsimp only
        split at hbound
        · exact hkept x hbound
        · rw [or_ne_none] at hbound ⊢
          exact hbound.imp_right (hkept x)
      rw [ensures_modify_bind]
      cases c with
      | returned v => exact houter
      | next => exact houter

/-- A well-formed program is walked without a scope error. -/
theorem safe_program {program : Block} (h : WellFormed program) (limits : Limits) (fuel : Nat) :
    Ensures (Walk.program limits fuel program) .initial (fun _ _ ↦ True) Allowed := by
  have hinitial : Safe false (fun _ ↦ False) (fun _ ↦ False) .initial :=
    ⟨fun _ _ hr ↦ (by cases hr), fun _ _ hc ↦ (by cases hc), fun _ hx ↦ hx.elim,
      fun _ hx ↦ hx.elim, rfl⟩
  refine (safe_execBlock (invokesSafely limits fuel) h.inScope hinitial).bind fun c s' hc ↦ ?_
  cases c with
  | next => trivial
  | returned v => exact absurd (hc.2 v rfl) (by decide)

end Walk

/-- The answer of a well-formed program that is walked is no scope error. -/
theorem walk_safe {program : Block} (h : WellFormed program) {limits : Limits} {fuel : Nat}
    {a : Answer} (ha : walk program limits fuel = some a) {e : RuntimeError}
    (he : a.error = some e) : ¬e.IsScopeError := by
  have hsafe := Walk.safe_program h limits fuel
  unfold Walk.Ensures at hsafe
  rw [Walk.walk_eq_answer?] at ha
  generalize Walk.outcome (Walk.program limits fuel program) .initial = o at hsafe ha
  obtain ⟨(cause | _) | _, s⟩ := o
  · cases ha
    cases he
    exact hsafe e rfl
  · cases ha
  · cases ha
    cases he

end Offside
