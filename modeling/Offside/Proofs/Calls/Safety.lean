import Offside.Proofs.Calls.Blame
import Offside.Proofs.Calls.Fitting

/-!
The walk of a program whose calls by name fit. `Linked` is what holds between its statements: what
can be called is as `T` has it, and calls by name in it fit. So a call by name finds as many
parameters as it has arguments, and wherever definitions stand at the top level only it finds
something to call. All of this is said by comparing the walk with the one that blames methods
(`blames_program`).
-/

set_option autoImplicit false
set_option relaxedAutoImplicit false

namespace Offside

open ThreeAddress (definitions definitionsOfStmt)

/-- A statement that is a definition or holds none. -/
def Stmt.AtTopLevel (st : Stmt) : Prop :=
  definitionsOfStmt st = ([], []) ∨ (∃ r, st = .define r) ∨ ∃ c, st = .defineClass c

theorem atTopLevel_of_definitions {block : Block} (h : definitions block = ([], [])) :
    ∀ st ∈ block, st.AtTopLevel := by
  induction block with
  | nil => exact fun _ hst ↦ absurd hst List.not_mem_nil
  | cons st ss ih =>
    simp only [definitions, Prod.mk.injEq, List.append_eq_nil_iff] at h
    obtain ⟨⟨hfirst₁, hrest₁⟩, hfirst₂, hrest₂⟩ := h
    intro st' hst'
    rcases List.mem_cons.mp hst' with rfl | hst'
    · exact .inl (Prod.ext hfirst₁ hfirst₂)
    · exact ih (Prod.ext hrest₁ hrest₂) st' hst'

namespace Stmt.AtTopLevel

variable {condition start stop : Expr} {name : String} {body orelse : Block}

theorem nothing_ifElse (h : (Stmt.ifElse condition body orelse).AtTopLevel) :
    definitions body = ([], []) ∧ definitions orelse = ([], []) := by
  rcases h with h | ⟨r, hr⟩ | ⟨c, hc⟩
  · simp only [definitionsOfStmt, Prod.mk.injEq, List.append_eq_nil_iff] at h
    exact ⟨Prod.ext h.1.1 h.2.1, Prod.ext h.1.2 h.2.2⟩
  · cases hr
  · cases hc

theorem nothing_whileLoop (h : (Stmt.whileLoop condition body).AtTopLevel) :
    definitions body = ([], []) := by
  rcases h with h | ⟨r, hr⟩ | ⟨c, hc⟩
  · exact h
  · cases hr
  · cases hc

theorem nothing_forRange (h : (Stmt.forRange name start stop body).AtTopLevel) :
    definitions body = ([], []) := by
  rcases h with h | ⟨r, hr⟩ | ⟨c, hc⟩
  · exact h
  · cases hr
  · cases hc

end Stmt.AtTopLevel

/-! ### Linked states -/

/-- Where names are told apart strictly, the name stands for something that can be called. -/
def WalkState.Knows (strict : Prop) (s : WalkState) (n : String) : Prop :=
  strict → (Builtin.ofName? n).isSome = true ∨ s.functions.has n = true ∨ s.classes.has n = true

/-- A routine that fits and calls what is known. -/
def Linkable (T : String → Option Nat) (strict : Prop) (s : WalkState) (r : Routine Block) :
    Prop :=
  ∃ K, RoutineFits T K r ∧ ∀ n, K n → s.Knows strict n

/-- A state of a walk in which whatever can be called fits, and all names of `K` are known. -/
structure Linked (T : String → Option Nat) (strict : Prop) (K : String → Prop) (s : WalkState) :
    Prop where
  functions : ∀ n r, s.functions.get? n = some r →
    T n = some r.params.length ∧ Linkable T strict s r
  classes : ∀ n c, s.classes.get? n = some c →
    T n = some c.constructorArity ∧ ∃ K, ClassFits T K c ∧ ∀ n, K n → s.Knows strict n
  known : ∀ n, K n → s.Knows strict n

section

variable {T : String → Option Nat} {strict : Prop} {K L : String → Prop} {s s' : WalkState}

theorem Linkable.mono {r : Routine Block} (h : Linkable T strict s r)
    (hkept : ∀ n, s.Knows strict n → s'.Knows strict n) : Linkable T strict s' r := by
  obtain ⟨K, hr, hK⟩ := h
  exact ⟨K, hr, fun n hn ↦ hkept n (hK n hn)⟩

theorem linkable_method {c : Class Block} {name : String} {r : Routine Block}
    (hc : ∃ K, ClassFits T K c ∧ ∀ n, K n → s.Knows strict n) (hr : c.method? name = some r) :
    Linkable T strict s r := by
  obtain ⟨K, hfits, hK⟩ := hc
  obtain ⟨className, methods⟩ := c
  exact ⟨K, (methodsFit_iff.mp hfits r (List.mem_of_find?_eq_some hr)).2, hK⟩

namespace Linked

theorem mono (h : Linked T strict K s) (hL : ∀ n, L n → s.Knows strict n) :
    Linked T strict L s :=
  { h with known := hL }

/-- Only the tables matter. -/
theorem congr (h : Linked T strict K s) (hfunctions : s'.functions = s.functions)
    (hclasses : s'.classes = s.classes) : Linked T strict K s' := by
  have hknows (n : String) (hn : s.Knows strict n) : s'.Knows strict n := by
    unfold WalkState.Knows at hn ⊢
    rwa [hfunctions, hclasses]
  refine ⟨fun n r hr ↦ ?_, fun n c hc ↦ ?_, fun n hn ↦ hknows n (h.known n hn)⟩
  · obtain ⟨harity, hlinkable⟩ := h.functions n r (hfunctions ▸ hr)
    exact ⟨harity, hlinkable.mono hknows⟩
  · obtain ⟨harity, K', hfits, hK'⟩ := h.classes n c (hclasses ▸ hc)
    exact ⟨harity, K', hfits, fun n hn ↦ hknows n (hK' n hn)⟩

theorem bind (h : Linked T strict K s) (name : String) (value : Value) :
    Linked T strict K (s.bind name value) := by
  unfold WalkState.bind
  split <;> exact h.congr rfl rfl

/-- Definitions that are not there add nothing that would have to be known. -/
theorem knowing (h : Linked T strict K s) {d : List (Routine Block) × List (Class Block)}
    (hd : strict → d = ([], [])) : Linked T strict (Knowing K d) s := by
  refine h.mono fun n hn hstrict ↦ ?_
  rw [hd hstrict, knowing_nil] at hn
  exact h.known n hn hstrict

/-- A function is defined. -/
theorem define (h : Linked T strict K s) {r : Routine Block}
    (hr : (Stmt.define r).Fits T K) :
    Linked T strict (Knowing K (definitionsOfStmt (.define r)))
      { s with functions := s.functions.set r.name r } := by
  obtain ⟨harity, hfits⟩ := hr
  have hkept (n : String) (hn : s.Knows strict n) :
      WalkState.Knows strict { s with functions := s.functions.set r.name r } n :=
    fun hstrict ↦ (hn hstrict).imp_right (Or.imp_left fun hhas ↦ Bindings.has_set.mpr (.inr hhas))
  have hknown (n : String) (hn : Knowing K (definitionsOfStmt (.define r)) n) :
      WalkState.Knows strict { s with functions := s.functions.set r.name r } n := by
    rcases hn with hn | ⟨r', hr', hname⟩ | ⟨c, hc, -⟩
    · exact hkept n (h.known n hn)
    · rw [List.mem_singleton.mp hr'] at hname
      exact fun _ ↦ .inr (.inl (Bindings.has_set.mpr (.inl hname)))
    · exact absurd hc List.not_mem_nil
  refine ⟨fun n r' hr' ↦ ?_, fun n c hc ↦ ?_, hknown⟩
  · replace hr' : (s.functions.set r.name r).get? n = some r' := hr'
    rw [Bindings.get?_set] at hr'
    split at hr'
    · next hname =>
      cases hr'
      exact ⟨hname ▸ harity, _, hfits, hknown⟩
    · obtain ⟨harity', hlinkable⟩ := h.functions n r' hr'
      exact ⟨harity', hlinkable.mono hkept⟩
  · obtain ⟨harity', K', hclass, hK'⟩ := h.classes n c hc
    exact ⟨harity', K', hclass, fun n hn ↦ hkept n (hK' n hn)⟩

/-- A class is defined. -/
theorem defineClass (h : Linked T strict K s) {c : Class Block}
    (hc : (Stmt.defineClass c).Fits T K) :
    Linked T strict (Knowing K (definitionsOfStmt (.defineClass c)))
      { s with classes := s.classes.set c.name c } := by
  obtain ⟨harity, hfits⟩ := hc
  have hkept (n : String) (hn : s.Knows strict n) :
      WalkState.Knows strict { s with classes := s.classes.set c.name c } n :=
    fun hstrict ↦ (hn hstrict).imp_right (Or.imp_right fun hhas ↦ Bindings.has_set.mpr (.inr hhas))
  have hknown (n : String) (hn : Knowing K (definitionsOfStmt (.defineClass c)) n) :
      WalkState.Knows strict { s with classes := s.classes.set c.name c } n := by
    rcases hn with hn | ⟨r, hr, -⟩ | ⟨c', hc', hname⟩
    · exact hkept n (h.known n hn)
    · exact absurd hr List.not_mem_nil
    · rw [List.mem_singleton.mp hc'] at hname
      exact fun _ ↦ .inr (.inr (Bindings.has_set.mpr (.inl hname)))
  refine ⟨fun n r hr ↦ ?_, fun n c' hc' ↦ ?_, hknown⟩
  · obtain ⟨harity', hlinkable⟩ := h.functions n r hr
    exact ⟨harity', hlinkable.mono hkept⟩
  · replace hc' : (s.classes.set c.name c).get? n = some c' := hc'
    rw [Bindings.get?_set] at hc'
    split at hc'
    · next hname =>
      cases hc'
      exact ⟨hname ▸ harity, _, hfits, hknown⟩
    · obtain ⟨harity', K', hclass, hK'⟩ := h.classes n c' hc'
      exact ⟨harity', K', hclass, fun n hn ↦ hkept n (hK' n hn)⟩

end Linked

end

namespace Walk

/-! ### Calls -/

/-- Two invocations that end alike in linked states, if the number of arguments is right; and if it
is not, the first runs out of fuel or ends in an arity mismatch. -/
structure InvokesAlike (T : String → Option Nat) (strict : Prop) (e' : RuntimeError)
    (invoke invoke' : Invocation) : Prop where
  fitting : ∀ {K : String → Prop} {s : WalkState} {r : Routine Block} {args : List Value},
    Linked T strict K s → Linkable T strict s r → r.params.length = args.length →
      Blames strict e' (invoke r args) (invoke' r args) s fun _ s' ↦ Linked T strict K s'
  misfitting : ∀ {s : WalkState} {r : Routine Block} {args : List Value},
    r.params.length ≠ args.length → outcome (invoke r args) s = (.error .outOfFuel, s) ∨
      ∃ name expected found,
        outcome (invoke r args) s = (.error (.error (.arityMismatch name expected found)), s)

section

variable {T : String → Option Nat} {strict : Prop} {e' : RuntimeError}
  {invoke invoke' : Invocation} {limits : Limits} {fuel : Nat} {K : String → Prop} {s : WalkState}
  (hT : BuiltinsFit T)
  (hinvoke : InvokesAlike T strict e' invoke invoke')

theorem blames_onHeap {α : Type} {operation : Heap → Heap.Effect α} (h : Linked T strict K s)
    (herror : ∀ e h', operation s.heap = (.error e, h') → e.IsValueError) :
    Blames strict e' (onHeap operation) (onHeap operation) s fun _ s' ↦ Linked T strict K s' :=
  blames_same (ensures_onHeap (fun _ _ _ ↦ h.congr rfl rfl)
    fun e heap he ↦ blameless_valueError (herror e heap he))

theorem blames_observe {α : Type} {reading : Heap → Except RuntimeError α}
    (h : Linked T strict K s) (herror : ∀ e, reading s.heap = .error e → e.IsValueError) :
    Blames strict e' (observe reading) (observe reading) s fun _ s' ↦ Linked T strict K s' :=
  blames_same (ensures_observe (fun _ _ ↦ h) fun e he ↦ blameless_valueError (herror e he))

theorem blames_counted (h : Linked T strict K s) :
    Blames strict e' (tick limits) (tick limits) s fun _ s' ↦ Linked T strict K s' :=
  blames_tick (Q := fun _ s' ↦ Linked T strict K s') (h.congr rfl rfl)

theorem blames_load {name : String} (h : Linked T strict K s) :
    Blames strict e' (load name) (load name) s fun _ s' ↦ Linked T strict K s' :=
  blames_same (ensures_load (fun _ _ ↦ h)
    fun _ ↦ blameless_error id fun _ hn ↦ by cases hn)

theorem blames_store {name : String} {value : Value} (h : Linked T strict K s) :
    Blames strict e' (store name value) (store name value) s fun _ s' ↦ Linked T strict K s' :=
  blames_same (x := store name value) (h.bind name value)

/-- A part that fails with an arity mismatch on one side, and with the other error on the other. -/
theorem blames_mismatch {α : Type} {x y : Walk α} {Q : α → WalkState → Prop}
    (hx : outcome x s = (.error .outOfFuel, s) ∨ ∃ name expected found,
      outcome x s = (.error (.error (.arityMismatch name expected found)), s))
    (hy : outcome y s = (.error (.error e'), s)) : Blames strict e' x y s Q := by
  unfold Blames
  rcases hx with hx | ⟨name, expected, found, hx⟩
  · rw [hx]
    trivial
  · rw [hx, hy]
    exact ⟨rfl, fun _ n hn ↦ by cases hn⟩

include hT hinvoke

/-- A call by name that fits finds as many parameters as it has arguments, and in strict programs
it finds something to call. -/
theorem blames_call {name : String} {args : List Value} (h : Linked T strict K s)
    (hname : K name) (hfits : T name = some args.length) :
    Blames strict e' (call invoke name args) (call invoke' name args) s
      fun _ s' ↦ Linked T strict K s' := by
  unfold call
  split
  · next b hb =>
    refine blames_observe h fun e he ↦ Heap.callBuiltin_error ?_ he
    exact Option.some.inj (hfits.symm.trans (hT name b hb))
  · next hb =>
    refine blames_get_bind ?_
    split
    · next r hr =>
      obtain ⟨harity, hlinkable⟩ := h.functions name r hr
      exact hinvoke.fitting h hlinkable (Option.some.inj (harity.symm.trans hfits))
    · next hr =>
      refine blames_get_bind ?_
      split
      · next hc =>
        refine ⟨rfl, fun hstrict n _ ↦ ?_⟩
        rcases h.known name hname hstrict with hknown | hknown | hknown
        · simp [hb] at hknown
        · simp [Bindings.has, hr] at hknown
        · simp [Bindings.has, hc] at hknown
      · next c hc =>
        obtain ⟨harity, hclass⟩ := h.classes name c hc
        have hconstructor := hclass.elim fun _ hK ↦ hK.1.constructorArity
        rw [Option.some.inj (harity.symm.trans hfits)] at hconstructor
        have hmade : Blames strict e' (allocate fun h ↦ h.newObject c.name .empty)
            (allocate fun h ↦ h.newObject c.name .empty) s fun _ s' ↦
              Linked T strict K s' ∧ s'.functions = s.functions ∧ s'.classes = s.classes :=
          ⟨rfl, h.congr rfl rfl, rfl, rfl⟩
        refine hmade.bind fun made s₁ h₁ ↦ ?_
        obtain ⟨h₁, hfunctions, hclasses⟩ := h₁
        split
        · next r hr =>
          rw [hr] at hconstructor
          have hlinkable := (linkable_method hclass hr).mono fun n hn ↦ by
            unfold WalkState.Knows at hn ⊢
            rwa [hfunctions, hclasses]
          have harity : r.params.length = (made :: args).length := hconstructor
          exact (hinvoke.fitting h₁ hlinkable harity).bind fun _ _ h ↦ blames_pure h
        · next hr =>
          rw [hr] at hconstructor
          rw [if_pos (List.isEmpty_iff.mpr (List.length_eq_zero_iff.mp hconstructor))]
          exact blames_pure h₁

omit hT hinvoke in
/-- A method of a list takes the number of arguments that it is called with, or is to blame. -/
theorem blames_listMethod {cell : Nat} {name : String} {args : List Value}
    (h : Linked T strict K s) :
    Blames strict e' (callMethod invoke (.list cell) name args)
      (if misfits s (.list cell) name args.length then fail e'
        else callMethod invoke' (.list cell) name args) s fun _ s' ↦ Linked T strict K s' := by
  have hcall (invoke : Invocation) : callMethod invoke (.list cell) name args =
      onHeap fun h ↦ h.callListMethod (.list cell) name args := by rw [callMethod]
  rw [hcall, hcall]
  split
  · next hmisfits =>
    obtain ⟨m, hm, hne⟩ : ∃ m, ListMethod.ofName? name = some m ∧ args.length ≠ m.arity := by
      cases hm : ListMethod.ofName? name with
      | none => simp [misfits, hm] at hmisfits
      | some m => exact ⟨m, rfl, by simpa [misfits, hm] using hmisfits⟩
    refine blames_mismatch (.inr ⟨m.name, m.arity, args.length, ?_⟩) rfl
    rw [outcome_onHeap, Heap.callListMethod_of_arity_ne hm hne]
    rfl
  · next hmisfits =>
    refine blames_onHeap h fun e h' he ↦ Heap.callListMethod_error_of_arity (fun m hm ↦ ?_) he
    simpa [misfits, hm] using hmisfits

omit hT in
/-- A method of an instance has a parameter for each argument and for the receiver, or is to
blame. -/
theorem blames_instanceMethod {cell : Nat} {name : String} {args : List Value}
    (h : Linked T strict K s) :
    Blames strict e' (callMethod invoke (.object cell) name args)
      (if misfits s (.object cell) name args.length then fail e'
        else callMethod invoke' (.object cell) name args) s fun _ s' ↦ Linked T strict K s' := by
  have hcall (invoke : Invocation) : outcome (callMethod invoke (.object cell) name args) s =
      outcome (((s.classes.get? (s.heap.className cell)).bind fun c ↦ c.method? name).elim
        (fail (.unknownMethod name (s.heap.className cell)))
        fun r ↦ invoke r (.object cell :: args)) s := by
    simp only [callMethod, outcome_get_bind]
    cases (s.classes.get? (s.heap.className cell)).bind fun c ↦ c.method? name <;> rfl
  cases hr : (s.classes.get? (s.heap.className cell)).bind fun c ↦ c.method? name with
  | none =>
    have hunknown : Blames strict e' (fail (.unknownMethod name (s.heap.className cell)))
        (fail (.unknownMethod name (s.heap.className cell))) s fun (_ : Value) s' ↦
          Linked T strict K s' := blames_fail id fun _ hn ↦ by cases hn
    simp only [misfits, hr, Option.any_none, Bool.false_eq_true, if_false]
    unfold Blames at hunknown ⊢
    rw [hcall, hcall, hr]
    exact hunknown
  | some r =>
    obtain ⟨c, hc, hmethod⟩ := Option.bind_eq_some_iff.mp hr
    have hlinkable := linkable_method (h.classes _ c hc).2 hmethod
    simp only [misfits, hr, Option.any_some]
    split
    · next hne =>
      refine blames_mismatch ?_ rfl
      rw [hcall, hr]
      exact hinvoke.misfitting (by simpa using hne)
    · next heq =>
      have harity : r.params.length = (.object cell :: args).length := by simpa using heq
      have hfitting := hinvoke.fitting h hlinkable harity
      unfold Blames at hfitting ⊢
      rw [hcall, hcall, hr]
      exact hfitting

omit hT in
/-- A method call with a wrong number of arguments is to blame. -/
theorem blames_callMethod {receiver : Value} {name : String} {args : List Value}
    (h : Linked T strict K s) :
    Blames strict e' ((plain invoke).byMethod receiver name args)
      ((blaming e' invoke').byMethod receiver name args) s fun _ s' ↦ Linked T strict K s' := by
  suffices hcall : Blames strict e' (callMethod invoke receiver name args)
      (if misfits s receiver name args.length then fail e'
        else callMethod invoke' receiver name args) s fun _ s' ↦ Linked T strict K s' from hcall
  cases receiver with
  | list cell => exact blames_listMethod h
  | object cell => exact blames_instanceMethod hinvoke h
  | _ =>
    exact blames_fail (Q := fun _ s' ↦ Linked T strict K s') id fun _ hn ↦ by cases hn

end

/-! ### Expressions and statements -/

section

variable {T : String → Option Nat} {strict : Prop} {e' : RuntimeError}
  {invoke invoke' : Invocation} {limits : Limits} {fuel : Nat}

mutual

/-- An expression that fits is evaluated as it is where methods are blamed. -/
theorem blames_eval (hT : BuiltinsFit T) (hinvoke : InvokesAlike T strict e' invoke invoke')
    {K : String → Prop} :
    ∀ {e : Expr} {s : WalkState}, e.Fits T K → Linked T strict K s →
      Blames strict e' (evalWith (plain invoke) e) (evalWith (blaming e' invoke') e) s
        fun _ s' ↦ Linked T strict K s'
  | .number _, _, _, h => by
    rw [evalWith, evalWith]
    exact blames_pure h
  | .boolean _, _, _, h => by
    rw [evalWith, evalWith]
    exact blames_pure h
  | .variable _, _, _, h => by
    rw [evalWith, evalWith]
    exact blames_load h
  | .arith _ _ _, _, hfits, h => by
    rw [evalWith, evalWith]
    refine (blames_eval hT hinvoke hfits.1 h).bind fun a s₁ h₁ ↦ ?_
    refine (blames_eval hT hinvoke hfits.2 h₁).bind fun b s₂ h₂ ↦ ?_
    exact blames_onHeap h₂ fun e h' he ↦ Heap.arith_error he
  | .compare _ _ _, _, hfits, h => by
    rw [evalWith, evalWith]
    refine (blames_eval hT hinvoke hfits.1 h).bind fun a s₁ h₁ ↦ ?_
    refine (blames_eval hT hinvoke hfits.2 h₁).bind fun b s₂ h₂ ↦ ?_
    exact (blames_observe h₂ fun e he ↦ Heap.compare_error he).bind fun _ _ h ↦ blames_pure h
  | .call _ args, _, hfits, h => by
    rw [evalWith, evalWith]
    refine (blames_evalAll hT hinvoke hfits.2 h).bind fun values s₁ h₁ ↦ ?_
    exact blames_call hT hinvoke h₁.1 hfits.1.1 (h₁.2 ▸ hfits.1.2)
  | .list items, _, hfits, h => by
    rw [evalWith, evalWith]
    have hitems : ExprsFit T K items := hfits
    exact (blames_evalAll hT hinvoke hitems h).bind
      fun values s₁ h₁ ↦ ⟨rfl, h₁.1.congr rfl rfl⟩
  | .index _ position, _, hfits, h => by
    rw [evalWith, evalWith]
    refine (blames_load h).bind fun list s₁ h₁ ↦ ?_
    refine (blames_eval hT hinvoke (e := position) hfits h₁).bind fun index s₂ h₂ ↦ ?_
    exact blames_observe h₂ fun e he ↦ Heap.loadIndex_error he
  | .member _ _, _, _, h => by
    rw [evalWith, evalWith]
    refine (blames_load h).bind fun v s₁ h₁ ↦ ?_
    exact blames_observe h₁ fun e he ↦ Heap.getAttribute_error he
  | .methodCall _ _ args, _, hfits, h => by
    rw [evalWith, evalWith]
    refine (blames_load h).bind fun receiver s₁ h₁ ↦ ?_
    have hargs : ExprsFit T K args := hfits
    refine (blames_evalAll hT hinvoke hargs h₁).bind fun values s₂ h₂ ↦ ?_
    exact blames_callMethod hinvoke h₂.1

theorem blames_evalAll (hT : BuiltinsFit T) (hinvoke : InvokesAlike T strict e' invoke invoke')
    {K : String → Prop} :
    ∀ {es : List Expr} {s : WalkState}, ExprsFit T K es → Linked T strict K s →
      Blames strict e' (evalAllWith (plain invoke) es) (evalAllWith (blaming e' invoke') es) s
        fun values s' ↦ Linked T strict K s' ∧ es.length = values.length
  | [], _, _, h => by
    rw [evalAllWith, evalAllWith]
    exact blames_pure ⟨h, rfl⟩
  | _ :: _, _, hfits, h => by
    rw [evalAllWith, evalAllWith]
    refine (blames_eval hT hinvoke hfits.1 h).bind fun value s₁ h₁ ↦ ?_
    refine (blames_evalAll hT hinvoke hfits.2 h₁).bind fun values s₂ h₂ ↦ ?_
    exact blames_pure ⟨h₂.1, congrArg (· + 1) h₂.2⟩

end

section

variable {K : String → Prop} {body : List Stmt} {s : WalkState}
  (hT : BuiltinsFit T) (hinvoke : InvokesAlike T strict e' invoke invoke')

include hT hinvoke

theorem blames_whileLoop {condition : Expr} (hcondition : condition.Fits T K)
    (hbody : ∀ {s}, Linked T strict K s →
      Blames strict e' (execBlockWith limits fuel (plain invoke) body)
        (execBlockWith limits fuel (blaming e' invoke') body) s fun _ s' ↦ Linked T strict K s')
    (h : Linked T strict K s) :
    Blames strict e' (execWith limits fuel (plain invoke) (.whileLoop condition body))
      (execWith limits fuel (blaming e' invoke') (.whileLoop condition body)) s
        fun _ s' ↦ Linked T strict K s' := by
  rw [execWith, execWith]
  refine (blames_counted h).bind fun _ s₁ h₁ ↦ ?_
  refine blames_iterate (I := fun _ s' ↦ Linked T strict K s') (fun _ s₂ h₂ ↦ ?_) fuel () s₁ h₁
  refine (blames_eval hT hinvoke hcondition h₂).bind fun v s₃ h₃ ↦ blames_get_bind ?_
  split
  · refine (hbody h₃).bind fun c s₄ h₄ ↦ ?_
    cases c with
    | returned v => exact blames_pure h₄
    | next => exact (blames_counted h₄).bind fun _ _ h ↦ blames_pure h
  · exact blames_pure h₃

theorem blames_forRange {name : String} {start stop : Expr} (hstart : start.Fits T K)
    (hstop : stop.Fits T K)
    (hbody : ∀ {s}, Linked T strict K s →
      Blames strict e' (execBlockWith limits fuel (plain invoke) body)
        (execBlockWith limits fuel (blaming e' invoke') body) s fun _ s' ↦ Linked T strict K s')
    (h : Linked T strict K s) :
    Blames strict e' (execWith limits fuel (plain invoke) (.forRange name start stop body))
      (execWith limits fuel (blaming e' invoke') (.forRange name start stop body)) s
        fun _ s' ↦ Linked T strict K s' := by
  rw [execWith, execWith]
  refine (blames_counted h).bind fun _ s₁ h₁ ↦ ?_
  refine (blames_eval hT hinvoke hstart h₁).bind fun first s₂ h₂ ↦ ?_
  refine (blames_eval hT hinvoke hstop h₂).bind fun bound s₃ h₃ ↦ ?_
  refine blames_iterate (I := fun _ s' ↦ Linked T strict K s') (fun counter s₄ h₄ ↦ ?_)
    fuel first s₃ h₃
  refine (blames_observe h₄ fun e he ↦ Heap.compare_error he).bind fun below s₅ h₅ ↦ ?_
  split
  · refine (blames_store h₅).bind fun _ s₆ h₆ ↦ (hbody h₆).bind fun c s₇ h₇ ↦ ?_
    cases c with
    | returned v => exact blames_pure h₇
    | next =>
      refine (blames_onHeap h₇ fun e h' he ↦ Heap.arith_error he).bind fun next s₈ h₈ ↦ ?_
      exact (blames_counted h₈).bind fun _ _ h ↦ blames_pure h
  · exact blames_pure h₅

end

/-- What holds behind a statement: where it is not left by a return, what it defines is known. -/
def Ran (T : String → Option Nat) (strict : Prop) (K : String → Prop) (st : Stmt) (c : Completion)
    (s : WalkState) : Prop :=
  Linked T strict K s ∧ (c = .next → Linked T strict (Knowing K (definitionsOfStmt st)) s)

section

variable {K : String → Prop} {st : Stmt} {c : Completion} {s : WalkState}

theorem ran_of_nothing (h : Linked T strict K s) (hst : strict → definitionsOfStmt st = ([], [])) :
    Ran T strict K st c s :=
  ⟨h, fun _ ↦ h.knowing hst⟩

theorem ran_of_knowing (h : Linked T strict (Knowing K (definitionsOfStmt st)) s) :
    Ran T strict K st c s :=
  ⟨h.mono fun n hn ↦ h.known n (.inl hn), fun _ ↦ h⟩

end

mutual

/-- A statement that fits is run as it is where methods are blamed. Where definitions stand at the
top level only, those inside of it are none. -/
theorem blames_exec (hT : BuiltinsFit T) (hinvoke : InvokesAlike T strict e' invoke invoke')
    {K : String → Prop} :
    ∀ {st : Stmt} {s : WalkState}, st.Fits T K → (strict → st.AtTopLevel) → Linked T strict K s →
      Blames strict e' (execWith limits fuel (plain invoke) st)
        (execWith limits fuel (blaming e' invoke') st) s (Ran T strict K st)
  | .assign name value, _, hfits, _, h => by
    rw [execWith, execWith]
    refine (blames_counted h).bind fun _ s₁ h₁ ↦ ?_
    refine (blames_eval hT hinvoke (e := value) hfits h₁).bind fun v s₂ h₂ ↦ ?_
    exact (blames_store h₂).bind fun _ s₃ h₃ ↦ blames_pure (ran_of_nothing h₃ fun _ ↦ rfl)
  | .assignIndex name position value, _, hfits, _, h => by
    rw [execWith, execWith]
    refine (blames_counted h).bind fun _ s₁ h₁ ↦ (blames_load h₁).bind
      fun list s₂ h₂ ↦ ?_
    refine (blames_eval hT hinvoke hfits.1 h₂).bind fun index s₃ h₃ ↦ ?_
    refine (blames_eval hT hinvoke hfits.2 h₃).bind fun v s₄ h₄ ↦ ?_
    refine (blames_onHeap h₄ fun e h' he ↦ Heap.storeIndex_error he).bind fun _ s₅ h₅ ↦ ?_
    exact blames_pure (ran_of_nothing h₅ fun _ ↦ rfl)
  | .assignAttribute object name value, _, hfits, _, h => by
    rw [execWith, execWith]
    refine (blames_counted h).bind fun _ s₁ h₁ ↦ (blames_load h₁).bind
      fun o s₂ h₂ ↦ ?_
    refine (blames_eval hT hinvoke (e := value) hfits h₂).bind fun v s₃ h₃ ↦ ?_
    refine (blames_onHeap h₃ fun e h' he ↦ Heap.setAttribute_error he).bind fun _ s₄ h₄ ↦ ?_
    exact blames_pure (ran_of_nothing h₄ fun _ ↦ rfl)
  | .print value, _, hfits, _, h => by
    rw [execWith, execWith]
    refine (blames_counted h).bind fun _ s₁ h₁ ↦ ?_
    refine (blames_eval hT hinvoke (e := value) hfits h₁).bind fun v s₂ h₂ ↦ ?_
    exact blames_modify_bind (blames_pure (ran_of_nothing (h₂.congr rfl rfl) fun _ ↦ rfl))
  | .expr value, _, hfits, _, h => by
    rw [execWith, execWith]
    refine (blames_counted h).bind fun _ s₁ h₁ ↦ ?_
    refine (blames_eval hT hinvoke (e := value) hfits h₁).bind fun v s₂ h₂ ↦ ?_
    exact blames_pure (ran_of_nothing h₂ fun _ ↦ rfl)
  | .ifElse condition body orelse, _, hfits, htop, h => by
    have hnothing (hstrict : strict) := (htop hstrict).nothing_ifElse
    rw [execWith, execWith]
    refine (blames_counted h).bind fun _ s₁ h₁ ↦ ?_
    refine (blames_eval hT hinvoke hfits.1 h₁).bind fun v s₂ h₂ ↦ blames_get_bind ?_
    have hwhole (hstrict : strict) :
        definitionsOfStmt (.ifElse condition body orelse) = ([], []) := by
      simp [definitionsOfStmt, hnothing hstrict]
    split
    · refine (blames_execBlock hT hinvoke hfits.2.1
        (fun hstrict ↦ atTopLevel_of_definitions (hnothing hstrict).1) h₂).mono fun c s' hc ↦ ?_
      exact ran_of_nothing hc hwhole
    · refine (blames_execBlock hT hinvoke hfits.2.2
        (fun hstrict ↦ atTopLevel_of_definitions (hnothing hstrict).2)
        (h₂.knowing fun hstrict ↦ (hnothing hstrict).1)).mono fun c s' hc ↦ ?_
      exact ran_of_nothing (hc.mono fun n hn ↦ hc.known n (.inl hn)) hwhole
  | .whileLoop condition body, _, hfits, htop, h => by
    have hnothing (hstrict : strict) := (htop hstrict).nothing_whileLoop
    refine (blames_whileLoop hT hinvoke hfits.1 (blames_execBlock hT hinvoke hfits.2
      fun hstrict ↦ atTopLevel_of_definitions (hnothing hstrict)) h).mono fun c s' hc ↦ ?_
    exact ran_of_nothing hc hnothing
  | .forRange name start stop body, _, hfits, htop, h => by
    have hnothing (hstrict : strict) := (htop hstrict).nothing_forRange
    refine (blames_forRange hT hinvoke hfits.1 hfits.2.1 (blames_execBlock hT hinvoke hfits.2.2
      fun hstrict ↦ atTopLevel_of_definitions (hnothing hstrict)) h).mono fun c s' hc ↦ ?_
    exact ran_of_nothing hc hnothing
  | .define routine, _, hfits, _, h => by
    rw [execWith, execWith]
    refine (blames_counted h).bind fun _ s₁ h₁ ↦ ?_
    exact blames_modify_bind (blames_pure (ran_of_knowing (h₁.define hfits)))
  | .defineClass definition, _, hfits, _, h => by
    rw [execWith, execWith]
    refine (blames_counted h).bind fun _ s₁ h₁ ↦ ?_
    exact blames_modify_bind (blames_pure (ran_of_knowing (h₁.defineClass hfits)))
  | .return none, _, _, _, h => by
    rw [execWith, execWith]
    refine (blames_counted h).bind fun _ s₁ h₁ ↦ ?_
    exact blames_pure (ran_of_nothing h₁ fun _ ↦ rfl)
  | .return (some value), _, hfits, _, h => by
    rw [execWith, execWith]
    refine (blames_counted h).bind fun _ s₁ h₁ ↦ ?_
    refine (blames_eval hT hinvoke (e := value) hfits h₁).bind fun v s₂ h₂ ↦ ?_
    exact blames_pure (ran_of_nothing h₂ fun _ ↦ rfl)
  | .pass, _, _, _, h => by
    rw [execWith, execWith]
    refine (blames_counted h).bind fun _ s₁ h₁ ↦ ?_
    exact blames_pure (ran_of_nothing h₁ fun _ ↦ rfl)

theorem blames_execBlock (hT : BuiltinsFit T) (hinvoke : InvokesAlike T strict e' invoke invoke')
    {K : String → Prop} :
    ∀ {block : List Stmt} {s : WalkState}, BlockFits T K block →
      (strict → ∀ st ∈ block, st.AtTopLevel) → Linked T strict K s →
      Blames strict e' (execBlockWith limits fuel (plain invoke) block)
        (execBlockWith limits fuel (blaming e' invoke') block) s fun _ s' ↦ Linked T strict K s'
  | [], _, _, _, h => by
    rw [execBlockWith, execBlockWith]
    exact blames_pure h
  | st :: _, _, hfits, htop, h => by
    rw [execBlockWith, execBlockWith]
    refine (blames_exec hT hinvoke hfits.1
      (fun hstrict ↦ htop hstrict st List.mem_cons_self) h).bind fun c s₁ h₁ ↦ ?_
    cases c with
    | returned v => exact blames_pure h₁.1
    | next =>
      refine (blames_execBlock hT hinvoke hfits.2
        (fun hstrict st' hst' ↦ htop hstrict st' (List.mem_cons_of_mem st hst'))
        (h₁.2 rfl)).mono fun c s' hc ↦ ?_
      exact hc.mono fun n hn ↦ hc.known n (.inl hn)

end

/-- Running the body of a routine that fits is alike. The names that the caller knows and those
that the routine was defined with are known inside of it. -/
theorem invokesAlike (hT : BuiltinsFit T) (limits : Limits) (fuel : Nat) :
    InvokesAlike T strict e' (invokeWith plain limits fuel)
      (invokeWith (blaming e') limits fuel) := by
  induction fuel with
  | zero => exact ⟨fun _ _ _ ↦ trivial, fun _ ↦ .inl rfl⟩
  | succ fuel ih =>
    refine ⟨fun {K s r args} h hr hlength ↦ ?_, fun {s r args} hlength ↦ .inr ?_⟩
    · obtain ⟨K', hfits, hK'⟩ := hr
      rw [invokeWith, invokeWith]
      refine blames_get_bind (blames_get_bind ?_)
      refine Blames.bind (P := fun _ s' ↦ s = s') (blames_same (ensures_ofExcept
        (fun _ _ ↦ rfl) fun e he ↦ ?_)) ?_
      · obtain ⟨hne, -⟩ | ⟨-, limit, rfl⟩ := Limits.admitEntry_eq_error he
        · exact absurd hlength hne
        · exact blameless_error id fun n hn ↦ by cases hn
      · rintro _ s₀ heq
        subst heq
        obtain ⟨name, params, body⟩ := r
        have hinner : Linked T strict (fun n ↦ K n ∨ K' n)
            { s with
              locals := some (Bindings.ofList (params.zip args)), depth := s.depth + 1 } :=
          (h.mono fun n hn ↦ hn.elim (h.known n) (hK' n)).congr rfl rfl
        refine blames_modify_bind ((blames_execBlock hT ih
          (blockFits_mono (fun n ↦ .inr) hfits.2)
          (fun _ ↦ atTopLevel_of_definitions hfits.1) hinner).bind fun c s' hc ↦ ?_)
        have houter : Linked T strict K { s' with locals := s.locals, depth := s.depth } :=
          (hc.mono fun n hn ↦ hc.known n (.inl hn)).congr rfl rfl
        refine blames_modify_bind ?_
        cases c with
        | returned v => exact blames_pure houter
        | next => exact blames_pure houter
    · refine ⟨r.name, r.params.length, args.length, ?_⟩
      rw [invokeWith]
      show outcome (ofExcept (limits.admitEntry r.name r.params args.length s.depth) >>= _) s = _
      rw [Limits.admitEntry, if_neg hlength]
      rfl

end

/-- A program that fits is walked as it is where methods are blamed. -/
theorem blames_program {T : String → Option Nat} {strict : Prop} {K : String → Prop}
    {program : Block} (hT : BuiltinsFit T) (hfits : BlockFits T K program)
    (hK : ∀ n, K n → (Builtin.ofName? n).isSome = true)
    (htop : strict → ∀ st ∈ program, st.AtTopLevel) (limits : Limits) (fuel : Nat)
    (e' : RuntimeError) :
    Blames strict e' (programWith plain limits fuel program)
      (programWith (blaming e') limits fuel program) .initial fun _ _ ↦ True := by
  have hinitial : Linked T strict K .initial :=
    ⟨fun n r hr ↦ (by cases hr), fun n c hc ↦ (by cases hc), fun n hn _ ↦ .inl (hK n hn)⟩
  refine (blames_execBlock hT (invokesAlike hT limits fuel) hfits htop hinitial).bind
    fun c s' _ ↦ ?_
  cases c with
  | next => exact blames_pure trivial
  | returned v => exact blames_fail id fun _ hn ↦ by cases hn

end Walk

section

variable {T : String → Option Nat} {K : String → Prop} {program : Block} {limits : Limits}
  {fuel : Nat} {a : Answer}

/-- The answer of a program that fits, where methods are blamed. -/
theorem walkWith_blaming (hT : BuiltinsFit T) (hfits : BlockFits T K program)
    (hK : ∀ n, K n → (Builtin.ofName? n).isSome = true) (ha : walk program limits fuel = some a)
    (e' : RuntimeError) :
    Walk.walkWith (Walk.blaming e') program limits fuel = some (a.blamed e') := by
  have hblames : Walk.Blames False e' _ _ _ _ :=
    Walk.blames_program hT hfits hK False.elim limits fuel e'
  rw [← Walk.walkWith_plain] at ha
  unfold Walk.Blames at hblames
  unfold Walk.walkWith at ha ⊢
  generalize Walk.outcome (Walk.programWith Walk.plain limits fuel program) .initial = o
    at hblames ha
  obtain ⟨(e | _) | _, s⟩ := o
  · cases ha
    rw [hblames.1]
    rfl
  · cases ha
  · cases ha
    rw [hblames.1]
    rfl

/-- Where a program that fits defines at its top level only, a walk finds what it calls. -/
theorem walk_finds (hT : BuiltinsFit T) (hfits : BlockFits T K program)
    (hK : ∀ n, K n → (Builtin.ofName? n).isSome = true)
    (htop : ∀ st ∈ program, st.AtTopLevel) (ha : walk program limits fuel = some a)
    (name : String) : a.error ≠ some (.undefinedFunction name) := by
  have hblames : Walk.Blames True (.undefinedFunction name) _ _ _ _ :=
    Walk.blames_program hT hfits hK (fun _ ↦ htop) limits fuel _
  rw [← Walk.walkWith_plain] at ha
  unfold Walk.Blames at hblames
  unfold Walk.walkWith at ha
  generalize Walk.outcome (Walk.programWith Walk.plain limits fuel program) .initial = o
    at hblames ha
  obtain ⟨(e | _) | _, s⟩ := o
  · cases ha
    exact fun he ↦ hblames.2 trivial name (Option.some.inj he)
  · cases ha
  · cases ha
    exact fun he ↦ by cases he

end

end Offside
