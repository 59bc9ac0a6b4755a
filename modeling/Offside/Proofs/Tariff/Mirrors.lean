import Offside.Proofs.Tariff
import Mathlib.Tactic.Basic

/-!
Walks that mirror one another. `Mirrors f counted x y` says that from similar states `x` and `y` end
alike: with the same result in similar states, or interrupted for the same cause with the same lines
printed. In similar states the routines of the second are images under `f` of those of the first,
and if steps are `counted` then the second has taken no more of them. The rules follow the parts
that walks are put together from.
-/

set_option autoImplicit false
set_option relaxedAutoImplicit false

namespace Offside

/-- A class with other methods in place of its own. -/
def Class.mapMethods (f : Routine Block → Routine Block) (c : Class Block) : Class Block :=
  ⟨c.name, c.methods.map f⟩

theorem Class.method?_mapMethods {f : Routine Block → Routine Block}
    (hf : ∀ r, (f r).name = r.name) (c : Class Block) (name : String) :
    (c.mapMethods f).method? name = (c.method? name).map f := by
  have hfind (ms : List (Routine Block)) :
      (ms.map f).find? (fun m ↦ m.name = name) = (ms.find? fun m ↦ m.name = name).map f := by
    induction ms with
    | nil => rfl
    | cons m ms ih => by_cases hm : m.name = name <;> simp [hf, hm, ih]
  exact hfind c.methods

namespace Walk

/-- States that differ in the images of their routines and in their counts of steps. -/
structure Similar (f : Routine Block → Routine Block) (counted : Prop) (s t : WalkState) :
    Prop where
  globals : t.globals = s.globals
  locals : t.locals = s.locals
  functions : ∀ n, t.functions.get? n = (s.functions.get? n).map f
  classes : ∀ n, t.classes.get? n = (s.classes.get? n).map (Class.mapMethods f)
  heap : t.heap = s.heap
  depth : t.depth = s.depth
  output : t.output = s.output
  steps : counted → t.steps ≤ s.steps

section

variable {α β σ : Type} (f : Routine Block → Routine Block) (counted : Prop)

/-- The part `x` of a walk begun in `s` and the part `y` begun in `t` end alike. -/
def MirrorsAt (s t : WalkState) (x y : Walk α) : Prop :=
  match outcome x s, outcome y t with
  | (.ok a, s'), (.ok b, t') => b = a ∧ Similar f counted s' t'
  | (.error i, s'), (.error j, t') =>
    j = i ∧ t'.output = s'.output ∧ (counted → t'.steps ≤ s'.steps)
  | _, _ => False

/-- Two parts of walks end alike wherever they are begun in similar states. -/
def Mirrors (x y : Walk α) : Prop :=
  ∀ ⦃s t : WalkState⦄, Similar f counted s t → MirrorsAt f counted s t x y

end

section

variable {α β σ : Type} {f : Routine Block → Routine Block} {counted : Prop}
  {s t : WalkState}

theorem mirrors_pure (a : α) : Mirrors f counted (pure a) (pure a) :=
  fun _ _ h ↦ ⟨rfl, h⟩

theorem mirrors_throw (i : Interrupt) : Mirrors f counted (throw i : Walk α) (throw i) :=
  fun _ _ h ↦ ⟨rfl, h.output, h.steps⟩

theorem mirrors_fail (e : RuntimeError) : Mirrors f counted (fail e : Walk α) (fail e) :=
  mirrors_throw (.error e)

theorem MirrorsAt.bind {x y : Walk β} {g k : β → Walk α} (hx : MirrorsAt f counted s t x y)
    (hg : ∀ b, Mirrors f counted (g b) (k b)) :
    MirrorsAt f counted s t (x >>= g) (y >>= k) := by
  unfold MirrorsAt at hx ⊢
  rw [outcome_bind, outcome_bind]
  generalize outcome x s = o at hx ⊢
  generalize outcome y t = p at hx ⊢
  obtain ⟨_ | a, s'⟩ := o <;> obtain ⟨_ | b, t'⟩ := p
  · exact hx
  · exact hx.elim
  · exact hx.elim
  · obtain ⟨rfl, hsimilar⟩ := hx
    exact hg b hsimilar

theorem Mirrors.bind {x y : Walk β} {g k : β → Walk α} (hx : Mirrors f counted x y)
    (hg : ∀ b, Mirrors f counted (g b) (k b)) : Mirrors f counted (x >>= g) (y >>= k) :=
  fun _ _ h ↦ (hx h).bind hg

theorem mirrors_get_bind {g k : WalkState → Walk α}
    (h : ∀ s t, Similar f counted s t → MirrorsAt f counted s t (g s) (k t)) :
    Mirrors f counted (get >>= g) (get >>= k) :=
  fun s t hst ↦ h s t hst

theorem mirrors_modify {g k : WalkState → WalkState}
    (h : ∀ s t, Similar f counted s t → Similar f counted (g s) (k t)) :
    Mirrors f counted (modify g) (modify k) :=
  fun s t hst ↦ ⟨rfl, h s t hst⟩

theorem mirrors_ofExcept (r : Except RuntimeError α) :
    Mirrors f counted (ofExcept r) (ofExcept r) := by
  cases r with
  | ok a => exact mirrors_pure a
  | error e => exact mirrors_fail e

theorem mirrors_load (name : String) : Mirrors f counted (load name) (load name) := by
  refine mirrors_get_bind fun s t h ↦ ?_
  have hlookup : t.lookup name = s.lookup name := by
    unfold WalkState.lookup
    rw [h.locals, h.globals]
  rw [hlookup]
  split
  · exact mirrors_pure _ h
  · exact mirrors_fail _ h

theorem mirrors_store (name : String) (value : Value) :
    Mirrors f counted (store name value) (store name value) := by
  refine mirrors_modify fun s t h ↦ ?_
  obtain ⟨globals, locals, functions, classes, heap, steps, depth, output⟩ := s
  obtain ⟨globals', locals', functions', classes', heap', steps', depth', output'⟩ := t
  obtain ⟨hglobals, hlocals, hfunctions, hclasses, hheap, hdepth, houtput, hsteps⟩ := h
  cases hglobals
  cases hlocals
  cases locals with
  | none => exact ⟨rfl, rfl, hfunctions, hclasses, hheap, hdepth, houtput, hsteps⟩
  | some locals => exact ⟨rfl, rfl, hfunctions, hclasses, hheap, hdepth, houtput, hsteps⟩

theorem mirrors_onHeap (operation : Heap → Heap.Effect α) :
    Mirrors f counted (onHeap operation) (onHeap operation) := by
  intro s t h
  unfold MirrorsAt
  rw [outcome_onHeap, outcome_onHeap, h.heap]
  generalize operation s.heap = effect
  obtain ⟨e | a, heap⟩ := effect
  · exact ⟨rfl, h.output, h.steps⟩
  · exact ⟨rfl, { h with heap := rfl }⟩

theorem mirrors_observe (reading : Heap → Except RuntimeError α) :
    Mirrors f counted (observe reading) (observe reading) := by
  refine mirrors_get_bind fun s t h ↦ ?_
  rw [h.heap]
  exact mirrors_ofExcept _ h

theorem mirrors_allocate (cell : Heap → Value × Heap) :
    Mirrors f counted (allocate cell) (allocate cell) :=
  mirrors_onHeap _

/-- The same turns make the same loops. -/
theorem mirrors_iterate {turn turn' : σ → Walk (σ ⊕ α)}
    (h : ∀ x, Mirrors f counted (turn x) (turn' x)) (fuel : Nat) :
    ∀ x, Mirrors f counted (iterate turn fuel x) (iterate turn' fuel x) := by
  induction fuel with
  | zero => exact fun _ ↦ mirrors_throw .outOfFuel
  | succ fuel ih =>
    intro x
    rw [iterate, iterate]
    refine (h x).bind fun r ↦ ?_
    cases r with
    | inl y => exact ih y
    | inr a => exact mirrors_pure a

/-! ### Charges -/

/-- Both sides may be charged, the second no more than the first where it counts. -/
theorem mirrors_charge {n k : Nat} (hle : counted → k ≤ n) :
    Mirrors f counted (Tariff.charge n) (Tariff.charge k) := by
  unfold Tariff.charge
  refine mirrors_modify fun s t h ↦ ?_
  exact { h with steps := fun hc ↦ Nat.add_le_add (h.steps hc) (hle hc) }

/-- A charge on the first side alone. -/
theorem Mirrors.charge_left {x y : Walk α} (h : Mirrors f counted x y) (n : Nat) :
    Mirrors f counted (do Tariff.charge n; x) y := by
  intro s t hst
  have hcharged : Similar f counted { s with steps := s.steps + n } t :=
    { hst with steps := fun hc ↦ Nat.le_trans (hst.steps hc) (Nat.le_add_right _ n) }
  exact h hcharged

/-- A charge on the second side alone, where it does not count. -/
theorem Mirrors.charge_right {x y : Walk α} (h : Mirrors f counted x y) (hc : ¬counted)
    (n : Nat) : Mirrors f counted x (do Tariff.charge n; y) := by
  intro s t hst
  have hcharged : Similar f counted s { t with steps := t.steps + n } :=
    { hst with steps := fun hcounted ↦ absurd hcounted hc }
  exact h hcharged

/-- What costs nothing in place of a value that is charged for. -/
theorem Mirrors.uncharged {x : Walk α} {n : Nat} {a : α}
    (h : Mirrors f counted x (do Tariff.charge n; return a)) : Mirrors f counted x (pure a) := by
  intro s t hst
  have hcharged := h hst
  unfold MirrorsAt at hcharged ⊢
  generalize outcome x s = o at hcharged ⊢
  obtain ⟨_ | b, s'⟩ := o
  · exact hcharged
  · obtain ⟨rfl, hsimilar⟩ := hcharged
    exact ⟨rfl, { hsimilar with
      steps := fun hc ↦ Nat.le_trans (Nat.le_add_right _ n) (hsimilar.steps hc) }⟩

/-- A value that is known because it costs the other side no more than a charge. -/
theorem Mirrors.bind_charged {x : Walk β} {y : Walk α} {g : β → Walk α} {n : Nat} {b : β}
    (hx : Mirrors f counted x (do Tariff.charge n; return b)) (hg : Mirrors f counted (g b) y) :
    Mirrors f counted (x >>= g) (do Tariff.charge n; y) := by
  intro s t hst
  have hcharged := hx hst
  unfold MirrorsAt at hcharged ⊢
  rw [outcome_bind]
  generalize outcome x s = o at hcharged ⊢
  obtain ⟨_ | c, s'⟩ := o
  · exact hcharged.elim
  · obtain ⟨rfl, hsimilar⟩ := hcharged
    exact hg hsimilar

/-- A value that is known because it costs the other side nothing. -/
theorem Mirrors.bind_known {x : Walk β} {y : Walk α} {g : β → Walk α} {b : β}
    (hx : Mirrors f counted x (pure b)) (hg : Mirrors f counted (g b) y) :
    Mirrors f counted (x >>= g) y :=
  Mirrors.bind_charged (n := 0) hx hg

/-! ### Metered parts -/

theorem Mirrors.perform {x y : Walk α} (h : Mirrors f counted x y) (t : Tariff)
    (operands : Nat) : Mirrors f counted (t.perform operands x) (t.perform operands y) :=
  (mirrors_charge fun _ ↦ Nat.le_refl _).bind fun _ ↦
    (mirrors_charge fun _ ↦ Nat.le_refl _).bind fun _ ↦ h

theorem Mirrors.operate {x y : Walk α} (h : Mirrors f counted x y) (t : Tariff)
    (operands : Nat) : Mirrors f counted (t.operate operands x) (t.operate operands y) :=
  (h.perform t operands).bind fun a ↦
    (mirrors_charge fun _ ↦ Nat.le_refl _).bind fun _ ↦ mirrors_pure a

theorem mirrors_meteredLoad (t : Tariff) (name : String) :
    Mirrors f counted (t.load name) (t.load name) :=
  (mirrors_charge fun _ ↦ Nat.le_refl _).bind fun _ ↦ mirrors_load name

theorem mirrors_test (t : Tariff) (v : Value) : Mirrors f counted (t.test v) (t.test v) := by
  refine Mirrors.perform (mirrors_get_bind fun s s' h ↦ ?_) t 1
  rw [h.heap]
  exact mirrors_pure _ h

theorem mirrors_countUp (t : Tariff) (counter : Value) :
    Mirrors f counted (t.countUp counter) (t.countUp counter) := by
  refine (mirrors_charge fun _ ↦ Nat.le_refl _).bind fun _ ↦ ?_
  refine (mirrors_charge fun _ ↦ Nat.le_refl _).bind fun _ ↦ ?_
  exact ((mirrors_onHeap _).operate t 2).bind fun next ↦ (mirrors_pure next).perform t 1

theorem mirrors_endTurn {rest rest' : Walk σ} (h : Mirrors f counted rest rest')
    (c : Completion) : Mirrors f counted (Tariff.endTurn rest c) (Tariff.endTurn rest' c) := by
  cases c with
  | returned v => exact mirrors_pure _
  | next =>
    exact h.bind fun next ↦ (mirrors_charge fun _ ↦ Nat.le_refl _).bind fun _ ↦ mirrors_pure _

theorem mirrors_whileTurn (t : Tariff) {condition condition' : Walk Value}
    {body body' : Walk Completion} (hcondition : Mirrors f counted condition condition')
    (hbody : Mirrors f counted body body') (u : Unit) :
    Mirrors f counted (t.whileTurn condition body u) (t.whileTurn condition' body' u) := by
  refine hcondition.bind fun v ↦ (mirrors_test t v).bind fun b ↦ ?_
  cases b with
  | false => exact mirrors_pure _
  | true => exact hbody.bind fun c ↦ mirrors_endTurn (mirrors_pure ()) c

theorem mirrors_forTurn (t : Tariff) (name : String) (bound : Value) {body body' : Walk Completion}
    (hbody : Mirrors f counted body body') (counter : Value) :
    Mirrors f counted (t.forTurn name bound body counter) (t.forTurn name bound body' counter) := by
  refine (mirrors_charge fun _ ↦ Nat.le_refl _).bind fun _ ↦ ?_
  refine (mirrors_charge fun _ ↦ Nat.le_refl _).bind fun _ ↦ ?_
  refine ((mirrors_observe _).operate t 2).bind fun v ↦ (mirrors_test t v).bind fun b ↦ ?_
  cases b with
  | false => exact mirrors_pure _
  | true =>
    refine (mirrors_charge fun _ ↦ Nat.le_refl _).bind fun _ ↦ ?_
    refine ((mirrors_store name counter).perform t 1).bind fun _ ↦ ?_
    exact hbody.bind fun c ↦ mirrors_endTurn (mirrors_countUp t counter) c

/-! ### Calls -/

variable {invoke invoke' : Invocation}

/-- Calls mirror one another if invocations do on the images of routines. -/
theorem mirrors_call (hf : ∀ r, (f r).name = r.name)
    (hinvoke : ∀ r args, Mirrors f counted (invoke r args) (invoke' (f r) args)) (name : String)
    (args : List Value) : Mirrors f counted (call invoke name args) (call invoke' name args) := by
  unfold call
  split
  · exact mirrors_observe _
  · refine mirrors_get_bind fun s t h ↦ ?_
    rw [h.functions name]
    cases s.functions.get? name with
    | some r => exact hinvoke r args h
    | none =>
      refine mirrors_get_bind (fun s t h ↦ ?_) h
      rw [h.classes name]
      cases s.classes.get? name with
      | none => exact mirrors_fail _ h
      | some c =>
        refine (mirrors_allocate _ h).bind fun made ↦ ?_
        rw [Class.method?_mapMethods hf]
        cases c.method? constructorName with
        | some r => exact (hinvoke r _).bind fun _ ↦ mirrors_pure made
        | none =>
          cases args with
          | nil => exact mirrors_pure made
          | cons value rest => exact mirrors_fail _

theorem mirrors_callMethod (hf : ∀ r, (f r).name = r.name)
    (hinvoke : ∀ r args, Mirrors f counted (invoke r args) (invoke' (f r) args))
    (receiver : Value) (name : String) (args : List Value) :
    Mirrors f counted (callMethod invoke receiver name args)
      (callMethod invoke' receiver name args) := by
  cases receiver with
  | list cell =>
    rw [callMethod, callMethod]
    exact mirrors_onHeap _
  | object cell =>
    refine mirrors_get_bind fun s t h ↦ mirrors_get_bind (fun s' t' h' ↦ ?_) h
    rw [h.heap, h'.classes]
    cases s'.classes.get? (s.heap.className cell) with
    | none => exact mirrors_fail _ h'
    | some c =>
      simp only [Option.map_some, Option.bind_some, Class.method?_mapMethods hf]
      cases c.method? name with
      | some r => exact hinvoke r _ h'
      | none => exact mirrors_fail _ h'
  | _ =>
    refine mirrors_get_bind fun s t h ↦ ?_
    rw [h.heap]
    exact mirrors_fail _ h

end

end Walk

end Offside
