import Offside.TreeWalk

/-!
What a part of a walk ensures. `Ensures x s Q E` says that `x`, begun in the state `s`, ends with a
result and a state that satisfy `Q`, or is interrupted with a cause and a state that satisfy `E`.
There is one rule for each of the parts that walks are put together from, so that a walk is
reasoned about along its text (`ensures_bind`) and a loop by an invariant (`ensures_iterate`).
-/

set_option autoImplicit false
set_option relaxedAutoImplicit false

namespace Offside.Walk

section

variable {α β : Type}

/-- What a part of a walk ends in, and the state behind it. -/
def outcome (x : Walk α) (s : WalkState) : Except Interrupt α × WalkState :=
  x.run.run s

theorem outcome_bind (x : Walk α) (f : α → Walk β) (s : WalkState) :
    outcome (x >>= f) s =
      match outcome x s with
      | (.ok a, s') => outcome (f a) s'
      | (.error i, s') => (.error i, s') := by
  simp only [outcome, ExceptT.run_bind, StateT.run_bind]
  generalize x.run.run s = p
  obtain ⟨_ | _, _⟩ := p <;> rfl

/-- A part of a walk that is begun in `s` ends in `Q` or is interrupted in `E`. -/
def Ensures (x : Walk α) (s : WalkState) (Q : α → WalkState → Prop)
    (E : Interrupt → WalkState → Prop) : Prop :=
  match outcome x s with
  | (.ok a, s') => Q a s'
  | (.error i, s') => E i s'

variable {s : WalkState} {Q R : α → WalkState → Prop} {E F : Interrupt → WalkState → Prop}

theorem Ensures.mono {x : Walk α} (h : Ensures x s Q E) (hQ : ∀ a s', Q a s' → R a s')
    (hE : ∀ i s', E i s' → F i s') : Ensures x s R F := by
  unfold Ensures at h ⊢
  split at h
  · exact hQ _ _ h
  · exact hE _ _ h

theorem Ensures.post {x : Walk α} (h : Ensures x s Q E) (hQ : ∀ a s', Q a s' → R a s') :
    Ensures x s R E :=
  h.mono hQ fun _ _ h ↦ h

/-! ### The parts of a walk -/

theorem ensures_bind {x : Walk β} {f : β → Walk α} :
    Ensures (x >>= f) s Q E ↔ Ensures x s (fun b s' ↦ Ensures (f b) s' Q E) E := by
  unfold Ensures
  rw [outcome_bind]
  generalize outcome x s = o
  obtain ⟨_ | _, _⟩ := o <;> rfl

/-- Parts of a walk in a row, with what holds between them. -/
theorem Ensures.bind {x : Walk β} {f : β → Walk α} {P : β → WalkState → Prop}
    (hx : Ensures x s P E) (hf : ∀ b s', P b s' → Ensures (f b) s' Q E) :
    Ensures (x >>= f) s Q E :=
  ensures_bind.mpr (hx.post hf)

@[simp]
theorem ensures_get_bind {f : WalkState → Walk α} :
    Ensures (get >>= f) s Q E ↔ Ensures (f s) s Q E :=
  ensures_bind

@[simp]
theorem ensures_modify_bind {g : WalkState → WalkState} {f : Unit → Walk α} :
    Ensures (modify g >>= f) s Q E ↔ Ensures (f ()) (g s) Q E :=
  ensures_bind

theorem ensures_ofExcept {r : Except RuntimeError α} (hok : ∀ a, r = .ok a → Q a s)
    (herror : ∀ e, r = .error e → E (.error e) s) : Ensures (ofExcept r) s Q E := by
  cases r with
  | ok a => exact hok a rfl
  | error e => exact herror e rfl

theorem ensures_load {name : String} {Q : Value → WalkState → Prop}
    (hsome : ∀ v, s.lookup name = some v → Q v s)
    (hnone : s.lookup name = none → E (.error (.undefinedVariable name)) s) :
    Ensures (load name) s Q E := by
  rw [load, ensures_get_bind]
  split
  · next v h => exact hsome v h
  · next h => exact hnone h

theorem outcome_get_bind (f : WalkState → Walk α) (s : WalkState) :
    outcome (get >>= f) s = outcome (f s) s :=
  rfl

theorem outcome_onHeap (operation : Heap → Heap.Effect α) (s : WalkState) :
    outcome (onHeap operation) s =
      ((operation s.heap).1.mapError .error, { s with heap := (operation s.heap).2 }) :=
  rfl

theorem ensures_onHeap {operation : Heap → Heap.Effect α}
    (hok : ∀ a h, operation s.heap = (.ok a, h) → Q a { s with heap := h })
    (herror : ∀ e h, operation s.heap = (.error e, h) → E (.error e) { s with heap := h }) :
    Ensures (onHeap operation) s Q E := by
  unfold Ensures
  rw [outcome_onHeap]
  cases hop : operation s.heap with
  | mk r h =>
    cases r with
    | ok a => exact hok a h hop
    | error e => exact herror e h hop

theorem ensures_observe {reading : Heap → Except RuntimeError α}
    (hok : ∀ a, reading s.heap = .ok a → Q a s)
    (herror : ∀ e, reading s.heap = .error e → E (.error e) s) :
    Ensures (observe reading) s Q E := by
  rw [observe, ensures_get_bind]
  exact ensures_ofExcept hok herror

/-- A loop keeps an invariant if each of its turns does. It may run out of fuel wherever the
invariant holds. -/
theorem ensures_iterate {σ : Type} {turn : σ → Walk (σ ⊕ α)} {I : σ → WalkState → Prop}
    (hturn : ∀ x s, I x s →
      Ensures (turn x) s (fun r s' ↦ r.elim (fun y ↦ I y s') fun a ↦ Q a s') E)
    (hfuel : ∀ x s, I x s → E .outOfFuel s) (fuel : Nat) :
    ∀ x s, I x s → Ensures (iterate turn fuel x) s Q E := by
  induction fuel with
  | zero => exact hfuel
  | succ fuel ih =>
    intro x s hx
    rw [iterate]
    refine (hturn x s hx).bind fun r s' hr ↦ ?_
    cases r with
    | inl y => exact ih y s' hr
    | inr a => exact hr

end

/-! ### Answers -/

/-- The answer of a program whose walk has the given outcome. -/
def answer? : Except Interrupt Unit × WalkState → Option Answer
  | (.ok (), s) => some ⟨s.output.toList, none⟩
  | (.error (.error e), s) => some ⟨s.output.toList, some e⟩
  | (.error .outOfFuel, _) => none

theorem walk_eq_answer? (program : Block) (limits : Limits) (fuel : Nat) :
    walk program limits fuel = answer? (outcome (Walk.program limits fuel program) .initial) := by
  unfold walk outcome
  generalize ((Walk.program limits fuel program).run.run .initial) = o
  obtain ⟨(e | _) | _, s⟩ := o <;> rfl

end Offside.Walk
