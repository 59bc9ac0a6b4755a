import Offside.Proofs.Number.Counting
import Offside.Proofs.Walk.Ensures

/-!
Counting loops on the tree. A loop up to an integer runs its body with the variable bound to each
number below the integer in turn (`forEach`), whatever the body does; it computes the integer once,
in front of all that.
-/

set_option autoImplicit false
set_option relaxedAutoImplicit false

namespace Offside.Walk

/-- Runs a body with a variable bound to each of the given values in turn. A step is counted behind
each run, and a body that returns ends the loop. -/
def forEach (limits : Limits) (name : String) (body : Walk Completion) :
    List Value → Walk Completion
  | [] => return .next
  | v :: vs => do
    store name v
    match ← body with
    | .returned value => return .returned value
    | .next =>
      tick limits
      forEach limits name body vs

/-- A turn of a counting loop with the given bound, at the given count. -/
def countTurn (limits : Limits) (name : String) (body : Walk Completion) (bound count : Value) :
    Walk (Value ⊕ Completion) := do
  if ← observe fun h ↦ h.compare .lt count bound then
    store name count
    match ← body with
    | .returned value => return .inr (.returned value)
    | .next =>
      let next ← onHeap fun h ↦ h.arith .add count (.number (.int 1))
      tick limits
      return .inl next
  else return .inr .next

/-- A counting loop counts a step, computes its start and its bound, and takes its turns. -/
theorem exec_forRange (limits : Limits) (fuel : Nat) (invoke : Invocation) (name : String)
    (start stop : Expr) (body : Block) :
    exec limits fuel invoke (.forRange name start stop body) = (do
      tick limits
      let first ← eval invoke start
      let bound ← eval invoke stop
      iterate (countTurn limits name (execBlock limits fuel invoke body) bound) fuel first) := by
  rw [exec]
  rfl

/-- Begun in any state, the first does what the second does, or it runs out of fuel. -/
def RunsShort {α : Type} (x y : Walk α) : Prop :=
  ∀ s, outcome x s = outcome y s ∨ ∃ s', outcome x s = (.error .outOfFuel, s')

section

variable {α β : Type}

theorem RunsShort.refl (x : Walk α) : RunsShort x x :=
  fun _ ↦ .inl rfl

theorem RunsShort.bind (x : Walk β) {f g : β → Walk α} (h : ∀ b, RunsShort (f b) (g b)) :
    RunsShort (x >>= f) (x >>= g) := by
  intro s
  rw [outcome_bind, outcome_bind]
  generalize outcome x s = o
  obtain ⟨i | b, s'⟩ := o
  · exact .inl rfl
  · exact h b s'

/-- What every heap shows is known. -/
theorem observe_bind {reading : Heap → Except RuntimeError β} {b : β}
    (h : ∀ heap, reading heap = .ok b) (f : β → Walk α) : observe reading >>= f = f b := by
  have hreading : reading = fun _ ↦ .ok b := funext h
  subst hreading
  rfl

/-- What an operation gives on every heap, without changing it, is known. -/
theorem onHeap_bind {operation : Heap → Heap.Effect β} {b : β}
    (h : ∀ heap, operation heap = (.ok b, heap)) (f : β → Walk α) :
    onHeap operation >>= f = f b := by
  have hoperation : operation = fun heap ↦ (.ok b, heap) := funext h
  subst hoperation
  rfl

end

section

variable {limits : Limits} {name : String} {body : Walk Completion} {bound : Value} {n : Int64}
  {k fuel : Nat}

/-- A turn below the bound runs the body at its count, and leads to the next count. -/
theorem countTurn_below (hbound : bound.number? = some (.int n)) (hk : k < n.toInt.toNat) :
    countTurn limits name body bound (.ofNat k) = (do
      store name (.ofNat k)
      match ← body with
      | .returned value => return .inr (.returned value)
      | .next =>
        tick limits
        return .inl (.ofNat (k + 1))) := by
  rw [countTurn, observe_bind fun h ↦ h.compare_count hbound (Nat.le_of_lt hk),
    if_pos (decide_eq_true hk)]
  refine congrArg (store name (.ofNat k) >>= ·) (funext fun _ ↦
    congrArg (body >>= ·) (funext fun c ↦ ?_))
  cases c with
  | returned value => rfl
  | next => exact onHeap_bind (fun h ↦ h.arith_count hk) _

/-- A turn at the bound ends the loop. -/
theorem countTurn_end (hbound : bound.number? = some (.int n)) :
    countTurn limits name body bound (.ofNat n.toInt.toNat) = return .inr .next := by
  rw [countTurn, observe_bind fun h ↦ h.compare_count hbound (Nat.le_refl _)]
  simp

/-- Below the bound, a loop runs the body at its count and goes on at the next. -/
theorem iterate_below (hbound : bound.number? = some (.int n)) (hk : k < n.toInt.toNat) :
    iterate (countTurn limits name body bound) (fuel + 1) (.ofNat k) = (do
      store name (.ofNat k)
      match ← body with
      | .returned value => return .returned value
      | .next =>
        tick limits
        iterate (countTurn limits name body bound) fuel (.ofNat (k + 1))) := by
  rw [iterate, countTurn_below hbound hk]
  simp only [bind_assoc]
  refine congrArg (store name (.ofNat k) >>= ·) (funext fun _ ↦
    congrArg (body >>= ·) (funext fun c ↦ ?_))
  cases c with
  | returned value => rfl
  | next => simp only [bind_assoc, pure_bind]

theorem iterate_end (hbound : bound.number? = some (.int n)) :
    iterate (countTurn limits name body bound) (fuel + 1) (.ofNat n.toInt.toNat) =
      return .next := by
  rw [iterate, countTurn_end hbound, pure_bind]

/-- From a count on, a loop runs its body at all counts up to the bound, if it has fuel for them. -/
theorem iterate_counts (hbound : bound.number? = some (.int n)) (hk : k ≤ n.toInt.toNat) :
    RunsShort (iterate (countTurn limits name body bound) fuel (.ofNat k))
        (forEach limits name body ((List.range' k (n.toInt.toNat - k)).map Value.ofNat)) ∧
      (n.toInt.toNat - k < fuel → iterate (countTurn limits name body bound) fuel (.ofNat k) =
        forEach limits name body ((List.range' k (n.toInt.toNat - k)).map Value.ofNat)) := by
  induction fuel generalizing k with
  | zero => exact ⟨fun s ↦ .inr ⟨s, rfl⟩, fun hlt ↦ absurd hlt (Nat.not_lt_zero _)⟩
  | succ fuel ih =>
    rcases Nat.lt_or_eq_of_le hk with hlt | rfl
    · obtain ⟨hshort, hequal⟩ := ih hlt
      have hrange : List.range' k (n.toInt.toNat - k) =
          k :: List.range' (k + 1) (n.toInt.toNat - (k + 1)) := by
        rw [show n.toInt.toNat - k = n.toInt.toNat - (k + 1) + 1 by omega, List.range'_succ]
      rw [iterate_below hbound hlt, hrange, List.map_cons, forEach]
      constructor
      · refine .bind _ fun _ ↦ .bind _ fun c ↦ ?_
        cases c with
        | returned value => exact .refl _
        | next => exact .bind _ fun _ ↦ hshort
      · intro hfuel
        rw [hequal (by omega)]
    · rw [iterate_end hbound, Nat.sub_self, List.range'_zero, List.map_nil, forEach]
      exact ⟨.refl _, fun _ ↦ rfl⟩

end

/-- A loop over a range up to an integer, begun at zero, runs its body at each number below the
integer in turn; it does so if it has fuel for all of them, and else it does so or runs out. -/
theorem iterate_countsBelow {limits : Limits} {name : String} {body : Walk Completion}
    {bound : Value} {n : Int64} (hbound : bound.number? = some (.int n)) (fuel : Nat) :
    RunsShort (iterate (countTurn limits name body bound) fuel (.ofNat 0))
        (forEach limits name body (countsBelow n)) ∧
      (n.toInt.toNat < fuel → iterate (countTurn limits name body bound) fuel (.ofNat 0) =
        forEach limits name body (countsBelow n)) := by
  rw [countsBelow, List.range_eq_range']
  exact iterate_counts hbound (Nat.zero_le _)

end Offside.Walk
