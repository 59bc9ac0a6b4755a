import Mathlib.Data.Set.Basic
import Mathlib.Data.Set.Insert
import Offside.Proofs.ThreeAddress.Layout
import Offside.Proofs.ThreeAddress.Temporaries

/-!
Control flow through three-address forms, and what has been written along it. Each label is given
the temporaries that have been written wherever control comes to it, and along the operations one
keeps track of those that have been written on all ways. `Assigned` says that operations read no
other temporaries. Whatever way control takes through such operations, one that reads a temporary
comes after one that writes it (`Assigned.writtenAt`).
-/

set_option autoImplicit false
set_option relaxedAutoImplicit false

namespace Offside.ThreeAddress

/-! ### The ways of control -/

/-- Whether the operation behind an operation may come next. -/
def Op.fallsThrough : Op → Bool
  | .jump _ => false
  | .returnValue _ => false
  | _ => true

/-- Control may go from one operation to another: to the one behind it, or to the label that it
jumps to. -/
inductive Flows (ops : List Op) : Nat → Nat → Prop
  | falls {i : Nat} {op : Op} (hop : ops[i]? = some op) (hfalls : op.fallsThrough = true) :
    Flows ops i (i + 1)
  | jumps {i j l : Nat} {op : Op} (hop : ops[i]? = some op) (hjump : op.jumpsTo? = some l)
    (hlabel : ops[j]? = some (.label l)) : Flows ops i j

/-- A way of control from the first operation to the one in the last place, with the places of the
operations that have been passed, the latest first. -/
inductive Way (ops : List Op) : List Nat → Nat → Prop
  | start : Way ops [] 0
  | step {passed : List Nat} {i j : Nat} (hway : Way ops passed i) (hflows : Flows ops i j) :
    Way ops (i :: passed) j

/-! ### What has been written -/

section

variable (known : Nat → Set Nat)

/-- What has been written behind an operation on every way to it, where `known` says so for
labels. -/
def Op.behind (before : Set Nat) : Op → Set Nat
  | .label l => known l
  | op => before ∪ {t | op.writes? = some t}

/-- What has been written behind operations. -/
def behind (before : Set Nat) (ops : List Op) : Set Nat :=
  ops.foldl (Op.behind known) before

/-- Operations read what has been written before, and come to no label without what is known to have
been written there. -/
def Assigned : Set Nat → List Op → Prop
  | _, [] => True
  | before, op :: ops =>
    (∀ t ∈ op.reads, t ∈ before) ∧
      (∀ l, op.defines? = some l ∨ op.jumpsTo? = some l → known l ⊆ before) ∧
      Assigned (op.behind known before) ops

end

section

variable {known : Nat → Set Nat} {before after : Set Nat} {ops xs ys : List Op} {op : Op}

@[simp]
theorem behind_append : behind known before (xs ++ ys) =
    behind known (behind known before xs) ys :=
  List.foldl_append

theorem assigned_append : Assigned known before (xs ++ ys) ↔
    Assigned known before xs ∧ Assigned known (behind known before xs) ys := by
  induction xs generalizing before with
  | nil => simp [Assigned, behind]
  | cons op xs ih => simp only [List.cons_append, Assigned, ih, and_assoc]; rfl

theorem behind_of_unlabelled (h : op.defines? = none) :
    op.behind known before = before ∪ {t | op.writes? = some t} := by
  cases op <;> first | rfl | cases h

section

variable {l : Nat} {a : Operand}

@[simp]
theorem behind_nil : behind known before [] = before :=
  rfl

@[simp]
theorem behind_label : behind known before (.label l :: ops) = behind known (known l) ops :=
  rfl

@[simp]
theorem behind_jump : behind known before (.jump l :: ops) = behind known before ops := by
  simp [behind, Op.behind, Op.writes?]

@[simp]
theorem behind_jumpIfFalse :
    behind known before (.jumpIfFalse a l :: ops) = behind known before ops := by
  simp [behind, Op.behind, Op.writes?]

theorem assigned_label : Assigned known before (.label l :: ops) ↔
    known l ⊆ before ∧ Assigned known (known l) ops := by
  simp [Assigned, Op.reads, Op.defines?, Op.jumpsTo?, Op.behind]

theorem assigned_jump : Assigned known before (.jump l :: ops) ↔
    known l ⊆ before ∧ Assigned known before ops := by
  simp [Assigned, Op.reads, Op.defines?, Op.jumpsTo?, Op.behind, Op.writes?]

theorem assigned_jumpIfFalse : Assigned known before (.jumpIfFalse a l :: ops) ↔
    (∀ t ∈ a.temporaries, t ∈ before) ∧ known l ⊆ before ∧ Assigned known before ops := by
  simp [Assigned, Op.reads, Op.defines?, Op.jumpsTo?, Op.behind, Op.writes?]

end

theorem Op.behind_mono (h : before ⊆ after) :
    op.behind known before ⊆ op.behind known after := by
  cases op with
  | label l => exact Set.Subset.refl _
  | _ => exact Set.union_subset_union_left _ h

theorem behind_mono (h : before ⊆ after) : behind known before ops ⊆ behind known after ops := by
  induction ops generalizing before after with
  | nil => exact h
  | cons op ops ih => exact ih (Op.behind_mono h)

theorem Assigned.mono (hops : Assigned known before ops) (h : before ⊆ after) :
    Assigned known after ops := by
  induction ops generalizing before after with
  | nil => trivial
  | cons op ops ih =>
    obtain ⟨hreads, hlabels, hrest⟩ := hops
    exact ⟨fun t ht ↦ h (hreads t ht), fun l hl ↦ (hlabels l hl).trans h,
      ih hrest (Op.behind_mono h)⟩

theorem results_cons (op : Op) (ops : List Op) :
    {t | t ∈ results (op :: ops)} = {t | op.writes? = some t} ∪ {t | t ∈ results ops} := by
  ext t
  simp [results, List.mem_filterMap]

theorem behind_straight (hops : Straight ops) :
    behind known before ops = before ∪ {t | t ∈ results ops} := by
  induction ops generalizing before with
  | nil => simp [behind, results]
  | cons op ops ih =>
    obtain ⟨hop, hops⟩ := List.forall_mem_cons.mp hops
    show behind known (op.behind known before) ops = _
    rw [ih hops, behind_of_unlabelled hop.1, results_cons, Set.union_assoc]

/-- What has been written behind operations is written by them or before them. -/
theorem Assigned.behind_subset (hops : Assigned known before ops) :
    behind known before ops ⊆ before ∪ {t | t ∈ results ops} := by
  induction ops generalizing before with
  | nil => exact Set.subset_union_left
  | cons op ops ih =>
    obtain ⟨-, hlabels, hrest⟩ := hops
    have hop : op.behind known before ⊆ before ∪ {t | op.writes? = some t} := by
      cases hlabel : op.defines? with
      | none => rw [behind_of_unlabelled hlabel]
      | some l =>
        obtain rfl := eq_label_of_defines hlabel
        exact (hlabels l (.inl rfl)).trans Set.subset_union_left
    refine (ih hrest).trans ?_
    rw [results_cons, ← Set.union_assoc]
    exact Set.union_subset_union_left _ hop

end

/-! ### Writes come before reads -/

section

variable {known : Nat → Set Nat} {ops : List Op} {op : Op} {i : Nat}

/-- What is asked of an operation holds of what has been written before it. -/
theorem Assigned.getElem {before : Set Nat} (hops : Assigned known before ops)
    (hop : ops[i]? = some op) :
    (∀ t ∈ op.reads, t ∈ behind known before (ops.take i)) ∧
      ∀ l, op.defines? = some l ∨ op.jumpsTo? = some l →
        known l ⊆ behind known before (ops.take i) := by
  obtain ⟨hi, rfl⟩ := List.getElem?_eq_some_iff.mp hop
  rw [← List.take_append_drop i ops, List.drop_eq_getElem_cons hi] at hops
  obtain ⟨-, hreads, hlabels, -⟩ := assigned_append.mp hops
  exact ⟨hreads, hlabels⟩

/-- Every temporary that is read is written somewhere. -/
theorem Assigned.mem_results (hops : Assigned known ∅ ops) (hop : ops[i]? = some op) {t : Nat}
    (ht : t ∈ op.reads) : t ∈ results ops := by
  have hread := (hops.getElem hop).1 t ht
  rw [← List.take_append_drop i ops] at hops
  have hwritten := (assigned_append.mp hops).1.behind_subset hread
  rw [Set.empty_union] at hwritten
  rw [← List.take_append_drop i ops, results_append]
  exact List.mem_append_left _ hwritten

/-- What has been written where control comes to the operation in a place, be it from the one before
or by a jump. -/
def arrival (known : Nat → Set Nat) (ops : List Op) (i : Nat) : Set Nat :=
  match ops[i]?.bind Op.defines? with
  | some l => known l
  | none => behind known ∅ (ops.take i)

theorem arrival_of_label {l : Nat} (hlabel : ops[i]? = some (.label l)) :
    arrival known ops i = known l := by
  rw [arrival, hlabel]
  rfl

theorem arrival_of_unlabelled (hop : ops[i]? = some op) (hlabel : op.defines? = none) :
    arrival known ops i = behind known ∅ (ops.take i) := by
  rw [arrival, hop, Option.bind_some, hlabel]

theorem arrival_subset (hops : Assigned known ∅ ops) (i : Nat) :
    arrival known ops i ⊆ behind known ∅ (ops.take i) := by
  cases hlabel : ops[i]?.bind Op.defines? with
  | none => rw [arrival, hlabel]
  | some l =>
    obtain ⟨op, hop, hl⟩ := Option.bind_eq_some_iff.mp hlabel
    rw [arrival, hlabel]
    exact (hops.getElem hop).2 l (.inl hl)

/-- The operation in a place writes the temporary. -/
def WritesAt (ops : List Op) (t i : Nat) : Prop :=
  ∃ op, ops[i]? = some op ∧ op.writes? = some t

/-- An operation in one of some places writes the temporary. -/
def WrittenAt (ops : List Op) (places : List Nat) (t : Nat) : Prop :=
  ∃ i ∈ places, WritesAt ops t i

theorem WrittenAt.cons {places : List Nat} {t : Nat} (h : WrittenAt ops places t) (i : Nat) :
    WrittenAt ops (i :: places) t := by
  obtain ⟨j, hj, hwrites⟩ := h
  exact ⟨j, List.mem_cons_of_mem i hj, hwrites⟩

/-- On every way of control, what is taken to have been written has been written. -/
theorem Assigned.passed (hops : Assigned known ∅ ops) {passed : List Nat}
    (hway : Way ops passed i) : ∀ t ∈ arrival known ops i, WrittenAt ops passed t := by
  induction hway with
  | start => exact fun t ht ↦ absurd (arrival_subset hops 0 ht) (Set.notMem_empty t)
  | @step passed i j hway hflows ih =>
    cases hflows with
    | @falls op hop hfalls =>
      intro t ht
      have hbehind := arrival_subset hops (i + 1) ht
      rw [List.take_add_one, behind_append, hop] at hbehind
      change t ∈ op.behind known _ at hbehind
      cases hlabel : op.defines? with
      | some l =>
        obtain rfl := eq_label_of_defines hlabel
        exact (ih t (arrival_of_label hop ▸ hbehind)).cons i
      | none =>
        rw [behind_of_unlabelled hlabel] at hbehind
        rcases hbehind with hbefore | hwrites
        · exact (ih t (arrival_of_unlabelled hop hlabel ▸ hbefore)).cons i
        · exact ⟨i, List.mem_cons_self, op, hop, hwrites⟩
    | @jumps _ l op hop hjump hlabel =>
      intro t ht
      rw [arrival_of_label hlabel] at ht
      have hnone : op.defines? = none := by cases op <;> first | rfl | cases hjump
      have hbefore := (hops.getElem hop).2 l (.inr hjump) ht
      exact (ih t (arrival_of_unlabelled hop hnone ▸ hbefore)).cons i

/-- An operation that reads a temporary comes after one that writes it, on every way of control. -/
theorem Assigned.writtenAt (hops : Assigned known ∅ ops) {passed : List Nat}
    (hway : Way ops passed i) (hop : ops[i]? = some op) {t : Nat} (ht : t ∈ op.reads) :
    WrittenAt ops passed t := by
  have hlabel : op.defines? = none := by cases op <;> first | rfl | cases ht
  refine hops.passed hway t ?_
  rw [arrival_of_unlabelled hop hlabel]
  exact (hops.getElem hop).1 t ht

end

end Offside.ThreeAddress
