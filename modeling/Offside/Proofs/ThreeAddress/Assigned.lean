import Offside.Proofs.ThreeAddress.Flow

/-!
The operations of a program read only temporaries that have been written on all ways to them
(`assigns_ofBlock`). An expression reads no temporaries but those that it writes itself. Both arms
of a conditional begin and end with what its condition left, and every turn of a loop begins with
what stood before the first.
-/

set_option autoImplicit false
set_option relaxedAutoImplicit false

namespace Offside.ThreeAddress

/-! ### Operations in a row -/

/-- Operations without labels and jumps that read what they have written themselves. -/
structure SelfContained (ops : List Op) : Prop where
  straight : Straight ops
  assigned : ∀ known before, Assigned known before ops

section

variable {xs ys : List Op} {op : Op}

theorem selfContained_nil : SelfContained [] :=
  ⟨straight_nil, fun _ _ ↦ trivial⟩

theorem SelfContained.append (hxs : SelfContained xs) (hys : SelfContained ys) :
    SelfContained (xs ++ ys) where
  straight := hxs.straight.append hys.straight
  assigned known before := assigned_append.mpr ⟨hxs.assigned known before, hys.assigned known _⟩

/-- An operation behind those that write what it reads. -/
theorem SelfContained.then (hxs : SelfContained xs) (hlabel : op.defines? = none)
    (hjump : op.jumpsTo? = none) (hreads : ∀ t ∈ op.reads, t ∈ results xs) :
    SelfContained (xs ++ [op]) where
  straight := hxs.straight.append (straight_singleton hlabel hjump)
  assigned known before := by
    refine assigned_append.mpr ⟨hxs.assigned known before, fun t ht ↦ ?_, fun l hl ↦ ?_, trivial⟩
    · rw [behind_straight hxs.straight]
      exact .inr (hreads t ht)
    · rw [hlabel, hjump] at hl
      rcases hl with hl | hl <;> cases hl

theorem selfContained_singleton (hlabel : op.defines? = none) (hjump : op.jumpsTo? = none)
    (hreads : op.reads = []) : SelfContained [op] :=
  selfContained_nil.then hlabel hjump fun t ht ↦ by rw [hreads] at ht; cases ht

end

/-! ### Expressions -/

/-- What is found in an operand has been written by the operations. -/
def Operand.WrittenBy (a : Operand) (ops : List Op) : Prop :=
  ∀ t ∈ a.temporaries, t ∈ results ops

section

variable {a : Operand} {xs ys : List Op}

theorem Operand.WrittenBy.left (h : a.WrittenBy xs) : a.WrittenBy (xs ++ ys) := fun t ht ↦ by
  rw [results_append]
  exact List.mem_append_left _ (h t ht)

theorem Operand.WrittenBy.right (h : a.WrittenBy ys) : a.WrittenBy (xs ++ ys) := fun t ht ↦ by
  rw [results_append]
  exact List.mem_append_right _ (h t ht)

/-- The operand that the last of some operations writes. -/
theorem writtenBy_last (xs : List Op) {op : Op} {n : Nat} (h : op.writes? = some n) :
    (Operand.temporary n).WrittenBy (xs ++ [op]) := fun t ht ↦ by
  rw [List.mem_singleton.mp ht, results_append]
  exact List.mem_append_right _ (List.mem_filterMap.mpr ⟨op, List.mem_singleton_self op, h⟩)

theorem forall_mem_temporaries {b : Operand} (ha : a.WrittenBy xs) (hb : b.WrittenBy xs) :
    ∀ t ∈ a.temporaries ++ b.temporaries, t ∈ results xs :=
  fun t ht ↦ (List.mem_append.mp ht).elim (ha t) (hb t)

theorem forall_mem_flatMap {operands : List Operand} (h : ∀ a ∈ operands, a.WrittenBy xs) :
    ∀ t ∈ operands.flatMap Operand.temporaries, t ∈ results xs := fun t ht ↦ by
  obtain ⟨a, ha, ht⟩ := List.mem_flatMap.mp ht
  exact h a ha t ht

end

mutual

/-- An expression reads only what it has written, and leaves its value there or in a variable. -/
theorem selfContained_ofExpr : ∀ (e : Expr) (n : Nat),
    SelfContained (ofExpr n e).1 ∧ (ofExpr n e).2.1.WrittenBy (ofExpr n e).1
  | .number _, _ => ⟨selfContained_singleton rfl rfl rfl, writtenBy_last [] rfl⟩
  | .boolean _, _ => ⟨selfContained_singleton rfl rfl rfl, writtenBy_last [] rfl⟩
  | .variable _, _ => ⟨selfContained_nil, nofun⟩
  | .arith _ left right, n => by
    rw [ofExpr_arith]
    obtain ⟨hleft, ha⟩ := selfContained_ofExpr left n
    obtain ⟨hright, hb⟩ := selfContained_ofExpr right (ofExpr n left).2.2
    exact ⟨(hleft.append hright).then rfl rfl (forall_mem_temporaries ha.left hb.right),
      writtenBy_last _ rfl⟩
  | .compare _ left right, n => by
    rw [ofExpr_compare]
    obtain ⟨hleft, ha⟩ := selfContained_ofExpr left n
    obtain ⟨hright, hb⟩ := selfContained_ofExpr right (ofExpr n left).2.2
    exact ⟨(hleft.append hright).then rfl rfl (forall_mem_temporaries ha.left hb.right),
      writtenBy_last _ rfl⟩
  | .call _ args, n => by
    rw [ofExpr_call]
    obtain ⟨hargs, has⟩ := selfContained_ofExprs args n
    exact ⟨hargs.then rfl rfl (forall_mem_flatMap has), writtenBy_last _ rfl⟩
  | .list items, n => by
    rw [ofExpr_list]
    obtain ⟨hitems, has⟩ := selfContained_ofExprs items n
    exact ⟨hitems.then rfl rfl (forall_mem_flatMap has), writtenBy_last _ rfl⟩
  | .index _ position, n => by
    rw [ofExpr_index]
    obtain ⟨hposition, ha⟩ := selfContained_ofExpr position n
    exact ⟨hposition.then rfl rfl ha, writtenBy_last _ rfl⟩
  | .member _ _, _ => ⟨selfContained_singleton rfl rfl rfl, writtenBy_last [] rfl⟩
  | .methodCall _ _ args, n => by
    rw [ofExpr_methodCall]
    obtain ⟨hargs, has⟩ := selfContained_ofExprs args n
    exact ⟨hargs.then rfl rfl (forall_mem_flatMap has), writtenBy_last _ rfl⟩

theorem selfContained_ofExprs : ∀ (es : List Expr) (n : Nat),
    SelfContained (ofExprs n es).1 ∧ ∀ a ∈ (ofExprs n es).2.1, a.WrittenBy (ofExprs n es).1
  | [], _ => ⟨selfContained_nil, nofun⟩
  | e :: es, n => by
    rw [ofExprs_cons]
    obtain ⟨hfirst, ha⟩ := selfContained_ofExpr e n
    obtain ⟨hrest, has⟩ := selfContained_ofExprs es (ofExpr n e).2.2
    exact ⟨hfirst.append hrest,
      List.forall_mem_cons.mpr ⟨ha.left, fun b hb ↦ (has b hb).right⟩⟩

end

/-- The copy of an operand is left in a temporary. -/
theorem selfContained_fixed {ops : List Op} {b : Operand} (hops : SelfContained ops)
    (hb : b.WrittenBy ops) (n : Nat) :
    SelfContained (ops ++ (fixed n b).1) ∧ (fixed n b).2.1.WrittenBy (ops ++ (fixed n b).1) := by
  cases b with
  | temporary k => exact ⟨hops.append selfContained_nil, hb.left⟩
  | «variable» name => exact ⟨hops.then rfl rfl hb, writtenBy_last _ rfl⟩

theorem selfContained_loopSetup (c : Counters) (start stop : Expr) :
    SelfContained (loopSetup c start stop).1 ∧
      (loopSetup c start stop).2.1.WrittenBy (loopSetup c start stop).1 := by
  obtain ⟨hstart, ha⟩ := selfContained_ofExpr start c.temporaries
  obtain ⟨hstop, hb⟩ := selfContained_ofExpr stop (ofExpr c.temporaries start).2.2
  have hcounter : SelfContained ((ofExpr c.temporaries start).1 ++
      [.assign (ofExpr c.temporaries start).2.1 (.variable (loopCounter (c.loops + 1)))]) :=
    hstart.then rfl rfl ha
  have hsetup := selfContained_fixed (hcounter.append hstop) hb.right
    (ofExpr (ofExpr c.temporaries start).2.2 stop).2.2
  simpa [loopSetup] using hsetup

/-! ### Labels -/

/-- The same is known of the labels with numbers above `low` and up to `high`. -/
def AgreeOn (low high : Nat) (f g : Nat → Set Nat) : Prop :=
  ∀ l, low < l → l ≤ high → f l = g l

/-- The operations read what has been written before, whatever is known of the labels of others,
and what has been written before has been written behind them. -/
def Assigns (low high : Nat) (before : Set Nat) (ops : List Op) : Prop :=
  ∃ known, ∀ known', AgreeOn low high known' known →
    Assigned known' before ops ∧ before ⊆ behind known' before ops

section

variable {low middle high : Nat} {before : Set Nat} {xs ys : List Op}

/-- What is known of the labels on both sides of a number can be put together. -/
theorem exists_agreeOn (hle : low ≤ middle) (hle' : middle ≤ high) (f g : Nat → Set Nat) :
    ∃ known, ∀ known', AgreeOn low high known' known →
      AgreeOn low middle known' f ∧ AgreeOn middle high known' g := by
  refine ⟨fun l ↦ if l ≤ middle then f l else g l, fun known' h ↦ ⟨fun l hl hl' ↦ ?_,
    fun l hl hl' ↦ ?_⟩⟩
  · exact (h l hl (Nat.le_trans hl' hle')).trans (if_pos hl')
  · exact (h l (Nat.lt_of_le_of_lt hle hl) hl').trans (if_neg (Nat.not_le_of_lt hl))

theorem SelfContained.behind_eq (h : SelfContained xs) (known : Nat → Set Nat) :
    behind known before xs = before ∪ {t | t ∈ results xs} :=
  behind_straight h.straight

theorem SelfContained.assigns (h : SelfContained xs) : Assigns low high before xs := by
  refine ⟨fun _ ↦ ∅, fun known' _ ↦ ⟨h.assigned known' before, ?_⟩⟩
  rw [h.behind_eq]
  exact Set.subset_union_left

theorem Assigns.append (hle : low ≤ middle) (hle' : middle ≤ high)
    (hxs : Assigns low middle before xs) (hys : Assigns middle high before ys) :
    Assigns low high before (xs ++ ys) := by
  obtain ⟨f, hf⟩ := hxs
  obtain ⟨g, hg⟩ := hys
  obtain ⟨known, hknown⟩ := exists_agreeOn hle hle' f g
  refine ⟨known, fun known' h ↦ ?_⟩
  obtain ⟨hxs, hsub⟩ := hf known' (hknown known' h).1
  obtain ⟨hys, hsub'⟩ := hg known' (hknown known' h).2
  rw [assigned_append, behind_append]
  exact ⟨⟨hxs, hys.mono hsub⟩, hsub'.trans (behind_mono hsub)⟩

end

/-! ### Statements -/

section

variable {low middle high : Nat} {before : Set Nat} {test : List Op} {a : Operand}

/-- A conditional: what its condition has left is known at both of its labels. -/
theorem assigns_ifElse {first second : List Op} (hle : low + 2 ≤ middle) (hle' : middle ≤ high)
    (htest : SelfContained test) (ha : a.WrittenBy test)
    (hfirst : ∀ before, Assigns (low + 2) middle before first)
    (hsecond : ∀ before, Assigns middle high before second) :
    Assigns low high before (test ++ .jumpIfFalse a (low + 1) :: first ++
      .jump (low + 2) :: .label (low + 1) :: second ++ [.label (low + 2)]) := by
  let left : Set Nat := before ∪ {t | t ∈ results test}
  obtain ⟨f, hf⟩ := hfirst left
  obtain ⟨g, hg⟩ := hsecond left
  obtain ⟨arms, harms⟩ := exists_agreeOn hle hle' f g
  obtain ⟨known, hknown⟩ := exists_agreeOn (Nat.le_add_right low 2) (hle.trans hle')
    (fun _ ↦ left) arms
  refine ⟨known, fun known' h ↦ ?_⟩
  obtain ⟨hown, harm⟩ := hknown known' h
  obtain ⟨hfirst, hsub⟩ := hf known' (harms known' harm).1
  obtain ⟨hsecond, hsub'⟩ := hg known' (harms known' harm).2
  have helse : known' (low + 1) = left := hown (low + 1) (by omega) (by omega)
  have hend : known' (low + 2) = left := hown (low + 2) (by omega) (by omega)
  have hall : before ⊆ left := Set.subset_union_left
  simp only [List.append_assoc, List.cons_append, assigned_append, behind_append,
    assigned_jumpIfFalse, assigned_jump, assigned_label, behind_jumpIfFalse, behind_jump,
    behind_label, behind_nil, htest.behind_eq, helse, hend]
  exact ⟨⟨htest.assigned known' before, fun t ht ↦ .inr (ha t ht), Set.Subset.refl _, hfirst, hsub,
    hsub, hsecond, hsub', trivial⟩, hall⟩

/-- A loop: what has been written before its first turn is known at both of its labels. -/
theorem assigns_loop {setup body rest : List Op} (hle : low + 2 ≤ high)
    (hsetup : SelfContained setup) (htest : SelfContained (setup ++ test))
    (ha : a.WrittenBy (setup ++ test)) (hbody : ∀ before, Assigns (low + 2) high before body)
    (hrest : SelfContained rest) :
    Assigns low high before (setup ++ .label (low + 1) :: test ++ .jumpIfFalse a (low + 2) :: body
      ++ (rest ++ [.jump (low + 1), .label (low + 2)])) := by
  let entered : Set Nat := before ∪ {t | t ∈ results setup}
  let turning : Set Nat := before ∪ {t | t ∈ results (setup ++ test)}
  obtain ⟨f, hf⟩ := hbody turning
  obtain ⟨known, hknown⟩ := exists_agreeOn (Nat.le_add_right low 2) hle (fun _ ↦ entered) f
  refine ⟨known, fun known' h ↦ ?_⟩
  obtain ⟨hown, hinside⟩ := hknown known' h
  obtain ⟨hbody, hsub⟩ := hf known' hinside
  have htop : known' (low + 1) = entered := hown (low + 1) (by omega) (by omega)
  have hend : known' (low + 2) = entered := hown (low + 2) (by omega) (by omega)
  have hentered : behind known' before setup = entered := hsetup.behind_eq known'
  have hturning : behind known' entered test = turning := by
    rw [← hentered, ← behind_append]
    exact htest.behind_eq known'
  have htest' := htest.assigned known' before
  rw [assigned_append, hentered] at htest'
  have hkeeps : entered ⊆ turning := Set.union_subset_union_right before fun t ht ↦
    show t ∈ results (setup ++ test) from results_append setup test ▸ List.mem_append_left _ ht
  have hall : before ⊆ entered := Set.subset_union_left
  simp only [List.append_assoc, List.cons_append, assigned_append, behind_append,
    assigned_jumpIfFalse, assigned_jump, assigned_label, behind_jumpIfFalse, behind_jump,
    behind_label, behind_nil, hentered, htop, hturning, hend, hrest.behind_eq]
  refine ⟨⟨htest'.1, Set.Subset.refl _, htest'.2, fun t ht ↦ .inr (ha t ht), hkeeps, hbody,
    hrest.assigned known' _, ?_, ?_, trivial⟩, hall⟩ <;>
  exact (hkeeps.trans hsub).trans Set.subset_union_left

theorem assigns_forRange {c : Counters} {name : String} {bound : Operand} {high n k : Nat}
    {setup body : List Op} (hle : c.labels + 2 ≤ high) (hsetup : SelfContained setup)
    (hbound : bound.WrittenBy setup)
    (hbody : ∀ before, Assigns (c.labels + 2) high before body) :
    Assigns c.labels high before (setup ++ loopHead c name bound n ++ body ++ loopNext c k) := by
  have hstored : ∀ before, Assigns (c.labels + 2) high before
      (.assign (.variable (loopCounter (c.loops + 1))) (.variable name) :: body) := fun before ↦
    (selfContained_singleton rfl rfl rfl).assigns.append (Nat.le_refl _) hle (hbody before)
  have htest : SelfContained (setup ++
      [.compare .lt (.variable (loopCounter (c.loops + 1))) bound n]) :=
    hsetup.then rfl rfl hbound
  have hone : SelfContained [.constant (.number (.int 1)) (k + 1)] :=
    selfContained_singleton rfl rfl rfl
  have hsum : SelfContained [.constant (.number (.int 1)) (k + 1),
      .arith .add (.variable (loopCounter (c.loops + 1))) (.temporary (k + 1)) (k + 2)] :=
    hone.then rfl rfl (writtenBy_last [] rfl)
  have hnext : SelfContained [.constant (.number (.int 1)) (k + 1),
      .arith .add (.variable (loopCounter (c.loops + 1))) (.temporary (k + 1)) (k + 2),
      .assign (.temporary (k + 2)) (.variable (loopCounter (c.loops + 1)))] :=
    hsum.then rfl rfl (writtenBy_last [_] rfl)
  have hloop : Assigns c.labels high before _ :=
    assigns_loop (a := .temporary n) hle hsetup htest (writtenBy_last _ rfl) hstored hnext
  simpa [loopHead, loopNext] using hloop

end

mutual

/-- A statement reads what has been written before. -/
theorem assigns_ofStmt : ∀ (s : Stmt) (c : Counters) (before : Set Nat),
    Assigns c.labels (ofStmt c s).2.labels before (ofStmt c s).1
  | .assign _ value, c, _ => by
    obtain ⟨hvalue, ha⟩ := selfContained_ofExpr value c.temporaries
    rw [ofStmt_assign]
    exact SelfContained.assigns (hvalue.then rfl rfl ha)
  | .assignIndex _ position value, c, _ => by
    obtain ⟨hposition, ha⟩ := selfContained_ofExpr position c.temporaries
    obtain ⟨hvalue, hb⟩ := selfContained_ofExpr value (ofExpr c.temporaries position).2.2
    rw [ofStmt_assignIndex]
    exact SelfContained.assigns ((hposition.append hvalue).then rfl rfl
      (forall_mem_temporaries ha.left hb.right))
  | .assignAttribute _ _ value, c, _ => by
    obtain ⟨hvalue, ha⟩ := selfContained_ofExpr value c.temporaries
    rw [ofStmt_assignAttribute]
    exact SelfContained.assigns (hvalue.then rfl rfl ha)
  | .print value, c, _ => by
    obtain ⟨hvalue, ha⟩ := selfContained_ofExpr value c.temporaries
    rw [ofStmt_print]
    exact SelfContained.assigns (hvalue.then rfl rfl ha)
  | .expr value, c, _ => by
    rw [ofStmt_expr]
    exact (selfContained_ofExpr value c.temporaries).1.assigns
  | .ifElse condition body orelse, c, _ => by
    obtain ⟨htest, ha⟩ := selfContained_ofExpr condition c.temporaries
    rw [ofStmt_ifElse]
    let inside : Counters :=
      { c with temporaries := (ofExpr c.temporaries condition).2.2, labels := c.labels + 2 }
    exact assigns_ifElse (le_ofBlock body inside).labels (le_ofBlock orelse _).labels htest ha
      (assigns_ofBlock body inside) (assigns_ofBlock orelse _)
  | .whileLoop condition body, c, _ => by
    obtain ⟨htest, ha⟩ := selfContained_ofExpr condition c.temporaries
    rw [ofStmt_whileLoop]
    let inside : Counters :=
      { c with temporaries := (ofExpr c.temporaries condition).2.2, labels := c.labels + 2 }
    exact assigns_loop (le_ofBlock body inside).labels selfContained_nil htest ha
      (assigns_ofBlock body inside) selfContained_nil
  | .forRange name start stop body, c, _ => by
    obtain ⟨hsetup, hbound⟩ := selfContained_loopSetup c start stop
    rw [ofStmt_forRange]
    let inside : Counters := ⟨(loopSetup c start stop).2.2 + 1, c.labels + 2, c.loops + 1⟩
    exact assigns_forRange (le_ofBlock body inside).labels hsetup hbound
      (assigns_ofBlock body inside)
  | .define _, _, _ => (selfContained_singleton rfl rfl rfl).assigns
  | .defineClass _, _, _ => (selfContained_singleton rfl rfl rfl).assigns
  | .return none, _, _ => (selfContained_singleton rfl rfl rfl).assigns
  | .return (some value), c, _ => by
    obtain ⟨hvalue, ha⟩ := selfContained_ofExpr value c.temporaries
    rw [ofStmt_return]
    exact SelfContained.assigns (hvalue.then rfl rfl ha)
  | .pass, _, _ => selfContained_nil.assigns

theorem assigns_ofBlock : ∀ (block : List Stmt) (c : Counters) (before : Set Nat),
    Assigns c.labels (ofBlock c block).2.labels before (ofBlock c block).1
  | [], _, _ => selfContained_nil.assigns
  | s :: ss, c, before => by
    rw [ofBlock_cons]
    exact (assigns_ofStmt s c before).append (le_ofStmt s c).labels (le_ofBlock ss _).labels
      (assigns_ofBlock ss _ before)

end

end Offside.ThreeAddress
