import Offside.Proofs.ThreeAddress.Lower
import Offside.ThreeAddress.Placement

/-!
The labels of three-address forms. Lowering numbers labels upwards and defines every label that it
jumps to, so the operations of a program can always be assembled (`Labelled.assemble`).
-/

set_option autoImplicit false
set_option relaxedAutoImplicit false

namespace Offside.ThreeAddress

theorem definedLabels_append (xs ys : List Op) :
    definedLabels (xs ++ ys) = definedLabels xs ++ definedLabels ys :=
  List.filterMap_append

/-- Operations that neither define labels nor jump. -/
def Straight (ops : List Op) : Prop :=
  ∀ op ∈ ops, op.defines? = none ∧ op.jumpsTo? = none

/-- Operations that define labels with numbers above `low` and up to `high`, each once, among them
all that they jump to. -/
structure Labelled (low high : Nat) (ops : List Op) : Prop where
  le : low ≤ high
  above : ∀ l ∈ definedLabels ops, low < l
  upTo : ∀ l ∈ definedLabels ops, l ≤ high
  nodup : (definedLabels ops).Nodup
  closed : ∀ l ∈ ops.filterMap Op.jumpsTo?, l ∈ definedLabels ops

section

variable {low middle high : Nat} {xs ys : List Op}

theorem straight_nil : Straight [] :=
  fun _ hop ↦ absurd hop List.not_mem_nil

theorem straight_singleton {op : Op} (hlabel : op.defines? = none) (hjump : op.jumpsTo? = none) :
    Straight [op] := by
  intro op' hop
  rw [List.mem_singleton.mp hop]
  exact ⟨hlabel, hjump⟩

theorem Straight.append (hxs : Straight xs) (hys : Straight ys) : Straight (xs ++ ys) :=
  fun op hop ↦ (List.mem_append.mp hop).elim (hxs op) (hys op)

theorem Straight.definedLabels (h : Straight xs) : definedLabels xs = [] :=
  List.filterMap_eq_nil_iff.mpr fun op hop ↦ (h op hop).1

theorem Straight.jumps (h : Straight xs) : xs.filterMap Op.jumpsTo? = [] :=
  List.filterMap_eq_nil_iff.mpr fun op hop ↦ (h op hop).2

theorem Straight.labelled (h : Straight xs) (hle : low ≤ high) : Labelled low high xs := by
  have hlabels := h.definedLabels
  have hjumps := h.jumps
  constructor <;> simp [hlabels, hjumps, hle]

theorem Labelled.append (hxs : Labelled low middle xs) (hys : Labelled middle high ys) :
    Labelled low high (xs ++ ys) where
  le := Nat.le_trans hxs.le hys.le
  above l hl := by
    rw [definedLabels_append, List.mem_append] at hl
    exact hl.elim (hxs.above l) fun h ↦ Nat.lt_of_le_of_lt hxs.le (hys.above l h)
  upTo l hl := by
    rw [definedLabels_append, List.mem_append] at hl
    exact hl.elim (fun h ↦ Nat.le_trans (hxs.upTo l h) hys.le) (hys.upTo l)
  nodup := by
    rw [definedLabels_append, List.nodup_append]
    refine ⟨hxs.nodup, hys.nodup, ?_⟩
    rintro l hl _ hl' rfl
    exact Nat.lt_irrefl _ (Nat.lt_of_le_of_lt (hxs.upTo l hl) (hys.above l hl'))
  closed l hl := by
    rw [List.filterMap_append, List.mem_append] at hl
    rw [definedLabels_append, List.mem_append]
    exact hl.imp (hxs.closed l) (hys.closed l)

end

/-! ### Expressions -/

mutual

theorem straight_ofExpr : ∀ (e : Expr) (n : Nat), Straight (ofExpr n e).1
  | .number _, _ => straight_singleton rfl rfl
  | .boolean _, _ => straight_singleton rfl rfl
  | .variable _, _ => straight_nil
  | .arith _ left right, n => by
    rw [ofExpr_arith]
    exact ((straight_ofExpr left n).append (straight_ofExpr right _)).append
      (straight_singleton rfl rfl)
  | .compare _ left right, n => by
    rw [ofExpr_compare]
    exact ((straight_ofExpr left n).append (straight_ofExpr right _)).append
      (straight_singleton rfl rfl)
  | .call _ args, n => by
    rw [ofExpr_call]
    exact (straight_ofExprs args n).append (straight_singleton rfl rfl)
  | .list items, n => by
    rw [ofExpr_list]
    exact (straight_ofExprs items n).append (straight_singleton rfl rfl)
  | .index _ position, n => by
    rw [ofExpr_index]
    exact (straight_ofExpr position n).append (straight_singleton rfl rfl)
  | .member _ _, _ => straight_singleton rfl rfl
  | .methodCall _ _ args, n => by
    rw [ofExpr_methodCall]
    exact (straight_ofExprs args n).append (straight_singleton rfl rfl)

theorem straight_ofExprs : ∀ (es : List Expr) (n : Nat), Straight (ofExprs n es).1
  | [], _ => straight_nil
  | e :: es, n => by
    rw [ofExprs_cons]
    exact (straight_ofExpr e n).append (straight_ofExprs es _)

end

theorem straight_fixed (n : Nat) (a : Operand) : Straight (fixed n a).1 := by
  cases a with
  | temporary k => exact straight_nil
  | «variable» name => exact straight_singleton rfl rfl

theorem straight_loopSetup (c : Counters) (start stop : Expr) :
    Straight (loopSetup c start stop).1 :=
  ((straight_ofExpr start _).append
    ((straight_singleton rfl rfl).append (straight_ofExpr stop _))).append (straight_fixed _ _)

/-! ### Statements -/

section

variable {low middle high : Nat} {test first second : List Op} {a : Operand}

theorem labelled_ifElse (htest : Straight test) (hfirst : Labelled (low + 2) middle first)
    (hsecond : Labelled middle high second) :
    Labelled low high (test ++ .jumpIfFalse a (low + 1) :: first ++
      .jump (low + 2) :: .label (low + 1) :: second ++ [.label (low + 2)]) := by
  have hlabels : definedLabels (test ++ .jumpIfFalse a (low + 1) :: first ++
      .jump (low + 2) :: .label (low + 1) :: second ++ [.label (low + 2)]) =
        definedLabels first ++ (low + 1) :: definedLabels second ++ [low + 2] := by
    have hnone := htest.definedLabels
    unfold definedLabels at hnone ⊢
    simp [List.filterMap_cons, Op.defines?, hnone]
  have hle := hfirst.le
  have hle' := hsecond.le
  have hfirst₁ := hfirst.above
  have hfirst₂ := hfirst.upTo
  have hsecond₁ := hsecond.above
  have hsecond₂ := hsecond.upTo
  constructor
  · omega
  · rw [hlabels]
    grind
  · rw [hlabels]
    grind
  · rw [hlabels]
    have hn := hfirst.nodup
    have hn' := hsecond.nodup
    grind
  · rw [hlabels]
    have hj := htest.jumps
    have hc := hfirst.closed
    have hc' := hsecond.closed
    simp only [List.filterMap_append, List.filterMap_cons, Op.jumpsTo?, hj]
    grind

theorem labelled_loop {before body rest : List Op} (hbefore : Straight before)
    (htest : Straight test) (hbody : Labelled (low + 2) high body) (hrest : Straight rest) :
    Labelled low high (before ++ .label (low + 1) :: test ++ .jumpIfFalse a (low + 2) :: body ++
      (rest ++ [.jump (low + 1), .label (low + 2)])) := by
  have hlabels : definedLabels (before ++ .label (low + 1) :: test ++
      .jumpIfFalse a (low + 2) :: body ++ (rest ++ [.jump (low + 1), .label (low + 2)])) =
        (low + 1) :: definedLabels body ++ [low + 2] := by
    have hnone := hbefore.definedLabels
    have hnone' := htest.definedLabels
    have hnone'' := hrest.definedLabels
    unfold definedLabels at hnone hnone' hnone'' ⊢
    simp [List.filterMap_cons, Op.defines?, hnone, hnone', hnone'']
  have hle := hbody.le
  have hbody₁ := hbody.above
  have hbody₂ := hbody.upTo
  constructor
  · omega
  · rw [hlabels]
    grind
  · rw [hlabels]
    grind
  · rw [hlabels]
    have hn := hbody.nodup
    grind
  · rw [hlabels]
    have hc := hbody.closed
    simp only [List.filterMap_append, List.filterMap_cons, Op.jumpsTo?, hbefore.jumps, htest.jumps,
      hrest.jumps]
    grind

end

theorem labelled_forRange {c : Counters} {name : String} {bound : Operand} {high n k : Nat}
    {setup body : List Op} (hsetup : Straight setup) (hbody : Labelled (c.labels + 2) high body) :
    Labelled c.labels high (setup ++ loopHead c name bound n ++ body ++ loopNext c k) := by
  have hstored : Labelled (c.labels + 2) high
      (.assign (.variable (loopCounter (c.loops + 1))) (.variable name) :: body) :=
    ((straight_singleton rfl rfl).labelled (Nat.le_refl _)).append hbody
  have htest : Straight [.compare .lt (.variable (loopCounter (c.loops + 1))) bound n] :=
    straight_singleton rfl rfl
  have hnext : Straight [.constant (.number (.int 1)) (k + 1),
      .arith .add (.variable (loopCounter (c.loops + 1))) (.temporary (k + 1)) (k + 2),
      .assign (.temporary (k + 2)) (.variable (loopCounter (c.loops + 1)))] :=
    (straight_singleton rfl rfl).append
      ((straight_singleton rfl rfl).append (straight_singleton rfl rfl))
  have hloop := labelled_loop (a := .temporary n) hsetup htest hstored hnext
  simpa [loopHead, loopNext] using hloop

mutual

/-- The labels of a statement. -/
theorem labelled_ofStmt : ∀ (s : Stmt) (c : Counters),
    Labelled c.labels (ofStmt c s).2.labels (ofStmt c s).1
  | .assign _ value, c => by
    rw [ofStmt_assign]
    exact ((straight_ofExpr value _).append (straight_singleton rfl rfl)).labelled (Nat.le_refl _)
  | .assignIndex _ position value, c => by
    rw [ofStmt_assignIndex]
    exact (((straight_ofExpr position _).append (straight_ofExpr value _)).append
      (straight_singleton rfl rfl)).labelled (Nat.le_refl _)
  | .assignAttribute _ _ value, c => by
    rw [ofStmt_assignAttribute]
    exact ((straight_ofExpr value _).append (straight_singleton rfl rfl)).labelled (Nat.le_refl _)
  | .print value, c => by
    rw [ofStmt_print]
    exact ((straight_ofExpr value _).append (straight_singleton rfl rfl)).labelled (Nat.le_refl _)
  | .expr value, c => by
    rw [ofStmt_expr]
    exact (straight_ofExpr value _).labelled (Nat.le_refl _)
  | .ifElse condition body orelse, c => by
    rw [ofStmt_ifElse]
    exact labelled_ifElse (straight_ofExpr condition _)
      (labelled_ofBlock body
        { c with temporaries := (ofExpr c.temporaries condition).2.2, labels := c.labels + 2 })
      (labelled_ofBlock orelse _)
  | .whileLoop condition body, c => by
    rw [ofStmt_whileLoop]
    have hloop := labelled_loop (a := (ofExpr c.temporaries condition).2.1) straight_nil
      (straight_ofExpr condition c.temporaries) (labelled_ofBlock body
        { c with temporaries := (ofExpr c.temporaries condition).2.2, labels := c.labels + 2 })
      straight_nil
    exact hloop
  | .forRange name start stop body, c => by
    rw [ofStmt_forRange]
    exact labelled_forRange (straight_loopSetup c start stop)
      (labelled_ofBlock body ⟨(loopSetup c start stop).2.2 + 1, c.labels + 2, c.loops + 1⟩)
  | .define _, _ => (straight_singleton rfl rfl).labelled (Nat.le_refl _)
  | .defineClass _, _ => (straight_singleton rfl rfl).labelled (Nat.le_refl _)
  | .return none, _ => (straight_singleton rfl rfl).labelled (Nat.le_refl _)
  | .return (some value), c => by
    rw [ofStmt_return]
    exact ((straight_ofExpr value _).append (straight_singleton rfl rfl)).labelled (Nat.le_refl _)
  | .pass, _ => straight_nil.labelled (Nat.le_refl _)

theorem labelled_ofBlock : ∀ (block : List Stmt) (c : Counters),
    Labelled c.labels (ofBlock c block).2.labels (ofBlock c block).1
  | [], _ => straight_nil.labelled (Nat.le_refl _)
  | s :: ss, c => by
    rw [ofBlock_cons]
    exact (labelled_ofStmt s c).append (labelled_ofBlock ss _)

end

/-! ### Assembling -/

theorem firstRepeated?_eq_none {xs : List Nat} (hnodup : xs.Nodup) :
    ∀ {seen : List Nat}, (∀ x ∈ xs, x ∉ seen) → firstRepeated? seen xs = none := by
  induction xs with
  | nil => exact fun _ ↦ rfl
  | cons x xs ih =>
    intro seen hseen
    obtain ⟨hx, hxs⟩ := List.nodup_cons.mp hnodup
    rw [firstRepeated?, if_neg (hseen x List.mem_cons_self)]
    refine ih hxs fun y hy hmem ↦ ?_
    rcases List.mem_cons.mp hmem with rfl | hmem
    · exact hx hy
    · exact hseen y (List.mem_cons_of_mem x hy) hmem

/-- Operations with labels of their own can be assembled. -/
theorem Labelled.assemble {low high : Nat} {ops : List Op} (h : Labelled low high ops) :
    assemble ops = .ok (ops.flatMap (Op.code (placeOf ops))) := by
  have hjumps : (ops.filterMap Op.jumpsTo?).find? (fun l ↦ l ∉ definedLabels ops) = none := by
    refine List.find?_eq_none.mpr fun l hl ↦ ?_
    simpa using h.closed l hl
  unfold ThreeAddress.assemble
  rw [firstRepeated?_eq_none h.nodup fun _ _ ↦ List.not_mem_nil]
  simp only [hjumps]

end Offside.ThreeAddress
