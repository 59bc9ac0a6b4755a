import Mathlib.Data.List.Range
import Offside.Proofs.ThreeAddress.Labels

/-!
The temporaries of three-address forms. Lowering gives out temporaries in the order of their
numbers, and the operation that it gives one to is the only one that writes it: what the operations
of a program write is `1, 2, 3, …`, without a gap and without a repetition (`writes_ofBlock`).
-/

set_option autoImplicit false
set_option relaxedAutoImplicit false

namespace Offside.ThreeAddress

/-- The temporaries among an operand: one or none. -/
def Operand.temporaries : Operand → List Nat
  | .temporary number => [number]
  | .variable _ => []

/-- The temporary that an operation writes. -/
def Op.writes? : Op → Option Nat
  | .constant _ result => some result
  | .assign _ (.temporary number) => some number
  | .assign _ (.variable _) => none
  | .arith _ _ _ result => some result
  | .compare _ _ _ result => some result
  | .buildList _ result => some result
  | .loadIndex _ _ result => some result
  | .call _ _ result => some result
  | .callMethod _ _ _ result => some result
  | .loadAttribute _ _ result => some result
  | _ => none

/-- The temporaries that an operation reads. -/
def Op.reads : Op → List Nat
  | .assign source _ => source.temporaries
  | .arith _ left right _ => left.temporaries ++ right.temporaries
  | .compare _ left right _ => left.temporaries ++ right.temporaries
  | .print value => value.temporaries
  | .jumpIfFalse condition _ => condition.temporaries
  | .buildList items _ => items.flatMap Operand.temporaries
  | .loadIndex _ position _ => position.temporaries
  | .storeIndex _ position value => position.temporaries ++ value.temporaries
  | .call _ args _ => args.flatMap Operand.temporaries
  | .callMethod _ _ args _ => args.flatMap Operand.temporaries
  | .storeAttribute _ _ value => value.temporaries
  | .returnValue (some value) => value.temporaries
  | _ => []

/-- The temporaries that operations write, in order. -/
def results (ops : List Op) : List Nat :=
  ops.filterMap Op.writes?

/-- The numbers behind `n` up to `k`, in order. -/
structure Consecutive (n k : Nat) (numbers : List Nat) : Prop where
  le : n ≤ k
  eq_range' : numbers = List.range' (n + 1) (k - n)

namespace Consecutive

variable {n k l : Nat} {xs ys : List Nat}

theorem nil (n : Nat) : Consecutive n n [] :=
  ⟨Nat.le_refl n, by rw [Nat.sub_self]; rfl⟩

theorem next (n : Nat) : Consecutive n (n + 1) [n + 1] :=
  ⟨Nat.le_succ n, by rw [Nat.add_sub_cancel_left]; rfl⟩

theorem append (hxs : Consecutive n k xs) (hys : Consecutive k l ys) :
    Consecutive n l (xs ++ ys) where
  le := Nat.le_trans hxs.le hys.le
  eq_range' := by
    have hle := hxs.le
    have hle' := hys.le
    rw [hxs.eq_range', hys.eq_range', show k + 1 = n + 1 + (k - n) by omega, List.range'_append_1]
    congr 1
    omega

theorem nodup (h : Consecutive n k xs) : xs.Nodup := by
  rw [h.eq_range']
  exact List.nodup_range'

end Consecutive

/-- The operations write the temporaries behind `n` up to `k`, in order. -/
def Writes (n k : Nat) (ops : List Op) : Prop :=
  Consecutive n k (results ops)

section

variable {n k l : Nat} {xs ys : List Op}

theorem results_append (xs ys : List Op) : results (xs ++ ys) = results xs ++ results ys :=
  List.filterMap_append

theorem writes_nil (n : Nat) : Writes n n [] :=
  .nil n

theorem writes_none {op : Op} (h : op.writes? = none) (n : Nat) : Writes n n [op] := by
  rw [Writes, results, List.filterMap_cons_none h]
  exact .nil n

theorem writes_next {op : Op} (h : op.writes? = some (n + 1)) : Writes n (n + 1) [op] := by
  rw [Writes, results, List.filterMap_cons_some h]
  exact .next n

theorem Writes.append (hxs : Writes n k xs) (hys : Writes k l ys) : Writes n l (xs ++ ys) := by
  rw [Writes, results_append]
  exact Consecutive.append hxs hys

theorem Writes.cons_none {op : Op} (h : op.writes? = none) (hxs : Writes n k xs) :
    Writes n k (op :: xs) :=
  (writes_none h n).append hxs

end

/-! ### Expressions -/

mutual

theorem writes_ofExpr : ∀ (e : Expr) (n : Nat), Writes n (ofExpr n e).2.2 (ofExpr n e).1
  | .number _, _ => writes_next rfl
  | .boolean _, _ => writes_next rfl
  | .variable _, n => writes_nil n
  | .arith _ left right, n => by
    rw [ofExpr_arith]
    exact ((writes_ofExpr left n).append (writes_ofExpr right _)).append (writes_next rfl)
  | .compare _ left right, n => by
    rw [ofExpr_compare]
    exact ((writes_ofExpr left n).append (writes_ofExpr right _)).append (writes_next rfl)
  | .call _ args, n => by
    rw [ofExpr_call]
    exact (writes_ofExprs args n).append (writes_next rfl)
  | .list items, n => by
    rw [ofExpr_list]
    exact (writes_ofExprs items n).append (writes_next rfl)
  | .index _ position, n => by
    rw [ofExpr_index]
    exact (writes_ofExpr position n).append (writes_next rfl)
  | .member _ _, _ => writes_next rfl
  | .methodCall _ _ args, n => by
    rw [ofExpr_methodCall]
    exact (writes_ofExprs args n).append (writes_next rfl)

theorem writes_ofExprs : ∀ (es : List Expr) (n : Nat), Writes n (ofExprs n es).2.2 (ofExprs n es).1
  | [], n => writes_nil n
  | e :: es, n => by
    rw [ofExprs_cons]
    exact (writes_ofExpr e n).append (writes_ofExprs es _)

end

theorem writes_fixed (n : Nat) (a : Operand) : Writes n (fixed n a).2.2 (fixed n a).1 := by
  cases a with
  | temporary k => exact writes_nil n
  | «variable» name => exact writes_next rfl

theorem writes_loopSetup (c : Counters) (start stop : Expr) :
    Writes c.temporaries (loopSetup c start stop).2.2 (loopSetup c start stop).1 :=
  ((writes_ofExpr start _).append ((writes_ofExpr stop _).cons_none rfl)).append (writes_fixed _ _)

theorem writes_loopHead (c : Counters) (name : String) (bound : Operand) (n : Nat) :
    Writes n (n + 1) (loopHead c name bound (n + 1)) :=
  .cons_none rfl (.append (writes_next rfl) (.cons_none rfl (writes_none rfl _)))

theorem writes_loopNext (c : Counters) (n : Nat) : Writes n (n + 2) (loopNext c n) :=
  .append (writes_next rfl) (.append (writes_next rfl)
    (.cons_none rfl (.cons_none rfl (writes_none rfl _))))

/-! ### Statements -/

mutual

/-- A statement writes the temporaries that it is given, in order. -/
theorem writes_ofStmt : ∀ (s : Stmt) (c : Counters),
    Writes c.temporaries (ofStmt c s).2.temporaries (ofStmt c s).1
  | .assign _ value, c => by
    rw [ofStmt_assign]
    exact (writes_ofExpr value _).append (writes_none rfl _)
  | .assignIndex _ position value, c => by
    rw [ofStmt_assignIndex]
    exact ((writes_ofExpr position _).append (writes_ofExpr value _)).append (writes_none rfl _)
  | .assignAttribute _ _ value, c => by
    rw [ofStmt_assignAttribute]
    exact (writes_ofExpr value _).append (writes_none rfl _)
  | .print value, c => by
    rw [ofStmt_print]
    exact (writes_ofExpr value _).append (writes_none rfl _)
  | .expr value, c => by
    rw [ofStmt_expr]
    exact writes_ofExpr value _
  | .ifElse condition body orelse, c => by
    rw [ofStmt_ifElse]
    have hbody := writes_ofBlock body
      { c with temporaries := (ofExpr c.temporaries condition).2.2, labels := c.labels + 2 }
    exact (((writes_ofExpr condition _).append (hbody.cons_none rfl)).append
      (((writes_ofBlock orelse _).cons_none rfl).cons_none rfl)).append (writes_none rfl _)
  | .whileLoop condition body, c => by
    rw [ofStmt_whileLoop]
    have hbody := writes_ofBlock body
      { c with temporaries := (ofExpr c.temporaries condition).2.2, labels := c.labels + 2 }
    exact (((writes_ofExpr condition _).cons_none rfl).append (hbody.cons_none rfl)).append
      ((writes_none rfl _).cons_none rfl)
  | .forRange name start stop body, c => by
    rw [ofStmt_forRange]
    have hbody := writes_ofBlock body
      ⟨(loopSetup c start stop).2.2 + 1, c.labels + 2, c.loops + 1⟩
    exact (((writes_loopSetup c start stop).append (writes_loopHead c name _ _)).append
      hbody).append (writes_loopNext c _)
  | .define _, c => writes_none rfl c.temporaries
  | .defineClass _, c => writes_none rfl c.temporaries
  | .return none, c => writes_none rfl c.temporaries
  | .return (some value), c => by
    rw [ofStmt_return]
    exact (writes_ofExpr value _).append (writes_none rfl _)
  | .pass, c => writes_nil c.temporaries

theorem writes_ofBlock : ∀ (block : List Stmt) (c : Counters),
    Writes c.temporaries (ofBlock c block).2.temporaries (ofBlock c block).1
  | [], c => writes_nil c.temporaries
  | s :: ss, c => by
    rw [ofBlock_cons]
    exact (writes_ofStmt s c).append (writes_ofBlock ss _)

end

end Offside.ThreeAddress
