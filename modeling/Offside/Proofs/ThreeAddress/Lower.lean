import Offside.Proofs.Scope.Scoped

/-!
Equations for the three-address form, with the parts of a result named instead of matched. Lowering
only counts upwards, and the operand of an expression is a variable that the expression reads or a
temporary that has been counted.
-/

set_option autoImplicit false
set_option relaxedAutoImplicit false

namespace Offside.ThreeAddress

/-! ### Equations -/

section

variable (n : Nat)

theorem ofExpr_arith (op : ArithOp) (left right : Expr) :
    ofExpr n (.arith op left right) =
      let a := ofExpr n left
      let b := ofExpr a.2.2 right
      (a.1 ++ b.1 ++ [.arith op a.2.1 b.2.1 (b.2.2 + 1)], .temporary (b.2.2 + 1), b.2.2 + 1) := by
  rw [ofExpr]

theorem ofExpr_compare (op : CompareOp) (left right : Expr) :
    ofExpr n (.compare op left right) =
      let a := ofExpr n left
      let b := ofExpr a.2.2 right
      (a.1 ++ b.1 ++ [.compare op a.2.1 b.2.1 (b.2.2 + 1)], .temporary (b.2.2 + 1), b.2.2 + 1) := by
  rw [ofExpr]

theorem ofExpr_call (name : String) (args : List Expr) :
    ofExpr n (.call name args) =
      let as := ofExprs n args
      (as.1 ++ [.call name as.2.1 (as.2.2 + 1)], .temporary (as.2.2 + 1), as.2.2 + 1) := by
  rw [ofExpr]

theorem ofExpr_list (items : List Expr) :
    ofExpr n (.list items) =
      let as := ofExprs n items
      (as.1 ++ [.buildList as.2.1 (as.2.2 + 1)], .temporary (as.2.2 + 1), as.2.2 + 1) := by
  rw [ofExpr]

theorem ofExpr_index (name : String) (position : Expr) :
    ofExpr n (.index name position) =
      let a := ofExpr n position
      (a.1 ++ [.loadIndex name a.2.1 (a.2.2 + 1)], .temporary (a.2.2 + 1), a.2.2 + 1) := by
  rw [ofExpr]

theorem ofExpr_methodCall (object method : String) (args : List Expr) :
    ofExpr n (.methodCall object method args) =
      let as := ofExprs n args
      (as.1 ++ [.callMethod object method as.2.1 (as.2.2 + 1)], .temporary (as.2.2 + 1),
        as.2.2 + 1) := by
  rw [ofExpr]

theorem ofExprs_cons (e : Expr) (es : List Expr) :
    ofExprs n (e :: es) =
      let a := ofExpr n e
      let as := ofExprs a.2.2 es
      (a.1 ++ as.1, a.2.1 :: as.2.1, as.2.2) := by
  rw [ofExprs]

end

section

variable (c : Counters)

theorem ofStmt_assign (name : String) (value : Expr) :
    ofStmt c (.assign name value) =
      let a := ofExpr c.temporaries value
      (a.1 ++ [.assign a.2.1 (.variable name)], { c with temporaries := a.2.2 }) := by
  rw [ofStmt]

theorem ofStmt_assignIndex (name : String) (position value : Expr) :
    ofStmt c (.assignIndex name position value) =
      let a := ofExpr c.temporaries position
      let b := ofExpr a.2.2 value
      (a.1 ++ b.1 ++ [.storeIndex name a.2.1 b.2.1], { c with temporaries := b.2.2 }) := by
  rw [ofStmt]

theorem ofStmt_assignAttribute (object name : String) (value : Expr) :
    ofStmt c (.assignAttribute object name value) =
      let a := ofExpr c.temporaries value
      (a.1 ++ [.storeAttribute object name a.2.1], { c with temporaries := a.2.2 }) := by
  rw [ofStmt]

theorem ofStmt_print (value : Expr) :
    ofStmt c (.print value) =
      let a := ofExpr c.temporaries value
      (a.1 ++ [.print a.2.1], { c with temporaries := a.2.2 }) := by
  rw [ofStmt]

theorem ofStmt_expr (value : Expr) :
    ofStmt c (.expr value) =
      let a := ofExpr c.temporaries value
      (a.1, { c with temporaries := a.2.2 }) := by
  rw [ofStmt]

theorem ofStmt_return (value : Expr) :
    ofStmt c (.return (some value)) =
      let a := ofExpr c.temporaries value
      (a.1 ++ [.returnValue (some a.2.1)], { c with temporaries := a.2.2 }) := by
  rw [ofStmt]

theorem ofStmt_ifElse (condition : Expr) (body orelse : Block) :
    ofStmt c (.ifElse condition body orelse) =
      let a := ofExpr c.temporaries condition
      let first := ofBlock { c with temporaries := a.2.2, labels := c.labels + 2 } body
      let second := ofBlock first.2 orelse
      (a.1 ++ .jumpIfFalse a.2.1 (c.labels + 1) :: first.1 ++
        .jump (c.labels + 2) :: .label (c.labels + 1) :: second.1 ++ [.label (c.labels + 2)],
        second.2) := by
  rw [ofStmt]

theorem ofStmt_whileLoop (condition : Expr) (body : Block) :
    ofStmt c (.whileLoop condition body) =
      let a := ofExpr c.temporaries condition
      let first := ofBlock { c with temporaries := a.2.2, labels := c.labels + 2 } body
      (.label (c.labels + 1) :: a.1 ++ .jumpIfFalse a.2.1 (c.labels + 2) :: first.1 ++
        [.jump (c.labels + 1), .label (c.labels + 2)], first.2) := by
  rw [ofStmt]

/-- The operations in front of a counting loop, the operand of its bound, and the number of
temporaries so far. -/
def loopSetup (c : Counters) (start stop : Expr) : List Op × Operand × Nat :=
  let a := ofExpr c.temporaries start
  let b := ofExpr a.2.2 stop
  let bound := fixed b.2.2 b.2.1
  (a.1 ++ .assign a.2.1 (.variable (loopCounter (c.loops + 1))) :: b.1 ++ bound.1, bound.2)

/-- The operations at the top of a counting loop. -/
def loopHead (c : Counters) (name : String) (bound : Operand) (test : Nat) : List Op :=
  [.label (c.labels + 1), .compare .lt (.variable (loopCounter (c.loops + 1))) bound test,
    .jumpIfFalse (.temporary test) (c.labels + 2),
    .assign (.variable (loopCounter (c.loops + 1))) (.variable name)]

/-- The operations at the end of a counting loop. -/
def loopNext (c : Counters) (n : Nat) : List Op :=
  [.constant (.number (.int 1)) (n + 1),
    .arith .add (.variable (loopCounter (c.loops + 1))) (.temporary (n + 1)) (n + 2),
    .assign (.temporary (n + 2)) (.variable (loopCounter (c.loops + 1))),
    .jump (c.labels + 1), .label (c.labels + 2)]

theorem ofStmt_forRange (name : String) (start stop : Expr) (body : Block) :
    ofStmt c (.forRange name start stop body) =
      let setup := loopSetup c start stop
      let block := ofBlock ⟨setup.2.2 + 1, c.labels + 2, c.loops + 1⟩ body
      (setup.1 ++ loopHead c name setup.2.1 (setup.2.2 + 1) ++ block.1 ++
        loopNext c block.2.temporaries,
        { block.2 with temporaries := block.2.temporaries + 2 }) := by
  rw [ofStmt]
  rfl

theorem ofBlock_cons (s : Stmt) (ss : Block) :
    ofBlock c (s :: ss) =
      let first := ofStmt c s
      let rest := ofBlock first.2 ss
      (first.1 ++ rest.1, rest.2) := by
  rw [ofBlock]

end

/-! ### Counters -/

/-- All counters are at least those before. -/
structure Counters.Le (c c' : Counters) : Prop where
  temporaries : c.temporaries ≤ c'.temporaries
  labels : c.labels ≤ c'.labels
  loops : c.loops ≤ c'.loops

theorem Counters.Le.trans {c c' c'' : Counters} (h : c.Le c') (h' : c'.Le c'') : c.Le c'' :=
  ⟨Nat.le_trans h.temporaries h'.temporaries, Nat.le_trans h.labels h'.labels,
    Nat.le_trans h.loops h'.loops⟩

mutual

theorem le_ofExpr : ∀ (e : Expr) (n : Nat), n ≤ (ofExpr n e).2.2
  | .number _, _ => Nat.le_succ _
  | .boolean _, _ => Nat.le_succ _
  | .variable _, _ => Nat.le_refl _
  | .arith _ left right, n => by
    rw [ofExpr_arith]
    exact Nat.le_succ_of_le (Nat.le_trans (le_ofExpr left n) (le_ofExpr right _))
  | .compare _ left right, n => by
    rw [ofExpr_compare]
    exact Nat.le_succ_of_le (Nat.le_trans (le_ofExpr left n) (le_ofExpr right _))
  | .call _ args, n => by
    rw [ofExpr_call]
    exact Nat.le_succ_of_le (le_ofExprs args n)
  | .list items, n => by
    rw [ofExpr_list]
    exact Nat.le_succ_of_le (le_ofExprs items n)
  | .index _ position, n => by
    rw [ofExpr_index]
    exact Nat.le_succ_of_le (le_ofExpr position n)
  | .member _ _, _ => Nat.le_succ _
  | .methodCall _ _ args, n => by
    rw [ofExpr_methodCall]
    exact Nat.le_succ_of_le (le_ofExprs args n)

theorem le_ofExprs : ∀ (es : List Expr) (n : Nat), n ≤ (ofExprs n es).2.2
  | [], _ => Nat.le_refl _
  | e :: es, n => by
    rw [ofExprs_cons]
    exact Nat.le_trans (le_ofExpr e n) (le_ofExprs es _)

end

theorem le_fixed (n : Nat) (a : Operand) : n ≤ (fixed n a).2.2 := by
  cases a with
  | temporary k => exact Nat.le_refl n
  | «variable» name => exact Nat.le_succ n

theorem le_loopSetup (c : Counters) (start stop : Expr) :
    c.temporaries ≤ (loopSetup c start stop).2.2 :=
  Nat.le_trans (Nat.le_trans (le_ofExpr start _) (le_ofExpr stop _)) (le_fixed _ _)

mutual

/-- Lowering counts upwards. -/
theorem le_ofStmt : ∀ (s : Stmt) (c : Counters), c.Le (ofStmt c s).2
  | .assign _ value, c => ⟨le_ofExpr value _, Nat.le_refl _, Nat.le_refl _⟩
  | .assignIndex _ position value, c => by
    rw [ofStmt_assignIndex]
    exact ⟨Nat.le_trans (le_ofExpr position _) (le_ofExpr value _), Nat.le_refl _, Nat.le_refl _⟩
  | .assignAttribute _ _ value, c => ⟨le_ofExpr value _, Nat.le_refl _, Nat.le_refl _⟩
  | .print value, c => ⟨le_ofExpr value _, Nat.le_refl _, Nat.le_refl _⟩
  | .expr value, c => ⟨le_ofExpr value _, Nat.le_refl _, Nat.le_refl _⟩
  | .ifElse condition body orelse, c => by
    rw [ofStmt_ifElse]
    have htest : c.Le
        { c with temporaries := (ofExpr c.temporaries condition).2.2, labels := c.labels + 2 } :=
      ⟨le_ofExpr condition _, Nat.le_add_right _ 2, Nat.le_refl _⟩
    exact (htest.trans (le_ofBlock body _)).trans (le_ofBlock orelse _)
  | .whileLoop condition body, c => by
    rw [ofStmt_whileLoop]
    have htest : c.Le
        { c with temporaries := (ofExpr c.temporaries condition).2.2, labels := c.labels + 2 } :=
      ⟨le_ofExpr condition _, Nat.le_add_right _ 2, Nat.le_refl _⟩
    exact htest.trans (le_ofBlock body _)
  | .forRange name start stop body, c => by
    rw [ofStmt_forRange]
    have hhead : c.Le ⟨(loopSetup c start stop).2.2 + 1, c.labels + 2, c.loops + 1⟩ :=
      ⟨Nat.le_succ_of_le (le_loopSetup c start stop), Nat.le_add_right _ 2, Nat.le_add_right _ 1⟩
    have hbody := hhead.trans (le_ofBlock body _)
    exact ⟨Nat.le_trans hbody.temporaries (Nat.le_add_right _ 2), hbody.labels, hbody.loops⟩
  | .define _, _ => ⟨Nat.le_refl _, Nat.le_refl _, Nat.le_refl _⟩
  | .defineClass _, _ => ⟨Nat.le_refl _, Nat.le_refl _, Nat.le_refl _⟩
  | .return none, _ => ⟨Nat.le_refl _, Nat.le_refl _, Nat.le_refl _⟩
  | .return (some value), c => ⟨le_ofExpr value _, Nat.le_refl _, Nat.le_refl _⟩
  | .pass, _ => ⟨Nat.le_refl _, Nat.le_refl _, Nat.le_refl _⟩

theorem le_ofBlock : ∀ (block : List Stmt) (c : Counters), c.Le (ofBlock c block).2
  | [], _ => ⟨Nat.le_refl _, Nat.le_refl _, Nat.le_refl _⟩
  | s :: ss, c => by
    rw [ofBlock_cons]
    exact (le_ofStmt s c).trans (le_ofBlock ss _)

end

/-! ### Operands -/

theorem length_ofExprs (es : List Expr) : ∀ n, (ofExprs n es).2.1.length = es.length := by
  induction es with
  | nil => exact fun _ ↦ rfl
  | cons e es ih =>
    intro n
    rw [ofExprs_cons, List.length_cons, List.length_cons, ih]

/-- Any variable but the temporaries that come after the first `n`. -/
def Older (n : Nat) (x : String) : Prop :=
  ∀ k, n < k → x ≠ slotOfTemporary k

theorem Older.mono {n n' : Nat} {x : String} (h : Older n x) (hle : n ≤ n') : Older n' x :=
  fun k hk ↦ h k (Nat.lt_of_le_of_lt hle hk)

theorem Older.of_plain {n : Nat} {x : String} (h : Plain x) : Older n x :=
  fun k _ ↦ (HiddenBelow.temporary (Nat.le_refl k) : HiddenBelow k 0 _).ne_of_plain h

theorem Older.of_hiddenBelow {n loops : Nat} {x : String} (h : HiddenBelow n loops x) :
    Older n x :=
  fun _ hk ↦ (h.ne_temporary hk).symm

theorem older_slotOfTemporary {n k : Nat} (h : k ≤ n) : Older n (slotOfTemporary k) :=
  .of_hiddenBelow (.temporary h : HiddenBelow n 0 _)

theorem not_older_slotOfTemporary (n : Nat) : ¬Older n (slotOfTemporary (n + 1)) :=
  fun h ↦ h (n + 1) (Nat.lt_succ_self n) rfl

/-- The operand of an expression is a variable that it reads, or a temporary. -/
theorem older_ofExpr {e : Expr} (n : Nat) (he : e.Reads Plain) :
    Older (ofExpr n e).2.2 (ofExpr n e).2.1.slot := by
  cases e with
  | «variable» name => exact .of_plain he
  | _ => exact older_slotOfTemporary (Nat.le_refl _)

/-- The bound of a counting loop is kept in a temporary. -/
theorem loopSetup_bound (c : Counters) (start stop : Expr) :
    ∃ k, (loopSetup c start stop).2.1 = .temporary k ∧ k ≤ (loopSetup c start stop).2.2 := by
  cases stop <;> exact ⟨_, rfl, Nat.le_refl _⟩

end Offside.ThreeAddress
