import Offside.Proofs.Code.Loops
import Offside.Proofs.ThreeAddress.Layout
import Offside.Proofs.ThreeAddress.Level
import Offside.Proofs.ThreeAddress.Temporaries

/-!
Counting loops in three-address form. The operations of a counting loop keep its counter in a hidden
variable and its bound in a temporary; the body writes later temporaries and hidden variables with
higher numbers only. Laid out in a block, the loop is placed as one (`placed_formLoop`) and leads as
one (`leads_formLoop`).
-/

set_option autoImplicit false
set_option relaxedAutoImplicit false

namespace Offside.ThreeAddress

open Machine (Arrives Loop)

/-! ### What operations store -/

/-- The instructions of an operation do not store the variable. -/
def Op.Spares (x : String) (op : Op) : Prop :=
  ∀ place, Instr.storeVariable x ∉ op.code place

section

variable {x : String} {n : Nat}

/-- An operation stores its temporary, or the variable that it assigns. -/
theorem Op.spares {op : Op} (hresult : ∀ k, op.writes? = some k → x ≠ slotOfTemporary k)
    (htarget : ∀ source name, op = .assign source (.variable name) → x ≠ name) : op.Spares x := by
  intro place
  cases op with
  | assign source target =>
    cases target with
    | temporary k => simpa [Op.code, Operand.load, Operand.slot] using hresult k rfl
    | «variable» name => simpa [Op.code, Operand.load, Operand.slot] using htarget source name rfl
  | returnValue value => cases value <;> simp [Op.code, returnNone, Operand.load]
  | print value => simp [Op.code, Operand.load]
  | label number => simp [Op.code]
  | jump target => simp [Op.code]
  | jumpIfFalse condition target => simp [Op.code, Operand.load]
  | storeIndex list position value => simp [Op.code, Operand.load]
  | storeAttribute object name value => simp [Op.code, Operand.load]
  | defineFunction name => simp [Op.code]
  | defineClass name => simp [Op.code]
  | constant value result => simpa [Op.code, storeResult] using hresult result rfl
  | arith op left right result =>
    simpa [Op.code, storeResult, Operand.load] using hresult result rfl
  | compare op left right result =>
    simpa [Op.code, storeResult, Operand.load] using hresult result rfl
  | buildList items result => simpa [Op.code, storeResult, Operand.load] using hresult result rfl
  | loadIndex list position result =>
    simpa [Op.code, storeResult, Operand.load] using hresult result rfl
  | call name args result => simpa [Op.code, storeResult, Operand.load] using hresult result rfl
  | callMethod object method args result =>
    simpa [Op.code, storeResult, Operand.load] using hresult result rfl
  | loadAttribute object name result => simpa [Op.code, storeResult] using hresult result rfl

/-- An operation that writes the next temporary and assigns no variable. -/
theorem Older.spares {k : Nat} (hx : Older n x) (hle : n ≤ k) {op : Op}
    (hresult : op.writes? = some (k + 1))
    (htarget : ∀ source name, op ≠ .assign source (.variable name)) :
    ∀ op' ∈ [op], op'.Spares x := by
  intro op' hop
  rw [List.mem_singleton.mp hop]
  refine Op.spares (fun j hj ↦ ?_) fun source name heq ↦ absurd heq (htarget source name)
  rw [hresult] at hj
  exact hx j (by cases hj; omega)

mutual

/-- The operations of an expression store later temporaries only. -/
theorem spares_ofExpr : ∀ (e : Expr) (n : Nat), Older n x → ∀ op ∈ (ofExpr n e).1, op.Spares x
  | .number _, n, hx => hx.spares (Nat.le_refl n) rfl nofun
  | .boolean _, n, hx => hx.spares (Nat.le_refl n) rfl nofun
  | .variable _, _, _ => nofun
  | .arith op left right, n, hx => by
    have hle := le_ofExpr left n
    have hle' := le_ofExpr right (ofExpr n left).2.2
    rw [ofExpr_arith]
    exact List.forall_mem_append.mpr ⟨List.forall_mem_append.mpr
      ⟨spares_ofExpr left n hx, spares_ofExpr right _ (hx.mono hle)⟩,
      hx.spares (Nat.le_trans hle hle') rfl nofun⟩
  | .compare op left right, n, hx => by
    have hle := le_ofExpr left n
    have hle' := le_ofExpr right (ofExpr n left).2.2
    rw [ofExpr_compare]
    exact List.forall_mem_append.mpr ⟨List.forall_mem_append.mpr
      ⟨spares_ofExpr left n hx, spares_ofExpr right _ (hx.mono hle)⟩,
      hx.spares (Nat.le_trans hle hle') rfl nofun⟩
  | .call _ args, n, hx => by
    rw [ofExpr_call]
    exact List.forall_mem_append.mpr
      ⟨spares_ofExprs args n hx, hx.spares (le_ofExprs args n) rfl nofun⟩
  | .list items, n, hx => by
    rw [ofExpr_list]
    exact List.forall_mem_append.mpr
      ⟨spares_ofExprs items n hx, hx.spares (le_ofExprs items n) rfl nofun⟩
  | .index _ position, n, hx => by
    rw [ofExpr_index]
    exact List.forall_mem_append.mpr
      ⟨spares_ofExpr position n hx, hx.spares (le_ofExpr position n) rfl nofun⟩
  | .member _ _, n, hx => hx.spares (Nat.le_refl n) rfl nofun
  | .methodCall _ _ args, n, hx => by
    rw [ofExpr_methodCall]
    exact List.forall_mem_append.mpr
      ⟨spares_ofExprs args n hx, hx.spares (le_ofExprs args n) rfl nofun⟩

theorem spares_ofExprs : ∀ (es : List Expr) (n : Nat), Older n x →
    ∀ op ∈ (ofExprs n es).1, op.Spares x
  | [], _, _ => nofun
  | e :: es, n, hx => by
    rw [ofExprs_cons]
    exact List.forall_mem_append.mpr
      ⟨spares_ofExpr e n hx, spares_ofExprs es _ (hx.mono (le_ofExpr e n))⟩

end

theorem spares_fixed (a : Operand) (hx : Older n x) : ∀ op ∈ (fixed n a).1, op.Spares x := by
  cases a with
  | temporary k => exact nofun
  | «variable» name => exact hx.spares (Nat.le_refl n) rfl nofun

/-- An operation that writes no temporary, and assigns no variable but another one. -/
theorem spares_other {op : Op} (hresult : op.writes? = none)
    (htarget : ∀ source name, op = .assign source (.variable name) → x ≠ name) :
    op.Spares x :=
  Op.spares (fun k hk ↦ by rw [hresult] at hk; cases hk) htarget

theorem spares_assign {source : Operand} {name : String} (hname : x ≠ name) :
    (Op.assign source (.variable name)).Spares x :=
  spares_other rfl fun _ _ heq ↦ by cases heq; exact hname

theorem spares_singleton {op : Op} (hresult : op.writes? = none)
    (htarget : ∀ source name, op ≠ .assign source (.variable name)) : ∀ op' ∈ [op], op'.Spares x :=
  List.forall_mem_singleton.mpr (spares_other hresult fun _ _ heq ↦ absurd heq (htarget _ _))

end

section

variable {x : String} {i : Bool}

theorem spares_loopSetup {c : Counters} (start stop : Expr)
    (hx : HiddenBelow c.temporaries c.loops x) :
    ∀ op ∈ (loopSetup c start stop).1, op.Spares x := by
  have hle := le_ofExpr start c.temporaries
  have hle' := le_ofExpr stop (ofExpr c.temporaries start).2.2
  have hx' := Older.of_hiddenBelow hx
  have hcounter : x ≠ loopCounter (c.loops + 1) := (hx.ne_counter (Nat.lt_succ_self _)).symm
  refine List.forall_mem_append.mpr ⟨List.forall_mem_append.mpr ⟨spares_ofExpr start _ hx', ?_⟩,
    spares_fixed _ (hx'.mono (Nat.le_trans hle hle'))⟩
  exact List.forall_mem_cons.mpr ⟨spares_assign hcounter, spares_ofExpr stop _ (hx'.mono hle)⟩

theorem spares_loopHead {c : Counters} {name : String} {bound : Operand} {n : Nat}
    (hx : HiddenBelow c.temporaries c.loops x) (hle : c.temporaries ≤ n) (hname : x ≠ name) :
    ∀ op ∈ loopHead c name bound (n + 1), op.Spares x := by
  have htest : ∀ op ∈ [Op.compare .lt (.variable (loopCounter (c.loops + 1))) bound (n + 1)],
      op.Spares x := (Older.of_hiddenBelow hx).spares hle rfl nofun
  exact List.forall_mem_cons.mpr ⟨spares_other rfl nofun, List.forall_mem_cons.mpr
    ⟨htest _ (List.mem_singleton_self _), List.forall_mem_cons.mpr ⟨spares_other rfl nofun,
      List.forall_mem_singleton.mpr (spares_assign hname)⟩⟩⟩

theorem spares_loopNext {c : Counters} {n : Nat} (hx : HiddenBelow c.temporaries c.loops x)
    (hle : c.temporaries ≤ n) : ∀ op ∈ loopNext c n, op.Spares x := by
  have hcounter : x ≠ loopCounter (c.loops + 1) := (hx.ne_counter (Nat.lt_succ_self _)).symm
  have hone : ∀ op ∈ [Op.constant (.number (.int 1)) (n + 1)], op.Spares x :=
    (Older.of_hiddenBelow hx).spares hle rfl nofun
  have hadd : ∀ op ∈ [Op.arith .add (.variable (loopCounter (c.loops + 1))) (.temporary (n + 1))
      (n + 2)], op.Spares x :=
    (Older.of_hiddenBelow hx).spares (Nat.le_succ_of_le hle) rfl nofun
  exact List.forall_mem_cons.mpr ⟨hone _ (List.mem_singleton_self _), List.forall_mem_cons.mpr
    ⟨hadd _ (List.mem_singleton_self _), List.forall_mem_cons.mpr ⟨spares_assign hcounter,
      List.forall_mem_cons.mpr ⟨spares_other rfl nofun, spares_singleton rfl nofun⟩⟩⟩⟩

mutual

/-- A statement stores no hidden variable that came before it. -/
theorem spares_ofStmt : ∀ (st : Stmt) (c : Counters), st.Scoped i Plain →
    HiddenBelow c.temporaries c.loops x → ∀ op ∈ (ofStmt c st).1, op.Spares x
  | .assign name value, c, hst, hx => by
    rw [ofStmt_assign]
    exact List.forall_mem_append.mpr ⟨spares_ofExpr value _ (.of_hiddenBelow hx),
      List.forall_mem_singleton.mpr (spares_assign (hx.ne_of_plain hst.1).symm)⟩
  | .assignIndex name position value, c, _, hx => by
    have hx' := Older.of_hiddenBelow hx
    rw [ofStmt_assignIndex]
    exact List.forall_mem_append.mpr ⟨List.forall_mem_append.mpr ⟨spares_ofExpr position _ hx',
      spares_ofExpr value _ (hx'.mono (le_ofExpr position _))⟩, spares_singleton rfl nofun⟩
  | .assignAttribute object name value, c, _, hx => by
    rw [ofStmt_assignAttribute]
    exact List.forall_mem_append.mpr ⟨spares_ofExpr value _ (.of_hiddenBelow hx),
      spares_singleton rfl nofun⟩
  | .print value, c, _, hx => by
    rw [ofStmt_print]
    exact List.forall_mem_append.mpr ⟨spares_ofExpr value _ (.of_hiddenBelow hx),
      spares_singleton rfl nofun⟩
  | .expr value, c, _, hx => by
    rw [ofStmt_expr]
    exact spares_ofExpr value _ (.of_hiddenBelow hx)
  | .ifElse condition body orelse, c, hst, hx => by
    rw [ofStmt_ifElse]
    have hinside := hx.mono (le_ofExpr condition c.temporaries) (Nat.le_refl c.loops)
    have hle := le_ofBlock body { c with
      temporaries := (ofExpr c.temporaries condition).2.2, labels := c.labels + 2 }
    have hfirst := spares_ofBlock body { c with
      temporaries := (ofExpr c.temporaries condition).2.2, labels := c.labels + 2 } hst.2.1 hinside
    have hsecond := spares_ofBlock orelse _ hst.2.2 (hinside.mono hle.temporaries hle.loops)
    exact List.forall_mem_append.mpr ⟨List.forall_mem_append.mpr ⟨List.forall_mem_append.mpr
      ⟨spares_ofExpr condition _ (.of_hiddenBelow hx),
        List.forall_mem_cons.mpr ⟨spares_other rfl nofun, hfirst⟩⟩,
      List.forall_mem_cons.mpr ⟨spares_other rfl nofun,
        List.forall_mem_cons.mpr ⟨spares_other rfl nofun, hsecond⟩⟩⟩, spares_singleton rfl nofun⟩
  | .whileLoop condition body, c, hst, hx => by
    rw [ofStmt_whileLoop]
    have hinside := hx.mono (le_ofExpr condition c.temporaries) (Nat.le_refl c.loops)
    have hbody := spares_ofBlock body { c with
      temporaries := (ofExpr c.temporaries condition).2.2, labels := c.labels + 2 } hst.2 hinside
    exact List.forall_mem_append.mpr ⟨List.forall_mem_append.mpr
      ⟨List.forall_mem_cons.mpr
        ⟨spares_other rfl nofun, spares_ofExpr condition _ (.of_hiddenBelow hx)⟩,
        List.forall_mem_cons.mpr ⟨spares_other rfl nofun, hbody⟩⟩,
      List.forall_mem_cons.mpr ⟨spares_other rfl nofun, spares_singleton rfl nofun⟩⟩
  | .forRange name start stop body, c, hst, hx => by
    have hle := le_loopSetup c start stop
    have hbody := blockScoped_mono (Declaring.plain hst.1) hst.2.2.2
    have hinside : HiddenBelow ((loopSetup c start stop).2.2 + 1) (c.loops + 1) x :=
      hx.mono (Nat.le_succ_of_le hle) (Nat.le_succ _)
    have hle' := (le_ofBlock body
      ⟨(loopSetup c start stop).2.2 + 1, c.labels + 2, c.loops + 1⟩).temporaries
    rw [ofStmt_forRange]
    exact List.forall_mem_append.mpr ⟨List.forall_mem_append.mpr ⟨List.forall_mem_append.mpr
      ⟨spares_loopSetup start stop hx, spares_loopHead hx hle (hx.ne_of_plain hst.1).symm⟩,
      spares_ofBlock body _ hbody hinside⟩,
      spares_loopNext hx (Nat.le_trans (Nat.le_succ_of_le hle) hle')⟩
  | .define _, _, _, _ => spares_singleton rfl nofun
  | .defineClass _, _, _, _ => spares_singleton rfl nofun
  | .return none, _, _, _ => spares_singleton rfl nofun
  | .return (some value), c, _, hx => by
    rw [ofStmt_return]
    exact List.forall_mem_append.mpr ⟨spares_ofExpr value _ (.of_hiddenBelow hx),
      spares_singleton rfl nofun⟩
  | .pass, _, _, _ => nofun

theorem spares_ofBlock : ∀ (block : List Stmt) (c : Counters), BlockScoped i Plain block →
    HiddenBelow c.temporaries c.loops x → ∀ op ∈ (ofBlock c block).1, op.Spares x
  | [], _, _, _ => nofun
  | s :: ss, c, hblock, hx => by
    have hle := le_ofStmt s c
    have hrest := blockScoped_mono (Stmt.declared_plain hblock.1) hblock.2
    rw [ofBlock_cons]
    exact List.forall_mem_append.mpr ⟨spares_ofStmt s c hblock.1 hx,
      spares_ofBlock ss _ hrest (hx.mono hle.temporaries hle.loops)⟩

end

end

/-! ### Jumps -/

/-- An instruction of an operation jumps to the place of the label that the operation jumps to. -/
theorem exists_label_of_target {placeOf : Nat → Nat} {op : Op} {i : Instr} {target : Nat}
    (hi : i ∈ op.code placeOf) (htarget : i.target? = some target) :
    ∃ l, op.jumpsTo? = some l ∧ target = placeOf l := by
  have hcomputes (hall : ∀ j ∈ op.code placeOf, j.computes = true) :
      ∃ l, op.jumpsTo? = some l ∧ target = placeOf l := by
    rw [Instr.computes_target? (hall i hi)] at htarget
    cases htarget
  cases op with
  | jump l =>
    rw [List.mem_singleton.mp hi] at htarget
    exact ⟨l, rfl, (Option.some.inj htarget).symm⟩
  | jumpIfFalse condition l =>
    rcases List.mem_cons.mp hi with rfl | hi
    · cases htarget
    · rw [List.mem_singleton.mp hi] at htarget
      exact ⟨l, rfl, (Option.some.inj htarget).symm⟩
  | label l => cases hi
  | defineFunction name =>
    rw [List.mem_singleton.mp hi] at htarget
    cases htarget
  | defineClass name =>
    rw [List.mem_singleton.mp hi] at htarget
    cases htarget
  | returnValue value =>
    cases value <;> rcases List.mem_cons.mp hi with rfl | hi
    · cases htarget
    · rw [List.mem_singleton.mp hi] at htarget
      cases htarget
    · cases htarget
    · rw [List.mem_singleton.mp hi] at htarget
      cases htarget
  | buildList items result =>
    exact hcomputes (computes_append (computes_loads items)
      (List.forall_mem_cons.mpr ⟨rfl, computes_singleton rfl⟩))
  | call name args result =>
    exact hcomputes (computes_append (computes_loads args)
      (List.forall_mem_cons.mpr ⟨rfl, computes_singleton rfl⟩))
  | callMethod object method args result =>
    exact hcomputes (computes_append (List.forall_mem_cons.mpr ⟨rfl, computes_loads args⟩)
      (List.forall_mem_cons.mpr ⟨rfl, computes_singleton rfl⟩))
  | _ =>
    refine hcomputes fun j hj ↦ ?_
    simp only [Op.code, List.mem_cons, List.not_mem_nil, or_false] at hj
    rcases hj with rfl | rfl | rfl | rfl | rfl <;> rfl

/-- Straight operations do not jump. -/
theorem Straight.target? {placeOf : Nat → Nat} {ops : List Op} (h : Straight ops) {i : Instr}
    (hi : i ∈ ops.flatMap (Op.code placeOf)) : i.target? = none := by
  obtain ⟨op, hop, hi⟩ := List.mem_flatMap.mp hi
  cases htarget : i.target? with
  | none => rfl
  | some target =>
    obtain ⟨l, hl, -⟩ := exists_label_of_target hi htarget
    rw [(h op hop).2] at hl
    cases hl

/-! ### Counting loops -/

/-- The counting loop that starts at the given place of laid out operations. -/
def formLoop (code : Code) (place : Nat) (c : Counters) (name : String) (stop : Expr)
    (body : Block) : Loop :=
  let setup := loopSetup c (.number (.int 0)) stop
  let top := place + totalWidth setup.1
  let block := ofBlock ⟨setup.2.2 + 1, c.labels + 2, c.loops + 1⟩ body
  { code := code
    entry := place
    stop := place + 4
    fix := top - 1
    turn := top + 7
    next := top + 8 + totalWidth block.1
    exit := top + 8 + totalWidth block.1 + 9
    name := name
    counter := loopCounter (c.loops + 1)
    bound := setup.2.1.slot }

/-- The code that starts the counter of a loop, through a temporary. -/
def startPart (l : Loop) (zero : String) : List Instr :=
  [.loadConstant (.number (.int 0)), .storeVariable zero, .loadVariable zero,
    .storeVariable l.counter]

/-- The code at the top of a loop, which keeps the result of its comparison in a temporary. -/
def headPart (l : Loop) (test : String) : List Instr :=
  [.loadVariable l.counter, .loadVariable l.bound, .compare .lt, .storeVariable test,
    .loadVariable test, .jumpIfFalse l.exit, .loadVariable l.counter]

/-- The code behind the body of a loop, which counts on through two temporaries. -/
def tailPart (l : Loop) (one sum : String) : List Instr :=
  [.loadConstant (.number (.int 1)), .storeVariable one, .loadVariable l.counter,
    .loadVariable one, .arith .add, .storeVariable sum, .loadVariable sum,
    .storeVariable l.counter, .jump (l.fix + 1)]

/-- The operations that compute the bound of a counting loop. -/
def boundOps (n : Nat) (stop : Expr) : List Op × Operand × Nat :=
  let b := ofExpr n stop
  let bound := fixed b.2.2 b.2.1
  (b.1 ++ bound.1, bound.2)

theorem code_stored {placeOf : Nat → Nat} {op : Op} {x : String} (ops : List Op)
    (h : ∃ is, op.code placeOf = is ++ [.storeVariable x]) :
    ∃ is, (ops ++ [op] ++ []).flatMap (Op.code placeOf) = is ++ [.storeVariable x] := by
  obtain ⟨is, his⟩ := h
  exact ⟨ops.flatMap (Op.code placeOf) ++ is, by simp [his]⟩

/-- The code that computes a bound ends with storing it. -/
theorem code_boundOps (placeOf : Nat → Nat) (n : Nat) (stop : Expr) :
    ∃ is, (boundOps n stop).1.flatMap (Op.code placeOf) =
      is ++ [.storeVariable (boundOps n stop).2.1.slot] := by
  cases stop with
  | number value => exact ⟨[_], rfl⟩
  | boolean value => exact ⟨[_], rfl⟩
  | «variable» name => exact ⟨[_], rfl⟩
  | member object name => exact ⟨[_, _], rfl⟩
  | arith op left right =>
    rw [boundOps, ofExpr_arith]
    exact code_stored _ ⟨[_, _, _], rfl⟩
  | compare op left right =>
    rw [boundOps, ofExpr_compare]
    exact code_stored _ ⟨[_, _, _], rfl⟩
  | index name position =>
    rw [boundOps, ofExpr_index]
    exact code_stored _ ⟨[_, _, _], rfl⟩
  | call name args =>
    rw [boundOps, ofExpr_call]
    exact code_stored _ ⟨_ ++ [_], (List.append_assoc _ [_] [_]).symm⟩
  | list items =>
    rw [boundOps, ofExpr_list]
    exact code_stored _ ⟨_ ++ [_], (List.append_assoc _ [_] [_]).symm⟩
  | methodCall object method args =>
    rw [boundOps, ofExpr_methodCall]
    exact code_stored _ ⟨_ ++ [_], (List.append_assoc _ [_] [_]).symm⟩

theorem spares_boundOps {x : String} {n : Nat} (stop : Expr) (hx : Older n x) :
    ∀ op ∈ (boundOps n stop).1, op.Spares x :=
  List.forall_mem_append.mpr
    ⟨spares_ofExpr stop n hx, spares_fixed _ (hx.mono (le_ofExpr stop n))⟩

section

variable {code : Code} {placeOf : Nat → Nat} {place : Nat} {c : Counters} {name : String}
  {stop : Expr} {body : Block}

/-- A counting loop that is laid out in a block has its parts there. -/
theorem parts_formLoop (h : LaidOut code placeOf place (ofStmt c (rangeLoop name stop body)).1) :
    let l := formLoop code place c name stop body
    let setup := loopSetup c (.number (.int 0)) stop
    let block := ofBlock ⟨setup.2.2 + 1, c.labels + 2, c.loops + 1⟩ body
    ∃ bound, (boundOps (c.temporaries + 1) stop).1.flatMap (Op.code placeOf) =
        bound ++ [.storeVariable l.bound] ∧
      l.Parts (startPart l (slotOfTemporary (c.temporaries + 1))) bound
        (headPart l (slotOfTemporary (setup.2.2 + 1))) (block.1.flatMap (Op.code placeOf))
        (tailPart l (slotOfTemporary (block.2.temporaries + 1))
          (slotOfTemporary (block.2.temporaries + 2))) ∧
      LaidOut code placeOf (l.turn + 1) block.1 := by
  intro l setup block
  obtain ⟨bound, hbound⟩ := code_boundOps placeOf (c.temporaries + 1) stop
  have hcode : setup.1.flatMap (Op.code placeOf) =
      startPart l (slotOfTemporary (c.temporaries + 1)) ++ bound ++ [.storeVariable l.bound] := by
    rw [List.append_assoc]
    exact congrArg (startPart l (slotOfTemporary (c.temporaries + 1)) ++ ·) hbound
  have hwidth : totalWidth setup.1 = bound.length + 5 := by
    rw [← length_flatMap_code placeOf, hcode]
    simp [startPart]
  have htop : place + totalWidth setup.1 = l.fix + 1 := by
    show place + totalWidth setup.1 = place + totalWidth setup.1 - 1 + 1
    omega
  rw [rangeLoop, ofStmt_forRange] at h
  obtain ⟨hfront, hnext⟩ := laidOut_append.mp h
  obtain ⟨hfront, hblock⟩ := laidOut_append.mp hfront
  obtain ⟨hsetup, hhead⟩ := laidOut_append.mp hfront
  rw [htop] at hhead
  rw [totalWidth_append, ← Nat.add_assoc, htop] at hblock
  rw [totalWidth_append, totalWidth_append, ← Nat.add_assoc, ← Nat.add_assoc, htop] at hnext
  have hblock : LaidOut code placeOf (l.turn + 1) block.1 := by
    have hturn : l.fix + 1 + 8 = l.turn + 1 := by
      show place + totalWidth setup.1 - 1 + 1 + 8 = place + totalWidth setup.1 + 7 + 1
      omega
    exact hturn ▸ hblock
  have hnext : LaidOut code placeOf l.next (loopNext c block.2.temporaries) := by
    have hplace : l.fix + 1 + 8 + totalWidth block.1 = l.next := by
      show place + totalWidth setup.1 - 1 + 1 + 8 + totalWidth block.1 =
        place + totalWidth setup.1 + 8 + totalWidth block.1
      omega
    exact hplace ▸ hnext
  have hagain : placeOf (c.labels + 1) = l.fix + 1 := (hhead.2.1 _ rfl).1
  have hexit : placeOf (c.labels + 2) = l.exit := by
    obtain ⟨-, -, -, -, -, -, -, -, -, hlabel, -⟩ := hnext
    exact (hlabel _ rfl).1
  refine ⟨bound, hbound, ⟨?_, rfl, ?_, ?_, ?_, hblock.codeAt, ?_, ?_, rfl⟩, hblock⟩
  · rw [← hcode]
    exact hsetup.codeAt
  · show place + totalWidth setup.1 - 1 = place + 4 + bound.length
    omega
  · rw [headPart, ← hexit]
    exact hhead.codeAt
  · show place + totalWidth setup.1 + 7 = place + totalWidth setup.1 - 1 + 1 + 7
    omega
  · rw [length_flatMap_code]
    exact Nat.add_right_comm (place + totalWidth setup.1) 7 _ ▸ rfl
  · rw [tailPart, ← hagain]
    exact hnext.codeAt

theorem not_stored_of_spares {x : String} {ops : List Op} (h : ∀ op ∈ ops, op.Spares x) :
    Instr.storeVariable x ∉ ops.flatMap (Op.code placeOf) := by
  intro hmem
  obtain ⟨op, hop, hi⟩ := List.mem_flatMap.mp hmem
  exact h op hop placeOf hi

/-- A counting loop that is laid out in a block is placed as one. -/
theorem placed_formLoop {i : Bool}
    (h : LaidOut code placeOf place (ofStmt c (rangeLoop name stop body)).1)
    (hscoped : (rangeLoop name stop body).Scoped i Plain) :
    (formLoop code place c name stop body).Placed := by
  obtain ⟨bound, hbound, hparts, hblock⟩ := parts_formLoop h
  have hname : Plain name := hscoped.1
  have hbody := blockScoped_mono (Declaring.plain hname) hscoped.2.2.2
  obtain ⟨k, hk, hle⟩ := loopSetup_bound c (.number (.int 0)) stop
  have hslot : (formLoop code place c name stop body).bound = slotOfTemporary k :=
    congrArg Operand.slot hk
  have hcounter {n : Nat} : HiddenBelow n (c.loops + 1) (loopCounter (c.loops + 1)) :=
    .counter (Nat.le_refl _)
  have htemporary : HiddenBelow ((loopSetup c (.number (.int 0)) stop).2.2 + 1) (c.loops + 1)
      (slotOfTemporary k) := .temporary (Nat.le_succ_of_le hle)
  have hspares {x : String} (hx : Older (c.temporaries + 1) x) : Instr.storeVariable x ∉ bound := by
    have hnot : Instr.storeVariable x ∉
        (boundOps (c.temporaries + 1) stop).1.flatMap (Op.code placeOf) :=
      not_stored_of_spares (spares_boundOps stop hx)
    rw [hbound] at hnot
    exact fun hmem ↦ hnot (List.mem_append_left _ hmem)
  refine hparts.placed ?_
  constructor
  · intro i hi
    rcases List.mem_append.mp hi with hi | hi
    · simp only [startPart, List.mem_cons, List.not_mem_nil, or_false] at hi
      rcases hi with rfl | rfl | rfl | rfl <;> rfl
    · have hstraight : Straight (boundOps (c.temporaries + 1) stop).1 :=
        (straight_ofExpr stop _).append (straight_fixed _ _)
      have hmem : i ∈ (boundOps (c.temporaries + 1) stop).1.flatMap (Op.code placeOf) := by
        rw [hbound]
        exact List.mem_append_left _ hi
      exact hstraight.target? hmem
  · intro i hi t htarget
    simp only [headPart, List.mem_cons, List.not_mem_nil, or_false] at hi
    rcases hi with rfl | rfl | rfl | rfl | rfl | rfl | rfl <;> cases htarget
    rfl
  · intro i hi t htarget
    obtain ⟨op, hop, hi⟩ := List.mem_flatMap.mp hi
    obtain ⟨l, hl, rfl⟩ := exists_label_of_target hi htarget
    have hlabel := (labelled_ofBlock body _).closed l (List.mem_filterMap.mpr ⟨op, hop, hl⟩)
    obtain ⟨hge, hle⟩ := hblock.placeOf_le hlabel
    rw [hparts.next_eq, length_flatMap_code]
    exact ⟨hge, hle⟩
  · intro i hi t htarget
    simp only [tailPart, List.mem_cons, List.not_mem_nil, or_false] at hi
    rcases hi with rfl | rfl | rfl | rfl | rfl | rfl | rfl | rfl | rfl <;> cases htarget
    rfl
  · have hnot := hspares (.of_plain hname)
    have hzero : name ≠ slotOfTemporary (c.temporaries + 1) :=
      (HiddenBelow.temporary (Nat.le_refl _) : HiddenBelow _ 0 _).ne_of_plain hname
    have hne := (hcounter (n := 0)).ne_of_plain hname
    simp [formLoop, startPart, hnot, hzero, hne]
  · exact hspares (.of_hiddenBelow hcounter)
  · exact not_stored_of_spares (spares_ofBlock body _ hbody hcounter)
  · rw [hslot]
    exact not_stored_of_spares (spares_ofBlock body _ hbody htemporary)
  · exact (hcounter (n := 0)).ne_of_plain hname
  · rw [hslot]
    exact htemporary.ne_of_plain hname
  · rw [hslot]
    exact loopCounter_ne_slotOfTemporary _ _
  · exact List.cons_ne_nil _ _

/-- A counting loop with the parts of laid out operations leads as one, whatever the executable. -/
theorem leads_of_parts {l : Loop} {zero test one sum : String} {bound block : List Instr}
    (h : l.Parts (startPart l zero) bound (headPart l test) block (tailPart l one sum))
    (hplaced : l.Placed) (hname : ∀ x ∈ [zero, test, one, sum], x ≠ l.name)
    (hcounter : ∀ x ∈ [test, one], x ≠ l.counter) (hbound : ∀ x ∈ [test, one, sum], x ≠ l.bound)
    (e : Executable) : l.Leads e := by
  obtain ⟨hzero, hkeep, hstart, hset, -⟩ := h.setup
  obtain ⟨hcount, hlimit, hcompare, hresult, htest, hbranch, hagain, -⟩ := h.top
  obtain ⟨hunit, hone, hlast, hsecond, hadd, hsum, hnew, hstore, hjump, -⟩ := h.behind
  have hstop : l.stop = l.entry + 4 := h.stop_eq
  have hturn : l.turn = l.fix + 1 + 7 := h.turn_eq
  have hexit : l.exit = l.next + 9 := h.exit_eq
  have hsize : l.exit ≤ l.code.size := by
    rw [hexit]
    exact h.behind.le_size (List.cons_ne_nil _ _)
  have hnext := hplaced.turn_lt
  have hne := hplaced.name_ne_counter.symm
  simp only [List.forall_mem_cons, List.not_mem_nil, false_imp_iff, implies_true, and_true]
    at hname hcounter hbound
  obtain ⟨hzeroName, htestName, honeName, hsumName⟩ := hname
  obtain ⟨htestCounter, honeCounter⟩ := hcounter
  obtain ⟨htestBound, honeBound, hsumBound⟩ := hbound
  -- In front of the branch, the comparison is kept in its temporary.
  have hcompared (m : Machine) (w : Value) (k : Nat) (n : Int64) (hcode : m.code = l.code)
      (hplace : m.place = l.fix + 1) (hat : l.At k w m) (hw : w.number? = some (.int n))
      (hk : k ≤ n.toInt.toNat) : Arrives e l.name (fun p ↦ l.fix < p ∧ p < l.turn) m (l.fix + 1 + 5)
        (.boolean (decide (k < n.toInt.toNat)) :: m.stack)
        (m.vars.set test (.boolean (decide (k < n.toInt.toNat)))) := by
    rw [← hcode] at hcount hlimit hcompare hresult htest
    have hled : Arrives e l.name (fun p ↦ l.fix < p ∧ p < l.turn) m (l.fix + 1) m.stack m.vars :=
      .here hplace
    have hcompare := ((hled.load (by omega) hcount hat.counter).load (by omega) hlimit
      hat.bound).compare (by omega) hcompare hw hk
    exact (hcompare.store (by omega) hresult htestName).load (by omega) htest
      (Bindings.get?_set_self _ _ _)
  constructor
  · intro m hcode hplace
    rw [← hcode] at hzero hkeep hstart hset
    have hled : Arrives e l.name (fun p ↦ l.entry ≤ p ∧ p < l.stop) m l.entry m.stack m.vars :=
      .here hplace
    have hkept := (hled.constant (by omega) hzero).store (by omega) hkeep hzeroName
    obtain ⟨z, hled, hz, -, hvars⟩ := (hkept.load (by omega) hstart
      (Bindings.get?_set_self _ _ _)).store (by omega) hset hne
    exact ⟨z, hled, hz.trans hstop.symm, by rw [hvars, Bindings.get?_set_self]; rfl⟩
  · intro m w k n hcode hplace hat hw hk
    have hbranched := hcompared m w k n hcode hplace hat hw (Nat.le_of_lt hk)
    rw [decide_eq_true hk] at hbranched
    rw [← hcode] at hbranch hagain
    have hcount : (m.vars.set test (.boolean true)).get? l.counter = some (.ofNat k) := by
      rw [Bindings.get?_set_of_ne _ htestCounter]
      exact hat.counter
    obtain ⟨z, hled, hz, hstack, hvars⟩ :=
      (hbranched.pass (by omega) hbranch).load (by omega) hagain hcount
    refine ⟨z, hled, hz.trans hturn.symm, ⟨hvars ▸ hcount, ?_⟩, by rw [hstack]; rfl⟩
    rw [hvars, Bindings.get?_set_of_ne _ htestBound]
    exact hat.bound
  · intro m w n hcode hplace hat hw
    have hbranched := hcompared m w _ n hcode hplace hat hw (Nat.le_refl _)
    rw [decide_eq_false (Nat.lt_irrefl _)] at hbranched
    rw [← hcode] at hbranch hsize
    obtain ⟨z, hled, hz, -, -⟩ := hbranched.branch (by omega) hbranch hsize
    exact ⟨z, hled, hz⟩
  · intro m w k n hcode hplace hat hw hk
    rw [← hcode] at hunit hone hlast hsecond hadd hsum hnew hstore hjump hsize
    have hled : Arrives e l.name (fun p ↦ l.next ≤ p ∧ p < l.exit) m l.next m.stack m.vars :=
      .here hplace
    have hfix := hplaced.fix_lt
    have hkept := (hled.constant (by omega) hunit).store (by omega) hone honeName
    have hadded := ((hkept.load (by omega) hlast
      ((Bindings.get?_set_of_ne _ honeCounter _).trans hat.counter)).load (by omega) hsecond
        (Bindings.get?_set_self _ _ _)).add (by omega) hadd hk
    have hsummed := (hadded.store (by omega) hsum hsumName).load (by omega) hnew
      (Bindings.get?_set_self _ _ _)
    obtain ⟨z, hled, hz, -, hvars⟩ :=
      (hsummed.store (by omega) hstore hne).jump (by omega) hjump (by omega)
    refine ⟨z, hled, hz, ?_, ?_⟩
    · rw [hvars, Bindings.get?_set_self]
    · rw [hvars, Bindings.get?_set_of_ne _ hplaced.counter_ne_bound,
        Bindings.get?_set_of_ne _ hsumBound, Bindings.get?_set_of_ne _ honeBound]
      exact hat.bound

/-- A counting loop that is laid out in a block leads as one. -/
theorem leads_formLoop {i : Bool}
    (h : LaidOut code placeOf place (ofStmt c (rangeLoop name stop body)).1)
    (hscoped : (rangeLoop name stop body).Scoped i Plain) (e : Executable) :
    (formLoop code place c name stop body).Leads e := by
  obtain ⟨bound, -, hparts, -⟩ := parts_formLoop h
  have hname : Plain name := hscoped.1
  obtain ⟨k, hk, hle⟩ := loopSetup_bound c (.number (.int 0)) stop
  have hle' : (loopSetup c (.number (.int 0)) stop).2.2 + 1 ≤ _ := (le_ofBlock body
    ⟨(loopSetup c (.number (.int 0)) stop).2.2 + 1, c.labels + 2, c.loops + 1⟩).temporaries
  have hslot : (formLoop code place c name stop body).bound = slotOfTemporary k :=
    congrArg Operand.slot hk
  have hneName (n : Nat) : slotOfTemporary n ≠ name :=
    ((HiddenBelow.temporary (Nat.le_refl n) : HiddenBelow n 0 _).ne_of_plain hname).symm
  have hneCounter (n : Nat) : slotOfTemporary n ≠ loopCounter (c.loops + 1) :=
    (loopCounter_ne_slotOfTemporary _ _).symm
  have hneBound (n : Nat) (hn : (loopSetup c (.number (.int 0)) stop).2.2 < n) :
      slotOfTemporary n ≠ (formLoop code place c name stop body).bound := by
    rw [hslot]
    exact (HiddenBelow.temporary hle : HiddenBelow _ 0 _).ne_temporary hn
  refine leads_of_parts hparts (placed_formLoop h hscoped) ?_ ?_ ?_ e
  · simp only [List.forall_mem_cons]
    exact ⟨hneName _, hneName _, hneName _, hneName _, nofun⟩
  · simp only [List.forall_mem_cons]
    exact ⟨hneCounter _, hneCounter _, nofun⟩
  · simp only [List.forall_mem_cons]
    exact ⟨hneBound _ (by omega), hneBound _ (by omega), hneBound _ (by omega), nofun⟩

end

end Offside.ThreeAddress
