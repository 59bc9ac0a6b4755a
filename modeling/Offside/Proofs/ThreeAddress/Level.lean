import Offside.Proofs.Code.Level
import Offside.Proofs.ThreeAddress.Labels

/-!
Assembling gives level code. The instructions of an operation take what they load, and a label
stands for a place between operations, whichever they are. What the operations of a program define
is among its definitions, so executables are balanced that have been lowered in this way, too.
-/

set_option autoImplicit false
set_option relaxedAutoImplicit false

namespace Offside.ThreeAddress

/-! ### Heights -/

theorem climbs_loads (operands : List Operand) (h : Nat) :
    Climbs h (operands.map Operand.load) (h + operands.length) := by
  induction operands generalizing h with
  | nil => rfl
  | cons a operands ih =>
    rw [List.length_cons, Nat.add_comm operands.length, ← Nat.add_assoc]
    exact (climbs_instr (i := a.load) rfl (Nat.zero_le h) rfl).append (ih (h + 1))

/-- The instruction that computes from some loaded operands, with the store of its result. -/
theorem climbs_stored {xs : List Instr} {i : Instr} {h : Nat} (hxs : Climbs 0 xs h)
    (hleaves : i.leaves = false) (hpops : i.pops = h) (hpushes : i.pushes = 1) (result : Nat) :
    Climbs 0 (xs ++ [i, storeResult result]) 0 := by
  have hcomputed : Climbs 0 (xs ++ [i]) 1 :=
    climbs_append_instr hxs hleaves (Nat.le_of_eq hpops) (by omega)
  have hstored := climbs_append_instr (i := storeResult result) hcomputed rfl (Nat.le_refl 1) rfl
  rwa [List.append_assoc] at hstored

/-- An operation leaves nothing on the stack. -/
theorem climbs_op (place : Nat → Nat) (op : Op) : Climbs 0 (op.code place) 0 := by
  cases op with
  | buildList items result =>
    exact climbs_stored (climbs_loads items 0) rfl (Nat.zero_add _).symm rfl result
  | call name args result =>
    exact climbs_stored (climbs_loads args 0) rfl (Nat.zero_add _).symm rfl result
  | callMethod object method args result =>
    exact climbs_stored (climbs_cons_load object (climbs_loads args 1)) rfl (Nat.add_comm _ _) rfl
      result
  | returnValue value =>
    cases value <;> simp [Op.code, returnNone, Climbs, Instr.leaves, Instr.pops, Instr.pushes,
      Operand.load]
  | _ =>
    simp [Op.code, Climbs, Instr.leaves, Instr.pops, Instr.pushes, Operand.load, storeResult]

theorem climbs_ops (place : Nat → Nat) (ops : List Op) :
    Climbs 0 (ops.flatMap (Op.code place)) 0 := by
  induction ops with
  | nil => rfl
  | cons op ops ih =>
    rw [List.flatMap_cons]
    exact (climbs_op place op).append ih

/-! ### Jumps and definitions -/

theorem computes_loads (operands : List Operand) :
    ∀ i ∈ operands.map Operand.load, i.computes = true := by
  intro i hi
  obtain ⟨a, -, rfl⟩ := List.mem_map.mp hi
  rfl

/-- An instruction of an operation computes or returns, jumps where the operation does, or defines
what the operation does. -/
theorem mem_op {place : Nat → Nat} {op : Op} {i : Instr} (hi : i ∈ op.code place) :
    (i.computes = true ∨ i = .returnValue) ∨
      (∃ l, i.target? = some (place l)) ∨
      (∃ name, i = .defineFunction name ∧ op = .defineFunction name) ∨
      ∃ name, i = .defineClass name ∧ op = .defineClass name := by
  have hcomputes (hall : ∀ j ∈ op.code place, j.computes = true) := hall i hi
  cases op with
  | label number => cases hi
  | jump target =>
    rw [List.mem_singleton.mp hi]
    exact .inr (.inl ⟨target, rfl⟩)
  | jumpIfFalse condition target =>
    rcases List.mem_cons.mp hi with rfl | hi
    · exact .inl (.inl rfl)
    · rw [List.mem_singleton.mp hi]
      exact .inr (.inl ⟨target, rfl⟩)
  | defineFunction name =>
    rw [List.mem_singleton.mp hi]
    exact .inr (.inr (.inl ⟨name, rfl, rfl⟩))
  | defineClass name =>
    rw [List.mem_singleton.mp hi]
    exact .inr (.inr (.inr ⟨name, rfl, rfl⟩))
  | returnValue value =>
    cases value <;> rcases List.mem_cons.mp hi with rfl | hi
    · exact .inl (.inl rfl)
    · exact .inl (.inr (List.mem_singleton.mp hi))
    · exact .inl (.inl rfl)
    · exact .inl (.inr (List.mem_singleton.mp hi))
  | buildList items result =>
    exact .inl (.inl (hcomputes (computes_append (computes_loads items)
      (List.forall_mem_cons.mpr ⟨rfl, computes_singleton rfl⟩))))
  | call name args result =>
    exact .inl (.inl (hcomputes (computes_append (computes_loads args)
      (List.forall_mem_cons.mpr ⟨rfl, computes_singleton rfl⟩))))
  | callMethod object method args result =>
    exact .inl (.inl (hcomputes (computes_append
      (List.forall_mem_cons.mpr ⟨rfl, computes_loads args⟩)
      (List.forall_mem_cons.mpr ⟨rfl, computes_singleton rfl⟩))))
  | _ =>
    refine .inl (.inl (hcomputes fun j hj ↦ ?_))
    simp only [Op.code, List.mem_cons, List.not_mem_nil, or_false] at hj
    rcases hj with rfl | rfl | rfl | rfl | rfl <;> rfl

/-! ### Assembled operations -/

/-- A label stands for a place between operations. -/
theorem lands_placeOf (ops : List Op) (l : Nat) :
    Lands 0 (ops.flatMap (Op.code (placeOf ops))) (placeOf ops l) := by
  have hsplit := List.takeWhile_append_dropWhile (p := fun op ↦ op.defines? ≠ some l) (l := ops)
  refine ⟨_, (ops.dropWhile fun op ↦ op.defines? ≠ some l).flatMap (Op.code (placeOf ops)), ?_, ?_,
    climbs_ops (placeOf ops) (ops.takeWhile fun op ↦ op.defines? ≠ some l)⟩
  · rw [← List.flatMap_append, hsplit]
  · rw [length_flatMap_code, Nat.zero_add]
    rfl

theorem level_ops (ops : List Op) : Level 0 NoExit (ops.flatMap (Op.code (placeOf ops))) := by
  refine ⟨climbs_ops _ ops, fun i hi target htarget ↦ .inr ?_⟩
  obtain ⟨op, -, hi⟩ := List.mem_flatMap.mp hi
  rcases mem_op hi with (hcomputes | rfl) | ⟨l, hl⟩ | ⟨name, rfl, -⟩ | ⟨name, rfl, -⟩
  · rw [Instr.computes_target? hcomputes] at htarget
    cases htarget
  · cases htarget
  · rw [htarget] at hl
    exact Option.some.inj hl ▸ lands_placeOf ops l
  · cases htarget
  · cases htarget

/-- What an operation defines is among the given definitions. -/
def Op.DefinedIn (d : List (Routine Block) × List (Class Block)) : Op → Prop
  | .defineFunction name => ∃ r ∈ d.1, r.name = name
  | .defineClass name => ∃ c ∈ d.2, c.name = name
  | _ => True

section

variable {d d' : List (Routine Block) × List (Class Block)} {ops more : List Op}

theorem Op.DefinedIn.mono {op : Op} (h : op.DefinedIn d) (hfunctions : ∀ r ∈ d.1, r ∈ d'.1)
    (hclasses : ∀ c ∈ d.2, c ∈ d'.2) : op.DefinedIn d' := by
  cases op with
  | defineFunction name =>
    obtain ⟨r, hr, hname⟩ := h
    exact ⟨r, hfunctions r hr, hname⟩
  | defineClass name =>
    obtain ⟨c, hc, hname⟩ := h
    exact ⟨c, hclasses c hc, hname⟩
  | _ => exact trivial

/-- All that operations define is among the given definitions. -/
def DefinedIn (d : List (Routine Block) × List (Class Block)) (ops : List Op) : Prop :=
  ∀ op ∈ ops, op.DefinedIn d

theorem definedIn_nil : DefinedIn d [] :=
  fun _ hop ↦ absurd hop List.not_mem_nil

theorem definedIn_singleton {op : Op} (h : op.DefinedIn d) : DefinedIn d [op] :=
  fun _ hop ↦ List.mem_singleton.mp hop ▸ h

theorem DefinedIn.append (h : DefinedIn d ops) (hmore : DefinedIn d more) :
    DefinedIn d (ops ++ more) :=
  fun op hop ↦ (List.mem_append.mp hop).elim (h op) (hmore op)

theorem DefinedIn.cons (op : Op) (hop : op.DefinedIn d) (h : DefinedIn d ops) :
    DefinedIn d (op :: ops) :=
  (definedIn_singleton hop).append h

theorem DefinedIn.left (h : DefinedIn d ops) : DefinedIn (d.1 ++ d'.1, d.2 ++ d'.2) ops :=
  fun op hop ↦ (h op hop).mono (fun _ hr ↦ List.mem_append_left _ hr)
    fun _ hc ↦ List.mem_append_left _ hc

theorem DefinedIn.right (h : DefinedIn d' ops) : DefinedIn (d.1 ++ d'.1, d.2 ++ d'.2) ops :=
  fun op hop ↦ (h op hop).mono (fun _ hr ↦ List.mem_append_right _ hr)
    fun _ hc ↦ List.mem_append_right _ hc

mutual

/-- An expression defines nothing. -/
theorem definedIn_ofExpr : ∀ (e : Expr) (n : Nat), DefinedIn d (ofExpr n e).1
  | .number _, _ => definedIn_singleton trivial
  | .boolean _, _ => definedIn_singleton trivial
  | .variable _, _ => definedIn_nil
  | .arith _ left right, n => by
    rw [ofExpr_arith]
    exact ((definedIn_ofExpr left n).append (definedIn_ofExpr right _)).append
      (definedIn_singleton trivial)
  | .compare _ left right, n => by
    rw [ofExpr_compare]
    exact ((definedIn_ofExpr left n).append (definedIn_ofExpr right _)).append
      (definedIn_singleton trivial)
  | .call _ args, n => by
    rw [ofExpr_call]
    exact (definedIn_ofExprs args n).append (definedIn_singleton trivial)
  | .list items, n => by
    rw [ofExpr_list]
    exact (definedIn_ofExprs items n).append (definedIn_singleton trivial)
  | .index _ position, n => by
    rw [ofExpr_index]
    exact (definedIn_ofExpr position n).append (definedIn_singleton trivial)
  | .member _ _, _ => definedIn_singleton trivial
  | .methodCall _ _ args, n => by
    rw [ofExpr_methodCall]
    exact (definedIn_ofExprs args n).append (definedIn_singleton trivial)

theorem definedIn_ofExprs : ∀ (es : List Expr) (n : Nat), DefinedIn d (ofExprs n es).1
  | [], _ => definedIn_nil
  | e :: es, n => by
    rw [ofExprs_cons]
    exact (definedIn_ofExpr e n).append (definedIn_ofExprs es _)

end

theorem definedIn_fixed (n : Nat) (a : Operand) : DefinedIn d (fixed n a).1 := by
  cases a with
  | temporary number => exact definedIn_nil
  | «variable» name => exact definedIn_singleton trivial

theorem definedIn_loopSetup (c : Counters) (start stop : Expr) :
    DefinedIn d (loopSetup c start stop).1 :=
  ((definedIn_ofExpr start _).append
    (.cons (.assign _ _) trivial (definedIn_ofExpr stop _))).append (definedIn_fixed _ _)

theorem definedIn_loopHead (c : Counters) (name : String) (bound : Operand) (test : Nat) :
    DefinedIn d (loopHead c name bound test) :=
  .cons _ trivial (.cons _ trivial (.cons _ trivial (definedIn_singleton trivial)))

theorem definedIn_loopNext (c : Counters) (n : Nat) : DefinedIn d (loopNext c n) :=
  .cons _ trivial (.cons _ trivial (.cons _ trivial (.cons _ trivial
    (definedIn_singleton trivial))))

theorem definedIn_ifElse {test first second : List Op} {a : Operand} {elseLabel endLabel : Nat}
    (htest : DefinedIn d test) (hfirst : DefinedIn d first) (hsecond : DefinedIn d second) :
    DefinedIn d (test ++ .jumpIfFalse a elseLabel :: first ++
      .jump endLabel :: .label elseLabel :: second ++ [.label endLabel]) :=
  ((htest.append (.cons (.jumpIfFalse a elseLabel) trivial hfirst)).append
    (.cons (.jump endLabel) trivial
      (.cons (.label elseLabel) trivial hsecond))).append (definedIn_singleton trivial)

theorem definedIn_whileLoop {test body : List Op} {a : Operand} {startLabel endLabel : Nat}
    (htest : DefinedIn d test) (hbody : DefinedIn d body) :
    DefinedIn d (.label startLabel :: test ++ .jumpIfFalse a endLabel :: body ++
      [.jump startLabel, .label endLabel]) :=
  ((DefinedIn.cons (.label startLabel) trivial htest).append
    (.cons (.jumpIfFalse a endLabel) trivial hbody)).append
      (.cons (.jump startLabel) trivial (definedIn_singleton trivial))

mutual

/-- A statement defines what is among its definitions. -/
theorem definedIn_ofStmt : ∀ (s : Stmt) (c : Counters),
    DefinedIn (definitionsOfStmt s) (ofStmt c s).1
  | .assign _ value, c => by
    rw [ofStmt_assign]
    exact (definedIn_ofExpr value _).append (definedIn_singleton trivial)
  | .assignIndex _ position value, c => by
    rw [ofStmt_assignIndex]
    exact ((definedIn_ofExpr position _).append (definedIn_ofExpr value _)).append
      (definedIn_singleton trivial)
  | .assignAttribute _ _ value, c => by
    rw [ofStmt_assignAttribute]
    exact (definedIn_ofExpr value _).append (definedIn_singleton trivial)
  | .print value, c => by
    rw [ofStmt_print]
    exact (definedIn_ofExpr value _).append (definedIn_singleton trivial)
  | .expr value, c => by
    rw [ofStmt_expr]
    exact definedIn_ofExpr value _
  | .ifElse condition body orelse, c => by
    rw [ofStmt_ifElse]
    have hbody : DefinedIn (definitions body) (ofBlock _ body).1 := definedIn_ofBlock body
      { c with temporaries := (ofExpr c.temporaries condition).2.2, labels := c.labels + 2 }
    exact definedIn_ifElse (definedIn_ofExpr condition _) hbody.left
      (definedIn_ofBlock orelse _).right
  | .whileLoop condition body, c => by
    rw [ofStmt_whileLoop]
    have hbody : DefinedIn (definitions body) (ofBlock _ body).1 := definedIn_ofBlock body
      { c with temporaries := (ofExpr c.temporaries condition).2.2, labels := c.labels + 2 }
    exact definedIn_whileLoop (definedIn_ofExpr condition _) hbody
  | .forRange name start stop body, c => by
    rw [ofStmt_forRange]
    have hbody : DefinedIn (definitions body) (ofBlock _ body).1 := definedIn_ofBlock body
      ⟨(loopSetup c start stop).2.2 + 1, c.labels + 2, c.loops + 1⟩
    exact (((definedIn_loopSetup c start stop).append (definedIn_loopHead c name _ _)).append
      hbody).append (definedIn_loopNext c _)
  | .define routine, _ => definedIn_singleton ⟨routine, List.mem_singleton.mpr rfl, rfl⟩
  | .defineClass definition, _ => definedIn_singleton ⟨definition, List.mem_singleton.mpr rfl, rfl⟩
  | .return none, _ => definedIn_singleton trivial
  | .return (some value), c => by
    rw [ofStmt_return]
    exact (definedIn_ofExpr value _).append (definedIn_singleton trivial)
  | .pass, _ => definedIn_nil

theorem definedIn_ofBlock : ∀ (block : List Stmt) (c : Counters),
    DefinedIn (definitions block) (ofBlock c block).1
  | [], _ => definedIn_nil
  | s :: ss, c => by
    rw [ofBlock_cons]
    exact (definedIn_ofStmt s c).left.append (definedIn_ofBlock ss _).right

end

end

/-! ### Executables -/

/-- Adding functions keeps what has been gathered complete, and gathers all of them. -/
theorem gathered_addFunctions (rs : List (Routine Block)) (g : Gathered) :
    g.Le (rs.foldl Gathered.addFunction g) ∧
      (g.Complete → (rs.foldl Gathered.addFunction g).Complete) ∧
      ∀ r ∈ rs, (rs.foldl Gathered.addFunction g).functions.has r.name = true := by
  induction rs generalizing g with
  | nil => exact ⟨.refl g, id, fun _ hr ↦ absurd hr List.not_mem_nil⟩
  | cons r rs ih =>
    have hfirst := emits_code (.define r) 0 g
    obtain ⟨hle, hcomplete, hall⟩ := ih (g.addFunction r)
    refine ⟨hfirst.le.trans hle, fun h ↦ hcomplete (hfirst.complete h), fun r' hr' ↦ ?_⟩
    rcases List.mem_cons.mp hr' with rfl | hr'
    · refine hle.functions r'.name (hfirst.resolves (.defineFunction r'.name) ?_)
      rw [Stmt.code]
      exact List.mem_singleton_self _
    · exact hall r' hr'

/-- Adding classes keeps what has been gathered complete, and gathers all of them. -/
theorem gathered_addClasses (cs : List (Class Block)) (g : Gathered) :
    g.Le (cs.foldl Gathered.addClass g) ∧
      (g.Complete → (cs.foldl Gathered.addClass g).Complete) ∧
      ∀ c ∈ cs, (cs.foldl Gathered.addClass g).classes.has c.name = true := by
  induction cs generalizing g with
  | nil => exact ⟨.refl g, id, fun _ hc ↦ absurd hc List.not_mem_nil⟩
  | cons c cs ih =>
    have hfirst := emits_code (.defineClass c) 0 g
    obtain ⟨hle, hcomplete, hall⟩ := ih (g.addClass c)
    refine ⟨hfirst.le.trans hle, fun h ↦ hcomplete (hfirst.complete h), fun c' hc' ↦ ?_⟩
    rcases List.mem_cons.mp hc' with rfl | hc'
    · refine hle.classes c'.name (hfirst.resolves (.defineClass c'.name) ?_)
      rw [Stmt.code]
      exact List.mem_singleton_self _
    · exact hall c' hc'

/-- The executable of the three-address form of a program is balanced. -/
theorem balanced_ofProgram (program : Block) {e : Executable}
    (he : (ofProgram program).executable = .ok e) : e.Balanced := by
  have hassemble := (labelled_ofBlock program ⟨0, 0, 0⟩).assemble
  obtain ⟨hle₁, hcomplete₁, hfunctions⟩ := gathered_addFunctions (definitions program).1 .initial
  obtain ⟨hle₂, hcomplete₂, hclasses⟩ := gathered_addClasses (definitions program).2
    ((definitions program).1.foldl Gathered.addFunction .initial)
  replace he : (do
      let main ← assemble (ofBlock ⟨0, 0, 0⟩ program).1
      Except.ok (Gathered.executable ((definitions program).2.foldl Gathered.addClass
        ((definitions program).1.foldl Gathered.addFunction .initial)) main)) = .ok e := he
  rw [hassemble] at he
  cases he
  refine (hcomplete₂ (hcomplete₁ Gathered.complete_initial)).balanced (level_ops _) fun i hi ↦ ?_
  obtain ⟨op, hop, hi⟩ := List.mem_flatMap.mp hi
  have hdefined := definedIn_ofBlock program ⟨0, 0, 0⟩ op hop
  rcases mem_op hi with (hcomputes | rfl) | ⟨l, hl⟩ | ⟨name, rfl, rfl⟩ | ⟨name, rfl, rfl⟩
  · exact Executable.resolves_of_computes _ hcomputes
  · exact trivial
  · cases i <;> first | exact trivial | cases hl
  · obtain ⟨r, hr, rfl⟩ := hdefined
    exact hle₂.functions r.name (hfunctions r hr)
  · obtain ⟨c, hc, rfl⟩ := hdefined
    exact hclasses c hc

end Offside.ThreeAddress
