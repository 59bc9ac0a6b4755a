import Offside.Proofs.Calls.Fitting
import Offside.Proofs.Code.Level
import Offside.Proofs.Realization.Program

/-!
The code of a program whose calls by name fit. Each call by name becomes one instruction with the
number of its arguments, whichever way the program is lowered, and a definition takes its parameters
into the executable. So an executable fits `T` as its program does (`fits_of_lower`).
-/

set_option autoImplicit false
set_option relaxedAutoImplicit false

namespace Offside

open List (forall_mem_append forall_mem_cons forall_mem_singleton)
open ThreeAddress (definitions definitionsOfStmt)

/-- An instruction that calls a name with the number of arguments that `T` gives for it, if it calls
any. -/
def Instr.Fits (T : String → Option Nat) : Instr → Prop
  | .callFunction name count => T name = some count
  | _ => True

/-- An executable whose code calls names with the number of arguments that `T` gives for them, and
whose functions and classes take as many. -/
structure Executable.Fits (T : String → Option Nat) (e : Executable) : Prop where
  main : ∀ i ∈ e.main, i.Fits T
  routines : ∀ r, e.Holds r → ∀ i ∈ r.body, i.Fits T
  functions : ∀ n r, e.functions.get? n = some r → T n = some r.params.length
  classes : ∀ n c, e.classes.get? n = some c → ∃ k, T n = some k ∧
    match c.methods.get? constructorName with
    | some r => r.params.length = k + 1
    | none => k = 0

section

variable {T : String → Option Nat} {K : String → Prop}

/-! ### Direct lowering -/

mutual

theorem fits_code : ∀ {e : Expr}, e.Fits T K → ∀ i ∈ e.code, i.Fits T
  | .number _, _ => forall_mem_singleton.mpr trivial
  | .boolean _, _ => forall_mem_singleton.mpr trivial
  | .variable _, _ => forall_mem_singleton.mpr trivial
  | .arith _ _ _, h =>
    forall_mem_append.mpr ⟨forall_mem_append.mpr ⟨fits_code h.1, fits_code h.2⟩,
      forall_mem_singleton.mpr trivial⟩
  | .compare _ _ _, h =>
    forall_mem_append.mpr ⟨forall_mem_append.mpr ⟨fits_code h.1, fits_code h.2⟩,
      forall_mem_singleton.mpr trivial⟩
  | .call _ _, h =>
    forall_mem_append.mpr ⟨fits_codeOfExprs h.2, forall_mem_singleton.mpr h.1.2⟩
  | .list items, h =>
    forall_mem_append.mpr
      ⟨fits_codeOfExprs (show ExprsFit T K items from h), forall_mem_singleton.mpr trivial⟩
  | .index _ position, h =>
    forall_mem_append.mpr ⟨forall_mem_cons.mpr
      ⟨trivial, fits_code (e := position) h⟩, forall_mem_singleton.mpr trivial⟩
  | .member _ _, _ =>
    forall_mem_cons.mpr ⟨trivial, forall_mem_singleton.mpr trivial⟩
  | .methodCall _ _ args, h =>
    forall_mem_append.mpr ⟨forall_mem_cons.mpr
      ⟨trivial, fits_codeOfExprs (show ExprsFit T K args from h)⟩, forall_mem_singleton.mpr trivial⟩

theorem fits_codeOfExprs : ∀ {es : List Expr}, ExprsFit T K es → ∀ i ∈ codeOfExprs es, i.Fits T
  | [], _ => fun _ hi ↦ absurd hi List.not_mem_nil
  | _ :: _, h => forall_mem_append.mpr ⟨fits_code h.1, fits_codeOfExprs h.2⟩

end

end

section

variable {T : String → Option Nat}

theorem fits_returnNone : ∀ i ∈ returnNone, i.Fits T :=
  forall_mem_cons.mpr ⟨trivial, forall_mem_singleton.mpr trivial⟩

mutual

/-- The code of a statement that fits does so; that of its definitions is not part of it. -/
theorem fits_codeOfStmt {K : String → Prop} :
    ∀ {st : Stmt} {start : Nat} {g : Gathered}, st.Fits T K → ∀ i ∈ (st.code start g).1, i.Fits T
  | .assign _ value, _, _, h =>
    forall_mem_append.mpr
      ⟨fits_code (e := value) h, forall_mem_singleton.mpr trivial⟩
  | .assignIndex _ _ _, _, _, h =>
    forall_mem_append.mpr ⟨forall_mem_append.mpr
      ⟨forall_mem_cons.mpr ⟨trivial, fits_code h.1⟩, fits_code h.2⟩,
      forall_mem_singleton.mpr trivial⟩
  | .assignAttribute _ _ value, _, _, h =>
    forall_mem_append.mpr ⟨forall_mem_cons.mpr
      ⟨trivial, fits_code (e := value) h⟩, forall_mem_singleton.mpr trivial⟩
  | .print value, _, _, h =>
    forall_mem_append.mpr
      ⟨fits_code (e := value) h, forall_mem_singleton.mpr trivial⟩
  | .expr value, _, _, h =>
    forall_mem_append.mpr
      ⟨fits_code (e := value) h, forall_mem_singleton.mpr trivial⟩
  | .ifElse _ _ [], _, _, h => by
    rw [code_ifThen]
    exact forall_mem_append.mpr
      ⟨fits_code h.1, forall_mem_cons.mpr ⟨trivial, fits_codeOfBlock h.2.1⟩⟩
  | .ifElse _ _ (_ :: _), _, _, h => by
    rw [code_ifElse]
    exact forall_mem_append.mpr ⟨forall_mem_append.mpr
      ⟨fits_code h.1, forall_mem_cons.mpr ⟨trivial, fits_codeOfBlock h.2.1⟩⟩,
      forall_mem_cons.mpr ⟨trivial, fits_codeOfBlock h.2.2⟩⟩
  | .whileLoop _ _, _, _, h => by
    rw [code_whileLoop]
    exact forall_mem_append.mpr ⟨forall_mem_append.mpr
      ⟨fits_code h.1, forall_mem_cons.mpr ⟨trivial, fits_codeOfBlock h.2⟩⟩,
      forall_mem_singleton.mpr trivial⟩
  | .forRange name first stop body, _, g, h => by
    rw [code_forRange]
    have hsetup : ∀ i ∈ forSetup (g.loops + 1) first stop, i.Fits T :=
      forall_mem_append.mpr ⟨forall_mem_append.mpr
        ⟨fits_code h.1, forall_mem_cons.mpr ⟨trivial, fits_code h.2.1⟩⟩,
        forall_mem_singleton.mpr trivial⟩
    have hhead (target : Nat) : ∀ i ∈ forHead (g.loops + 1) name target, i.Fits T := by
      simp [forHead, Instr.Fits]
    have hnext (top : Nat) : ∀ i ∈ forNext (g.loops + 1) top, i.Fits T := by
      simp [forNext, Instr.Fits]
    exact forall_mem_append.mpr ⟨forall_mem_append.mpr ⟨forall_mem_append.mpr
      ⟨hsetup, hhead _⟩, fits_codeOfBlock h.2.2⟩, hnext _⟩
  | .define _, _, _, _ => forall_mem_singleton.mpr trivial
  | .defineClass _, _, _, _ => forall_mem_singleton.mpr trivial
  | .return none, _, _, _ => fits_returnNone
  | .return (some value), _, _, h =>
    forall_mem_append.mpr
      ⟨fits_code (e := value) h, forall_mem_singleton.mpr trivial⟩
  | .pass, _, _, _ => fun _ hi ↦ absurd hi List.not_mem_nil

theorem fits_codeOfBlock {K : String → Prop} :
    ∀ {block : List Stmt} {start : Nat} {g : Gathered}, BlockFits T K block →
      ∀ i ∈ (codeOfBlock start g block).1, i.Fits T
  | [], _, _, _ => fun _ hi ↦ absurd hi List.not_mem_nil
  | _ :: _, _, _, h => by
    rw [codeOfBlock_cons]
    exact forall_mem_append.mpr ⟨fits_codeOfStmt h.1, fits_codeOfBlock h.2⟩

end

/-! ### Definitions -/

/-- What occurs in a block that fits does so. -/
theorem Occurs.fits_of {K : String → Prop} {s : Stmt} {block : Block} (h : Occurs s block)
    (hblock : BlockFits T K block) : ∃ K, s.Fits T K := by
  induction h generalizing K with
  | here ss => exact ⟨K, hblock.1⟩
  | later t ss h ih => exact ih hblock.2
  | ifBody condition body orelse ss h ih => exact ih hblock.1.2.1
  | orelse condition body orelse ss h ih => exact ih hblock.1.2.2
  | whileBody condition body ss h ih => exact ih hblock.1.2
  | forBody name start stop body ss h ih => exact ih hblock.1.2.2

/-- What a block that fits defines takes what `T` says, and fits itself. -/
theorem fits_of_mem_definitions {K : String → Prop} {block : Block} (h : BlockFits T K block) :
    (∀ r ∈ (definitions block).1, T r.name = some r.params.length ∧ ∃ K, RoutineFits T K r) ∧
      ∀ c ∈ (definitions block).2, T c.name = some c.constructorArity ∧ ∃ K, ClassFits T K c := by
  obtain ⟨hfunctions, hclasses⟩ := occurs_of_mem_definitions block
  constructor
  · intro r hr
    obtain ⟨K, harity, hfits⟩ := (hfunctions r hr).fits_of h
    exact ⟨harity, _, hfits⟩
  · intro c hc
    obtain ⟨K, harity, hfits⟩ := (hclasses c hc).fits_of h
    exact ⟨harity, _, hfits⟩

theorem CompiledFrom.params {r : Routine Block} {rc : Routine Code} (h : CompiledFrom r rc) :
    rc.params = r.params := by
  obtain ⟨-, g, rfl⟩ := h
  rw [codeOfRoutine_eq]

theorem CompiledFrom.fits {K : String → Prop} {r : Routine Block} {rc : Routine Code}
    (h : CompiledFrom r rc) (hr : RoutineFits T K r) : ∀ i ∈ rc.body, i.Fits T := by
  obtain ⟨-, g, rfl⟩ := h
  obtain ⟨name, params, body⟩ := r
  rw [codeOfRoutine_eq]
  intro i hi
  exact forall_mem_append.mpr ⟨fits_codeOfBlock hr.2, fits_returnNone⟩ i (List.mem_toArray.mp hi)

/-- The methods of a class fit in its code, and its constructor takes what the class does. -/
theorem ClassCompiledFrom.fits {K : String → Prop} {c : Class Block} {cc : ClassCode}
    (h : ClassCompiledFrom c cc) (hc : ClassFits T K c) :
    (∀ n rc, cc.methods.get? n = some rc → ∀ i ∈ rc.body, i.Fits T) ∧
      match cc.methods.get? constructorName with
      | some rc => rc.params.length = c.constructorArity + 1
      | none => c.constructorArity = 0 := by
  have harity := hc.constructorArity
  obtain ⟨name, methods⟩ := c
  refine ⟨fun n rc hn ↦ ?_, ?_⟩
  · have hmethod := h.methods n
    rw [hn] at hmethod
    cases hr : Class.method? ⟨name, methods⟩ n with
    | none =>
      rw [hr] at hmethod
      cases hmethod
    | some r =>
      rw [hr] at hmethod
      obtain ⟨hcompiled⟩ := hmethod
      exact hcompiled.fits (methodsFit_iff.mp hc r (List.mem_of_find?_eq_some hr)).2
  · have hmethod := h.methods constructorName
    generalize cc.methods.get? constructorName = found at hmethod ⊢
    generalize Class.method? ⟨name, methods⟩ constructorName = source at hmethod harity
    cases hmethod with
    | none => exact harity
    | some hcompiled => exact (congrArg List.length hcompiled.params).trans harity

/-- An executable that has gathered the definitions of a program that fits, fits if its main block
does. -/
theorem Gathers.fits {K : String → Prop} {program : Block} {g : Gathered}
    (h : Gathers (definitions program) (definitions program) .initial g)
    (hfits : BlockFits T K program) {main : List Instr} (hmain : ∀ i ∈ main, i.Fits T) :
    (g.executable main).Fits T := by
  obtain ⟨hfunctions, hclasses⟩ := fits_of_mem_definitions hfits
  have hfunction (n : String) (rc : Routine Code) (hn : g.functions.get? n = some rc) :
      ∃ r ∈ (definitions program).1, r.name = n ∧ CompiledFrom r rc :=
    h.functions.sound (fun _ _ hn ↦ by cases hn) n rc hn
  have hclass (n : String) (cc : ClassCode) (hn : g.classes.get? n = some cc) :
      ∃ c ∈ (definitions program).2, c.name = n ∧ ClassCompiledFrom c cc :=
    h.classes.sound (fun _ _ hn ↦ by cases hn) n cc hn
  refine ⟨fun i hi ↦ hmain i (List.mem_toArray.mp hi), fun rc hrc ↦ ?_, fun n rc hn ↦ ?_,
    fun n cc hn ↦ ?_⟩
  · cases hrc with
    | function n hn =>
      obtain ⟨r, hr, -, hcompiled⟩ := hfunction n rc hn
      obtain ⟨-, K', hfits⟩ := hfunctions r hr
      exact hcompiled.fits hfits
    | method n cc methodName hn hmethod =>
      obtain ⟨c, hc, -, hcompiled⟩ := hclass n cc hn
      obtain ⟨-, K', hfits⟩ := hclasses c hc
      exact (hcompiled.fits hfits).1 methodName rc hmethod
  · obtain ⟨r, hr, rfl, hcompiled⟩ := hfunction n rc hn
    rw [hcompiled.params]
    exact (hfunctions r hr).1
  · obtain ⟨c, hc, rfl, hcompiled⟩ := hclass n cc hn
    obtain ⟨harity, K', hfits⟩ := hclasses c hc
    exact ⟨c.constructorArity, harity, (hcompiled.fits hfits).2⟩

end

/-! ### Three-address form -/

namespace ThreeAddress

/-- An operation that calls a name with the number of arguments that `T` gives for it, if it calls
any. -/
def Op.Fits (T : String → Option Nat) : Op → Prop
  | .call name args _ => T name = some args.length
  | _ => True

section

variable {T : String → Option Nat}

/-- The instructions of an operation that fits do so. -/
theorem Op.Fits.code {place : Nat → Nat} {op : Op} (h : op.Fits T) :
    ∀ i ∈ op.code place, i.Fits T := by
  have hloads (operands : List Operand) : ∀ i ∈ operands.map Operand.load, i.Fits T := by
    rintro i hi
    obtain ⟨a, -, rfl⟩ := List.mem_map.mp hi
    trivial
  cases op with
  | call name args result =>
    exact forall_mem_append.mpr ⟨hloads args,
      forall_mem_cons.mpr ⟨h, forall_mem_singleton.mpr trivial⟩⟩
  | buildList items result =>
    exact forall_mem_append.mpr ⟨hloads items,
      forall_mem_cons.mpr ⟨trivial, forall_mem_singleton.mpr trivial⟩⟩
  | callMethod object method args result =>
    exact forall_mem_append.mpr ⟨forall_mem_cons.mpr ⟨trivial, hloads args⟩,
      forall_mem_cons.mpr ⟨trivial, forall_mem_singleton.mpr trivial⟩⟩
  | returnValue value =>
    cases value with
    | none => exact fits_returnNone
    | some a => exact forall_mem_cons.mpr ⟨trivial, forall_mem_singleton.mpr trivial⟩
  | _ => simp [Op.code, Instr.Fits, Operand.load, storeResult]

mutual

theorem fits_ofExpr {K : String → Prop} :
    ∀ {e : Expr} {n : Nat}, e.Fits T K → ∀ op ∈ (ofExpr n e).1, op.Fits T
  | .number _, _, _ => forall_mem_singleton.mpr trivial
  | .boolean _, _, _ => forall_mem_singleton.mpr trivial
  | .variable _, _, _ => fun _ hop ↦ absurd hop List.not_mem_nil
  | .arith _ _ _, _, h => by
    rw [ofExpr_arith]
    exact forall_mem_append.mpr ⟨forall_mem_append.mpr
      ⟨fits_ofExpr h.1, fits_ofExpr h.2⟩, forall_mem_singleton.mpr trivial⟩
  | .compare _ _ _, _, h => by
    rw [ofExpr_compare]
    exact forall_mem_append.mpr ⟨forall_mem_append.mpr
      ⟨fits_ofExpr h.1, fits_ofExpr h.2⟩, forall_mem_singleton.mpr trivial⟩
  | .call _ args, n, h => by
    rw [ofExpr_call]
    refine forall_mem_append.mpr ⟨fits_ofExprs h.2, forall_mem_singleton.mpr ?_⟩
    exact h.1.2.trans (congrArg some (length_ofExprs args n).symm)
  | .list items, _, h => by
    rw [ofExpr_list]
    exact forall_mem_append.mpr
      ⟨fits_ofExprs (show ExprsFit T K items from h), forall_mem_singleton.mpr trivial⟩
  | .index _ position, _, h => by
    rw [ofExpr_index]
    exact forall_mem_append.mpr
      ⟨fits_ofExpr (e := position) h, forall_mem_singleton.mpr trivial⟩
  | .member _ _, _, _ => forall_mem_singleton.mpr trivial
  | .methodCall _ _ args, _, h => by
    rw [ofExpr_methodCall]
    exact forall_mem_append.mpr
      ⟨fits_ofExprs (show ExprsFit T K args from h), forall_mem_singleton.mpr trivial⟩

theorem fits_ofExprs {K : String → Prop} :
    ∀ {es : List Expr} {n : Nat}, ExprsFit T K es → ∀ op ∈ (ofExprs n es).1, op.Fits T
  | [], _, _ => fun _ hop ↦ absurd hop List.not_mem_nil
  | _ :: _, _, h => by
    rw [ofExprs_cons]
    exact forall_mem_append.mpr ⟨fits_ofExpr h.1, fits_ofExprs h.2⟩

end

theorem fits_loopSetup {K : String → Prop} {c : Counters} {start stop : Expr}
    (hstart : start.Fits T K) (hstop : stop.Fits T K) :
    ∀ op ∈ (loopSetup c start stop).1, op.Fits T := by
  have hfixed (n : Nat) (a : Operand) : ∀ op ∈ (fixed n a).1, op.Fits T := by
    cases a with
    | temporary number => exact fun _ hop ↦ absurd hop List.not_mem_nil
    | «variable» name => exact forall_mem_singleton.mpr trivial
  exact forall_mem_append.mpr ⟨forall_mem_append.mpr ⟨fits_ofExpr hstart,
    forall_mem_cons.mpr ⟨trivial, fits_ofExpr hstop⟩⟩, hfixed _ _⟩

mutual

/-- The operations of a statement that fits do so. -/
theorem fits_ofStmt {K : String → Prop} :
    ∀ {st : Stmt} {c : Counters}, st.Fits T K → ∀ op ∈ (ofStmt c st).1, op.Fits T
  | .assign _ value, _, h => by
    rw [ofStmt_assign]
    exact forall_mem_append.mpr
      ⟨fits_ofExpr (e := value) h, forall_mem_singleton.mpr trivial⟩
  | .assignIndex _ _ _, _, h => by
    rw [ofStmt_assignIndex]
    exact forall_mem_append.mpr ⟨forall_mem_append.mpr
      ⟨fits_ofExpr h.1, fits_ofExpr h.2⟩, forall_mem_singleton.mpr trivial⟩
  | .assignAttribute _ _ value, _, h => by
    rw [ofStmt_assignAttribute]
    exact forall_mem_append.mpr
      ⟨fits_ofExpr (e := value) h, forall_mem_singleton.mpr trivial⟩
  | .print value, _, h => by
    rw [ofStmt_print]
    exact forall_mem_append.mpr
      ⟨fits_ofExpr (e := value) h, forall_mem_singleton.mpr trivial⟩
  | .expr value, _, h => by
    rw [ofStmt_expr]
    exact fits_ofExpr (e := value) h
  | .ifElse _ _ _, _, h => by
    rw [ofStmt_ifElse]
    exact forall_mem_append.mpr ⟨forall_mem_append.mpr ⟨forall_mem_append.mpr
      ⟨fits_ofExpr h.1, forall_mem_cons.mpr ⟨trivial, fits_ofBlock h.2.1⟩⟩,
      forall_mem_cons.mpr ⟨trivial, forall_mem_cons.mpr
        ⟨trivial, fits_ofBlock h.2.2⟩⟩⟩, forall_mem_singleton.mpr trivial⟩
  | .whileLoop _ _, _, h => by
    rw [ofStmt_whileLoop]
    exact forall_mem_append.mpr ⟨forall_mem_append.mpr
      ⟨forall_mem_cons.mpr ⟨trivial, fits_ofExpr h.1⟩,
        forall_mem_cons.mpr ⟨trivial, fits_ofBlock h.2⟩⟩,
      forall_mem_cons.mpr ⟨trivial, forall_mem_singleton.mpr trivial⟩⟩
  | .forRange name start stop body, c, h => by
    rw [ofStmt_forRange]
    have hhead (bound : Operand) (test : Nat) : ∀ op ∈ loopHead c name bound test, op.Fits T := by
      simp [loopHead, Op.Fits]
    have hnext (n : Nat) : ∀ op ∈ loopNext c n, op.Fits T := by
      simp [loopNext, Op.Fits]
    exact forall_mem_append.mpr ⟨forall_mem_append.mpr ⟨forall_mem_append.mpr
      ⟨fits_loopSetup h.1 h.2.1, hhead _ _⟩, fits_ofBlock h.2.2⟩, hnext _⟩
  | .define _, _, _ => forall_mem_singleton.mpr trivial
  | .defineClass _, _, _ => forall_mem_singleton.mpr trivial
  | .return none, _, _ => forall_mem_singleton.mpr trivial
  | .return (some value), _, h => by
    rw [ofStmt_return]
    exact forall_mem_append.mpr
      ⟨fits_ofExpr (e := value) h, forall_mem_singleton.mpr trivial⟩
  | .pass, _, _ => fun _ hop ↦ absurd hop List.not_mem_nil

theorem fits_ofBlock {K : String → Prop} :
    ∀ {block : List Stmt} {c : Counters}, BlockFits T K block → ∀ op ∈ (ofBlock c block).1,
      op.Fits T
  | [], _, _ => fun _ hop ↦ absurd hop List.not_mem_nil
  | _ :: _, _, h => by
    rw [ofBlock_cons]
    exact forall_mem_append.mpr ⟨fits_ofStmt h.1, fits_ofBlock h.2⟩

end

end

end ThreeAddress

/-! ### Executables -/

/-- A well-formed program that fits is lowered to an executable that does. -/
theorem fits_of_lower {T : String → Option Nat} {K : String → Prop} {lowering : Lowering}
    {program : Block} {e : Executable} (hwell : WellFormed program) (h : BlockFits T K program)
    (he : lower lowering program = .ok e) : e.Fits T := by
  cases lowering with
  | direct =>
    cases he
    exact (gathers_lowerDirect hwell).fits h (fits_codeOfBlock h)
  | threeAddress =>
    replace he : (ThreeAddress.ofProgram program).executable = .ok e := he
    rw [executable_ofProgram] at he
    cases he
    refine (gathers_ofProgram hwell).fits h fun i hi ↦ ?_
    obtain ⟨op, hop, hi⟩ := List.mem_flatMap.mp hi
    exact (ThreeAddress.fits_ofBlock h op hop).code i hi

end Offside
