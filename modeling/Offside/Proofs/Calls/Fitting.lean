import Offside.Proofs.Scope.Simplify
import Offside.Scope

/-!
Trees whose calls by name fit. `Stmt.Fits T K` says that a statement calls a name with the number of
arguments that `T` gives for it, that it defines functions and classes as `T` has them, and that it
calls no name but those of `K` and those that are defined before. It says nothing about variables,
nor about calls of methods.
-/

set_option autoImplicit false
set_option relaxedAutoImplicit false

namespace Offside

open ThreeAddress (definitions definitionsOfStmt)

/-- The names of `K`, and those that are defined. -/
def Knowing (K : String → Prop) (d : List (Routine Block) × List (Class Block)) (n : String) :
    Prop :=
  K n ∨ (∃ r ∈ d.1, r.name = n) ∨ ∃ c ∈ d.2, c.name = n

/-- Built-in functions take as many arguments as `T` says. -/
def BuiltinsFit (T : String → Option Nat) : Prop :=
  ∀ n b, Builtin.ofName? n = some b → T n = some b.arity

section

variable (T : String → Option Nat)

mutual

/-- An expression whose calls by name fit. -/
def Expr.Fits (K : String → Prop) : Expr → Prop
  | .number _ => True
  | .boolean _ => True
  | .variable _ => True
  | .arith _ left right => left.Fits K ∧ right.Fits K
  | .compare _ left right => left.Fits K ∧ right.Fits K
  | .call name args => (K name ∧ T name = some args.length) ∧ ExprsFit K args
  | .list items => ExprsFit K items
  | .index _ position => position.Fits K
  | .member _ _ => True
  | .methodCall _ _ args => ExprsFit K args

def ExprsFit (K : String → Prop) : List Expr → Prop
  | [] => True
  | e :: es => e.Fits K ∧ ExprsFit K es

end

mutual

/-- A statement whose calls by name fit, and whose definitions are those of `T`. -/
def Stmt.Fits (K : String → Prop) : Stmt → Prop
  | .assign _ value => value.Fits T K
  | .assignIndex _ position value => position.Fits T K ∧ value.Fits T K
  | .assignAttribute _ _ value => value.Fits T K
  | .print value => value.Fits T K
  | .ifElse condition body orelse =>
    condition.Fits T K ∧ BlockFits K body ∧
      BlockFits (Knowing K (definitions body)) orelse
  | .whileLoop condition body => condition.Fits T K ∧ BlockFits K body
  | .forRange _ start stop body => start.Fits T K ∧ stop.Fits T K ∧ BlockFits K body
  | .define routine =>
    T routine.name = some routine.params.length ∧
      RoutineFits (Knowing K (definitionsOfStmt (.define routine))) routine
  | .defineClass definition =>
    T definition.name = some definition.constructorArity ∧
      ClassFits (Knowing K (definitionsOfStmt (.defineClass definition))) definition
  | .return none => True
  | .return (some value) => value.Fits T K
  | .expr value => value.Fits T K
  | .pass => True

def BlockFits (K : String → Prop) : List Stmt → Prop
  | [] => True
  | s :: ss => s.Fits K ∧ BlockFits (Knowing K (definitionsOfStmt s)) ss

/-- A routine whose body fits, and which defines nothing. -/
def RoutineFits (K : String → Prop) : Routine (List Stmt) → Prop
  | ⟨_, _, body⟩ => definitions body = ([], []) ∧ BlockFits K body

/-- Methods that fit, each of which has a parameter for the receiver. -/
def MethodsFit (K : String → Prop) : List (Routine (List Stmt)) → Prop
  | [] => True
  | m :: ms => (m.params ≠ [] ∧ RoutineFits K m) ∧ MethodsFit K ms

def ClassFits (K : String → Prop) : Class (List Stmt) → Prop
  | ⟨_, methods⟩ => MethodsFit K methods

end

end

/-! ### More names -/

section

variable {T : String → Option Nat} {K L : String → Prop}

theorem Knowing.mono {d : List (Routine Block) × List (Class Block)} (h : ∀ n, K n → L n)
    (n : String) : Knowing K d n → Knowing L d n :=
  Or.imp_left (h n)

@[simp]
theorem knowing_nil (n : String) : Knowing K ([], []) n ↔ K n := by
  simp [Knowing]

theorem methodsFit_iff {ms : List (Routine Block)} :
    MethodsFit T K ms ↔ ∀ m ∈ ms, m.params ≠ [] ∧ RoutineFits T K m := by
  induction ms with
  | nil => simp [MethodsFit]
  | cons m ms ih => simp [MethodsFit, ih]

mutual

theorem Expr.Fits.mono (h : ∀ n, K n → L n) : ∀ {e : Expr}, e.Fits T K → e.Fits T L
  | .number _, he => he
  | .boolean _, he => he
  | .variable _, he => he
  | .arith _ _ _, he => ⟨Expr.Fits.mono h he.1, Expr.Fits.mono h he.2⟩
  | .compare _ _ _, he => ⟨Expr.Fits.mono h he.1, Expr.Fits.mono h he.2⟩
  | .call name _, he => ⟨⟨h name he.1.1, he.1.2⟩, exprsFit_mono h he.2⟩
  | .list _, he => exprsFit_mono h he
  | .index _ position, he => Expr.Fits.mono h (e := position) he
  | .member _ _, he => he
  | .methodCall _ _ _, he => exprsFit_mono h he

theorem exprsFit_mono (h : ∀ n, K n → L n) : ∀ {es : List Expr}, ExprsFit T K es → ExprsFit T L es
  | [], he => he
  | _ :: _, he => ⟨Expr.Fits.mono h he.1, exprsFit_mono h he.2⟩

end

mutual

/-- What fits does so where more names are known. -/
theorem Stmt.Fits.mono {K L : String → Prop} (h : ∀ n, K n → L n) :
    ∀ {s : Stmt}, s.Fits T K → s.Fits T L
  | .assign _ _, hs => Expr.Fits.mono h hs
  | .assignIndex _ _ _, hs => ⟨hs.1.mono h, hs.2.mono h⟩
  | .assignAttribute _ _ _, hs => Expr.Fits.mono h hs
  | .print _, hs => Expr.Fits.mono h hs
  | .ifElse _ _ _, hs =>
    ⟨hs.1.mono h, blockFits_mono h hs.2.1, blockFits_mono (Knowing.mono h) hs.2.2⟩
  | .whileLoop _ _, hs => ⟨hs.1.mono h, blockFits_mono h hs.2⟩
  | .forRange _ _ _ _, hs => ⟨hs.1.mono h, hs.2.1.mono h, blockFits_mono h hs.2.2⟩
  | .define _, hs => ⟨hs.1, routineFits_mono (Knowing.mono h) hs.2⟩
  | .defineClass _, hs => ⟨hs.1, classFits_mono (Knowing.mono h) hs.2⟩
  | .return none, hs => hs
  | .return (some _), hs => Expr.Fits.mono h hs
  | .expr _, hs => Expr.Fits.mono h hs
  | .pass, hs => hs

theorem blockFits_mono {K L : String → Prop} (h : ∀ n, K n → L n) :
    ∀ {block : List Stmt}, BlockFits T K block → BlockFits T L block
  | [], hs => hs
  | _ :: _, hs => ⟨hs.1.mono h, blockFits_mono (Knowing.mono h) hs.2⟩

theorem routineFits_mono {K L : String → Prop} (h : ∀ n, K n → L n) :
    ∀ {r : Routine (List Stmt)}, RoutineFits T K r → RoutineFits T L r
  | ⟨_, _, _⟩, hr => ⟨hr.1, blockFits_mono h hr.2⟩

theorem methodsFit_mono {K L : String → Prop} (h : ∀ n, K n → L n) :
    ∀ {ms : List (Routine (List Stmt))}, MethodsFit T K ms → MethodsFit T L ms
  | [], hm => hm
  | _ :: _, hm => ⟨⟨hm.1.1, routineFits_mono h hm.1.2⟩, methodsFit_mono h hm.2⟩

theorem classFits_mono {K L : String → Prop} (h : ∀ n, K n → L n) :
    ∀ {c : Class (List Stmt)}, ClassFits T K c → ClassFits T L c
  | ⟨_, _⟩, hc => methodsFit_mono h hc

end

/-- The constructor of a class that fits takes the receiver and the arguments of the class. -/
theorem ClassFits.constructorArity {c : Class Block} (h : ClassFits T K c) :
    match c.method? constructorName with
    | some r => r.params.length = c.constructorArity + 1
    | none => c.constructorArity = 0 := by
  obtain ⟨name, methods⟩ := c
  unfold Class.constructorArity
  cases hm : Class.method? ⟨name, methods⟩ constructorName with
  | none => rfl
  | some r =>
    have hparams := (methodsFit_iff.mp h r (List.mem_of_find?_eq_some hm)).1
    have hlength := List.length_pos_iff.mpr hparams
    show r.params.length = r.params.length - 1 + 1
    omega

end

/-! ### Simplifying -/

section

variable {T : String → Option Nat} {K : String → Prop}

theorem fits_foldArith {op : ArithOp} {left right : Expr} (hleft : left.Fits T K)
    (hright : right.Fits T K) : (foldArith op left right).Fits T K := by
  unfold foldArith
  split
  · split
    · trivial
    · exact ⟨trivial, trivial⟩
  · exact ⟨hleft, hright⟩

theorem length_simplifyExprs (es : List Expr) : (simplifyExprs es).length = es.length := by
  induction es with
  | nil => rfl
  | cons e es ih => exact congrArg (· + 1) ih

mutual

theorem Expr.Fits.simplify : ∀ {e : Expr}, e.Fits T K → e.simplify.Fits T K
  | .number _, h => h
  | .boolean _, h => h
  | .variable _, h => h
  | .arith _ _ _, h => fits_foldArith (Expr.Fits.simplify h.1) (Expr.Fits.simplify h.2)
  | .compare _ _ _, h => ⟨Expr.Fits.simplify h.1, Expr.Fits.simplify h.2⟩
  | .call _ args, h =>
    ⟨⟨h.1.1, h.1.2.trans (congrArg some (length_simplifyExprs args).symm)⟩,
      exprsFit_simplify h.2⟩
  | .list _, h => exprsFit_simplify h
  | .index _ position, h => Expr.Fits.simplify (e := position) h
  | .member _ _, h => h
  | .methodCall _ _ args, h => exprsFit_simplify (show ExprsFit T K args from h)

theorem exprsFit_simplify : ∀ {es : List Expr}, ExprsFit T K es → ExprsFit T K (simplifyExprs es)
  | [], h => h
  | _ :: _, h => ⟨Expr.Fits.simplify h.1, exprsFit_simplify h.2⟩

end

theorem simplifyClass_constructorArity (c : Class Block) :
    (simplifyClass c).constructorArity = c.constructorArity := by
  have hmethod : (simplifyClass c).method? constructorName =
      (c.method? constructorName).map simplifyRoutine := by
    unfold Class.method?
    rw [simplifyClass_methods, List.find?_map]
    simp only [Function.comp_def, simplifyRoutine_name]
  unfold Class.constructorArity
  rw [hmethod]
  cases c.method? constructorName with
  | none => rfl
  | some r => exact congrArg (· - 1) (congrArg List.length (simplifyRoutine_params r))

theorem blockFits_append {first rest : Block} : ∀ {K : String → Prop}, (∀ n, K n) →
    BlockFits T K first → BlockFits T K rest → BlockFits T K (first ++ rest) := by
  induction first with
  | nil => exact fun _ _ hrest ↦ hrest
  | cons s ss ih =>
    exact fun hK hfirst hrest ↦ ⟨hfirst.1, ih (fun n ↦ .inl (hK n)) hfirst.2
      (blockFits_mono (fun _ ↦ .inl) hrest)⟩

mutual

/-- What fits does so when it is simplified, where it does not matter which names are known. -/
theorem Stmt.Fits.simplify {i : Bool} {K : String → Prop} (hK : ∀ n, K n) :
    ∀ {s : Stmt}, s.Fits T K → BlockFits T K (s.simplify i)
  | .assign _ _, h => ⟨Expr.Fits.simplify h, trivial⟩
  | .assignIndex _ _ _, h => ⟨⟨h.1.simplify, h.2.simplify⟩, trivial⟩
  | .assignAttribute _ _ _, h => ⟨Expr.Fits.simplify h, trivial⟩
  | .print _, h => ⟨Expr.Fits.simplify h, trivial⟩
  | .ifElse _ body orelse, h => by
    have hbody := blockFits_simplify (i := i) hK h.2.1
    have horelse := blockFits_simplify (i := i) (fun n ↦ .inl (hK n)) h.2.2
    rw [Stmt.simplify]
    split
    · exact hbody
    · exact blockFits_mono (fun n _ ↦ hK n) horelse
    · exact ⟨⟨h.1.simplify, hbody, blockFits_mono (fun n _ ↦ .inl (hK n)) horelse⟩, trivial⟩
  | .whileLoop _ _, h => ⟨⟨h.1.simplify, blockFits_simplify hK h.2⟩, trivial⟩
  | .forRange _ _ _ _, h =>
    ⟨⟨h.1.simplify, h.2.1.simplify, blockFits_simplify hK h.2.2⟩, trivial⟩
  | .define r, h => by
    refine ⟨⟨?_, routineFits_mono (fun n _ ↦ .inl (hK n))
      (routineFits_simplify (fun n ↦ .inl (hK n)) h.2)⟩, trivial⟩
    rw [simplifyRoutine_name, simplifyRoutine_params]
    exact h.1
  | .defineClass c, h => by
    refine ⟨⟨?_, classFits_mono (fun n _ ↦ .inl (hK n))
      (classFits_simplify (fun n ↦ .inl (hK n)) h.2)⟩, trivial⟩
    rw [simplifyClass_name, simplifyClass_constructorArity]
    exact h.1
  | .return none, h => ⟨h, trivial⟩
  | .return (some _), h => ⟨Expr.Fits.simplify h, trivial⟩
  | .expr _, h => ⟨Expr.Fits.simplify h, trivial⟩
  | .pass, h => ⟨h, trivial⟩

theorem blockFits_simplify {i : Bool} {K : String → Prop} (hK : ∀ n, K n) :
    ∀ {block : List Stmt}, BlockFits T K block → BlockFits T K (simplifyBlock i block)
  | [], h => h
  | s :: ss, h => by
    have hfirst := h.1.simplify (i := i) hK
    have hrest := blockFits_mono (fun n _ ↦ hK n)
      (blockFits_simplify (i := i) (fun n ↦ .inl (hK n)) h.2)
    rw [simplifyBlock]
    split
    · exact hfirst
    · exact blockFits_append hK hfirst hrest

theorem routineFits_simplify {K : String → Prop} (hK : ∀ n, K n) :
    ∀ {r : Routine (List Stmt)}, RoutineFits T K r → RoutineFits T K (simplifyRoutine r)
  | ⟨_, _, body⟩, h => by
    have hfrom := definitions_simplify true body
    rw [h.1] at hfrom
    exact ⟨Prod.ext (List.subset_nil.mp hfrom.1) (List.subset_nil.mp hfrom.2),
      blockFits_simplify hK h.2⟩

theorem methodsFit_simplify {K : String → Prop} (hK : ∀ n, K n) :
    ∀ {ms : List (Routine (List Stmt))}, MethodsFit T K ms → MethodsFit T K (simplifyMethods ms)
  | [], h => h
  | m :: _, h =>
    ⟨⟨(simplifyRoutine_params m).symm ▸ h.1.1, routineFits_simplify hK h.1.2⟩,
      methodsFit_simplify hK h.2⟩

theorem classFits_simplify {K : String → Prop} (hK : ∀ n, K n) :
    ∀ {c : Class (List Stmt)}, ClassFits T K c → ClassFits T K (simplifyClass c)
  | ⟨_, _⟩, h => methodsFit_simplify hK h

end

end

end Offside
