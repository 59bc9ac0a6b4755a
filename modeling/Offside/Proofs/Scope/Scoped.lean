import Offside.Proofs.Names

/-!
Scoped programs, without the machinery of the check. `Stmt.Scoped P` says that a statement reads no
variable but those that satisfy `P` or are bound before, that it returns only inside of a routine,
and defines only outside of one. It says nothing about what can be called.
-/

set_option autoImplicit false
set_option relaxedAutoImplicit false

namespace Offside

open ThreeAddress (definitions definitionsOfStmt)

/-- The variables of `P`, and one more. -/
def Declaring (name : String) (P : String → Prop) (x : String) : Prop :=
  x = name ∨ P x

/-- The variables of `P`, and parameters. -/
def WithParams (params : List String) (P : String → Prop) (x : String) : Prop :=
  x ∈ params ∨ P x

/-- No two elements have one name. -/
def Apart {α : Type} (name : α → String) (xs : List α) : Prop :=
  ∀ a ∈ xs, ∀ b ∈ xs, name a = name b → a = b

section

variable (P : String → Prop)

mutual

/-- Every variable that an expression reads satisfies `P`. -/
def Expr.Reads : Expr → Prop
  | .number _ => True
  | .boolean _ => True
  | .variable name => P name
  | .arith _ left right => left.Reads ∧ right.Reads
  | .compare _ left right => left.Reads ∧ right.Reads
  | .call _ args => ExprsRead args
  | .list items => ExprsRead items
  | .index name position => P name ∧ position.Reads
  | .member object _ => P object
  | .methodCall object _ args => P object ∧ ExprsRead args

def ExprsRead : List Expr → Prop
  | [] => True
  | e :: es => e.Reads ∧ ExprsRead es

end

end

/-- The variables that are bound behind a statement, if those of `P` are bound before. -/
def Stmt.declared (P : String → Prop) : Stmt → String → Prop
  | .assign name _ => Declaring name P
  | _ => P

mutual

/-- A statement that reads variables of `P` and those it has bound itself. -/
def Stmt.Scoped (inRoutine : Bool) (P : String → Prop) : Stmt → Prop
  | .assign name value => Plain name ∧ value.Reads P
  | .assignIndex name position value => P name ∧ position.Reads P ∧ value.Reads P
  | .assignAttribute object _ value => P object ∧ value.Reads P
  | .print value => value.Reads P
  | .ifElse condition body orelse =>
    condition.Reads P ∧ BlockScoped inRoutine P body ∧ BlockScoped inRoutine P orelse
  | .whileLoop condition body => condition.Reads P ∧ BlockScoped inRoutine P body
  | .forRange name start stop body =>
    Plain name ∧ start.Reads P ∧ stop.Reads P ∧ BlockScoped inRoutine (Declaring name P) body
  | .define routine => inRoutine = false ∧ RoutineScoped P routine
  | .defineClass definition => inRoutine = false ∧ ClassScoped P definition
  | .return none => inRoutine = true
  | .return (some value) => inRoutine = true ∧ value.Reads P
  | .expr value => value.Reads P
  | .pass => True

def BlockScoped (inRoutine : Bool) (P : String → Prop) : List Stmt → Prop
  | [] => True
  | s :: ss => s.Scoped inRoutine P ∧ BlockScoped inRoutine (s.declared P) ss

/-- A routine whose body reads its parameters, variables of `P`, and those it has bound itself. -/
def RoutineScoped (P : String → Prop) : Routine (List Stmt) → Prop
  | ⟨_, params, body⟩ => (∀ x ∈ params, Plain x) ∧ BlockScoped true (WithParams params P) body

def MethodsScoped (P : String → Prop) : List (Routine (List Stmt)) → Prop
  | [] => True
  | m :: ms => RoutineScoped P m ∧ MethodsScoped P ms

def ClassScoped (P : String → Prop) : Class (List Stmt) → Prop
  | ⟨name, methods⟩ => Plain name ∧ Apart Routine.name methods ∧ MethodsScoped P methods

end

/-- A program that the scope check could have accepted, and whose names are those of a source
text. -/
structure WellFormed (program : Block) : Prop where
  inScope : BlockScoped false (fun _ ↦ False) program
  functions : Apart Routine.name (definitions program).1
  classes : Apart Class.name (definitions program).2

/-! ### Larger scopes -/

variable {P Q : String → Prop}

theorem Declaring.mono {name : String} (h : ∀ x, P x → Q x) (x : String) :
    Declaring name P x → Declaring name Q x :=
  Or.imp_right (h x)

theorem WithParams.mono {params : List String} (h : ∀ x, P x → Q x) (x : String) :
    WithParams params P x → WithParams params Q x :=
  Or.imp_right (h x)

theorem Declaring.plain {name : String} (hname : Plain name) (x : String) :
    Declaring name Plain x → Plain x :=
  fun h ↦ h.elim (fun hx ↦ hx ▸ hname) id

theorem WithParams.plain {params : List String} (hparams : ∀ x ∈ params, Plain x) (x : String) :
    WithParams params Plain x → Plain x :=
  fun h ↦ h.elim (hparams x) id

theorem methodsScoped_iff {methods : List (Routine Block)} :
    MethodsScoped P methods ↔ ∀ m ∈ methods, RoutineScoped P m := by
  induction methods with
  | nil => simp [MethodsScoped]
  | cons m ms ih => simp [MethodsScoped, ih]

theorem Stmt.declared_mono (h : ∀ x, P x → Q x) (s : Stmt) (x : String) :
    s.declared P x → s.declared Q x := by
  cases s with
  | assign name value => exact Declaring.mono h x
  | _ => exact h x

mutual

theorem Expr.Reads.mono (h : ∀ x, P x → Q x) : ∀ {e : Expr}, e.Reads P → e.Reads Q
  | .number _, he => he
  | .boolean _, he => he
  | .variable name, he => h name he
  | .arith _ _ _, he => ⟨Expr.Reads.mono h he.1, Expr.Reads.mono h he.2⟩
  | .compare _ _ _, he => ⟨Expr.Reads.mono h he.1, Expr.Reads.mono h he.2⟩
  | .call _ _, he => exprsRead_mono h he
  | .list _, he => exprsRead_mono h he
  | .index name _, he => ⟨h name he.1, Expr.Reads.mono h he.2⟩
  | .member object _, he => h object he
  | .methodCall object _ _, he => ⟨h object he.1, exprsRead_mono h he.2⟩

theorem exprsRead_mono (h : ∀ x, P x → Q x) : ∀ {es : List Expr}, ExprsRead P es → ExprsRead Q es
  | [], he => he
  | _ :: _, he => ⟨Expr.Reads.mono h he.1, exprsRead_mono h he.2⟩

end

mutual

/-- What is scoped stays so where more variables are bound. -/
theorem Stmt.Scoped.mono {i : Bool} {P Q : String → Prop} (h : ∀ x, P x → Q x) :
    ∀ {s : Stmt}, s.Scoped i P → s.Scoped i Q
  | .assign _ _, hs => ⟨hs.1, hs.2.mono h⟩
  | .assignIndex name _ _, hs => ⟨h name hs.1, hs.2.1.mono h, hs.2.2.mono h⟩
  | .assignAttribute object _ _, hs => ⟨h object hs.1, hs.2.mono h⟩
  | .print _, hs => Expr.Reads.mono h hs
  | .ifElse _ _ _, hs => ⟨hs.1.mono h, blockScoped_mono h hs.2.1, blockScoped_mono h hs.2.2⟩
  | .whileLoop _ _, hs => ⟨hs.1.mono h, blockScoped_mono h hs.2⟩
  | .forRange _ _ _ _, hs =>
    ⟨hs.1, hs.2.1.mono h, hs.2.2.1.mono h, blockScoped_mono (Declaring.mono h) hs.2.2.2⟩
  | .define _, hs => ⟨hs.1, routineScoped_mono h hs.2⟩
  | .defineClass _, hs => ⟨hs.1, classScoped_mono h hs.2⟩
  | .return none, hs => hs
  | .return (some _), hs => ⟨hs.1, hs.2.mono h⟩
  | .expr _, hs => Expr.Reads.mono h hs
  | .pass, hs => hs

theorem blockScoped_mono {i : Bool} {P Q : String → Prop} (h : ∀ x, P x → Q x) :
    ∀ {block : List Stmt}, BlockScoped i P block → BlockScoped i Q block
  | [], hs => hs
  | s :: _, hs => ⟨hs.1.mono h, blockScoped_mono (s.declared_mono h) hs.2⟩

theorem routineScoped_mono {P Q : String → Prop} (h : ∀ x, P x → Q x) :
    ∀ {r : Routine (List Stmt)}, RoutineScoped P r → RoutineScoped Q r
  | ⟨_, _, _⟩, hr => ⟨hr.1, blockScoped_mono (WithParams.mono h) hr.2⟩

theorem methodsScoped_mono {P Q : String → Prop} (h : ∀ x, P x → Q x) :
    ∀ {ms : List (Routine (List Stmt))}, MethodsScoped P ms → MethodsScoped Q ms
  | [], hm => hm
  | _ :: _, hm => ⟨routineScoped_mono h hm.1, methodsScoped_mono h hm.2⟩

theorem classScoped_mono {P Q : String → Prop} (h : ∀ x, P x → Q x) :
    ∀ {c : Class (List Stmt)}, ClassScoped P c → ClassScoped Q c
  | ⟨_, _⟩, hc => ⟨hc.1, hc.2.1, methodsScoped_mono h hc.2.2⟩

end

theorem Stmt.declared_plain {i : Bool} {s : Stmt} (hs : s.Scoped i P) (x : String) :
    s.declared Plain x → Plain x := by
  cases s with
  | assign name value => exact Declaring.plain hs.1 x
  | _ => exact id

/-- The body of a routine, all of whose variables are plain. -/
theorem RoutineScoped.plain {r : Routine Block} (h : RoutineScoped P r) (hP : ∀ x, P x → Plain x) :
    BlockScoped true Plain r.body := by
  obtain ⟨name, params, body⟩ := r
  exact blockScoped_mono (WithParams.plain h.1) (routineScoped_mono hP h).2

/-! ### Blocks behind one another -/

/-- The variables that are bound behind a block, if those of `P` are bound before. -/
def blockDeclared (P : String → Prop) : Block → String → Prop
  | [] => P
  | s :: ss => blockDeclared (s.declared P) ss

theorem Stmt.declared_of {x : String} (s : Stmt) (h : P x) : s.declared P x := by
  cases s with
  | assign name value => exact .inr h
  | _ => exact h

theorem blockDeclared_of {x : String} {block : Block} : ∀ {P : String → Prop}, P x →
    blockDeclared P block x := by
  induction block with
  | nil => exact fun h ↦ h
  | cons s ss ih => exact fun h ↦ ih (s.declared_of h)

theorem blockScoped_append {i : Bool} {first rest : Block} :
    ∀ {P : String → Prop}, BlockScoped i P first → BlockScoped i (blockDeclared P first) rest →
      BlockScoped i P (first ++ rest) := by
  induction first with
  | nil => exact fun _ hrest ↦ hrest
  | cons s ss ih => exact fun hfirst hrest ↦ ⟨hfirst.1, ih hfirst.2 hrest⟩

/-! ### Definitions -/

theorem definitions_append (first rest : Block) :
    definitions (first ++ rest) =
      ((definitions first).1 ++ (definitions rest).1,
        (definitions first).2 ++ (definitions rest).2) := by
  induction first with
  | nil => rfl
  | cons s ss ih => simp only [List.cons_append, definitions, ih, List.append_assoc]

mutual

/-- Nothing is defined inside of a routine. -/
theorem definitionsOfStmt_of_scoped {P : String → Prop} :
    ∀ {s : Stmt}, s.Scoped true P → definitionsOfStmt s = ([], [])
  | .assign _ _, _ => rfl
  | .assignIndex _ _ _, _ => rfl
  | .assignAttribute _ _ _, _ => rfl
  | .print _, _ => rfl
  | .ifElse _ body orelse, hs => by
    rw [definitionsOfStmt, definitions_of_scoped hs.2.1, definitions_of_scoped hs.2.2]
    rfl
  | .whileLoop _ _, hs => definitions_of_scoped hs.2
  | .forRange _ _ _ _, hs => definitions_of_scoped hs.2.2.2
  | .define _, hs => absurd hs.1 (by decide)
  | .defineClass _, hs => absurd hs.1 (by decide)
  | .return _, _ => rfl
  | .expr _, _ => rfl
  | .pass, _ => rfl

theorem definitions_of_scoped {P : String → Prop} :
    ∀ {block : List Stmt}, BlockScoped true P block → definitions block = ([], [])
  | [], _ => rfl
  | s :: ss, hs => by
    rw [definitions, definitionsOfStmt_of_scoped hs.1, definitions_of_scoped hs.2]
    rfl

end

end Offside
