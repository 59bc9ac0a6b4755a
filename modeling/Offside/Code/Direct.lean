import Offside.Code

/-!
Direct lowering: from the tree of a program to stack code. The code of a statement depends on the
place where it starts, since jumps name places in the whole block. Bodies of routines are lowered
where their definition is met, and kept by name, so that the first definition of a name counts; all
loops of a program share one numbering of their hidden variables.
-/

set_option autoImplicit false
set_option relaxedAutoImplicit false

namespace Offside

/-- The hidden variable that holds how often the loop of the given number has started over. -/
def loopCounter (loop : Nat) : String :=
  "%for" ++ toString loop

/-- The hidden variable that holds where the loop of the given number stops. -/
def loopBound (loop : Nat) : String :=
  "%end" ++ toString loop

/-- The code that returns without a value. -/
def returnNone : List Instr :=
  [.loadConstant .none, .returnValue]

/-- What lowering has gathered besides the code at hand: how many loops there were, and the bodies
lowered so far. -/
structure Gathered where
  loops : Nat
  functions : Bindings (Routine Code)
  classes : Bindings ClassCode

namespace Gathered

def initial : Gathered := ⟨0, .empty, .empty⟩

end Gathered

mutual

/-- The code that leaves the value of an expression on the stack. -/
def Expr.code : Expr → List Instr
  | .number n => [.loadConstant (.number n)]
  | .boolean b => [.loadConstant (.boolean b)]
  | .variable name => [.loadVariable name]
  | .arith op left right => left.code ++ right.code ++ [.arith op]
  | .compare op left right => left.code ++ right.code ++ [.compare op]
  | .call name args => codeOfExprs args ++ [.callFunction name args.length]
  | .list items => codeOfExprs items ++ [.buildList items.length]
  | .index name position => .loadVariable name :: position.code ++ [.loadIndex]
  | .member object name => [.loadVariable object, .loadAttribute name]
  | .methodCall object method args =>
    .loadVariable object :: codeOfExprs args ++ [.callMethod method args.length]

/-- The code that leaves the values of expressions on the stack, the last one on top. -/
def codeOfExprs : List Expr → List Instr
  | [] => []
  | e :: es => e.code ++ codeOfExprs es

end

mutual

/-- The code of a statement that starts at the given place. -/
def Stmt.code (start : Nat) (g : Gathered) : Stmt → List Instr × Gathered
  | .assign name value => (value.code ++ [.storeVariable name], g)
  | .assignIndex name position value =>
    (.loadVariable name :: position.code ++ value.code ++ [.storeIndex], g)
  | .assignAttribute object name value =>
    (.loadVariable object :: value.code ++ [.storeAttribute name], g)
  | .print value => (value.code ++ [.print], g)
  | .expr value => (value.code ++ [.pop], g)
  | .ifElse condition body orelse =>
    let test := condition.code
    let bodyStart := start + test.length + 1
    let (bodyCode, g) := codeOfBlock bodyStart g body
    let bodyStop := bodyStart + bodyCode.length
    if orelse.isEmpty then (test ++ .jumpIfFalse bodyStop :: bodyCode, g)
    else
      let elseStart := bodyStop + 1
      let (elseCode, g) := codeOfBlock elseStart g orelse
      (test ++ .jumpIfFalse elseStart :: bodyCode ++
        .jump (elseStart + elseCode.length) :: elseCode, g)
  | .whileLoop condition body =>
    let test := condition.code
    let bodyStart := start + test.length + 1
    let (bodyCode, g) := codeOfBlock bodyStart g body
    (test ++ .jumpIfFalse (bodyStart + bodyCode.length + 1) :: bodyCode ++ [.jump start], g)
  | .forRange name first stop body =>
    let loop := g.loops + 1
    let counter := loopCounter loop
    let bound := loopBound loop
    let setup := first.code ++ .storeVariable counter :: stop.code ++ [.storeVariable bound]
    let top := start + setup.length
    let bodyStart := top + 6
    let (bodyCode, g) := codeOfBlock bodyStart { g with loops := loop } body
    let next := [.loadVariable counter, .loadConstant (.number (.int 1)), .arith .add,
      .storeVariable counter, .jump top]
    (setup ++
      [.loadVariable counter, .loadVariable bound, .compare .lt,
        .jumpIfFalse (bodyStart + bodyCode.length + next.length), .loadVariable counter,
        .storeVariable name] ++
      bodyCode ++ next, g)
  | .define routine =>
    ([.defineFunction routine.name],
      if g.functions.has routine.name then g
      else
        let (r, g) := codeOfRoutine g routine
        { g with functions := g.functions.set routine.name r })
  | .defineClass definition =>
    ([.defineClass definition.name],
      if g.classes.has definition.name then g
      else
        let (c, g) := codeOfClass g definition
        { g with classes := g.classes.set definition.name c })
  | .return none => (returnNone, g)
  | .return (some value) => (value.code ++ [.returnValue], g)
  | .pass => ([], g)

/-- The code of statements in a row, the first of which starts at the given place. -/
def codeOfBlock (start : Nat) (g : Gathered) : List Stmt → List Instr × Gathered
  | [] => ([], g)
  | s :: ss =>
    let (first, g) := s.code start g
    let (rest, g) := codeOfBlock (start + first.length) g ss
    (first ++ rest, g)

/-- A routine with the code of its body, which returns without a value where it ends. -/
def codeOfRoutine (g : Gathered) : Routine (List Stmt) → Routine Code × Gathered
  | ⟨name, params, body⟩ =>
    let (code, g) := codeOfBlock 0 g body
    (⟨name, params, (code ++ returnNone).toArray⟩, g)

/-- The code of methods, of which the last of a name counts. -/
def codeOfMethods (g : Gathered) (done : Bindings (Routine Code)) :
    List (Routine (List Stmt)) → Bindings (Routine Code) × Gathered
  | [] => (done, g)
  | m :: ms =>
    let (r, g) := codeOfRoutine g m
    codeOfMethods g (done.set m.name r) ms

def codeOfClass (g : Gathered) : Class (List Stmt) → ClassCode × Gathered
  | ⟨name, methods⟩ =>
    let (methods, g) := codeOfMethods g .empty methods
    (⟨name, methods⟩, g)

end

/-- Adds the code of a function, unless there is one of its name. -/
def Gathered.addFunction (g : Gathered) (routine : Routine Block) : Gathered :=
  ((Stmt.define routine).code 0 g).2

/-- Adds the code of a class, unless there is one of its name. -/
def Gathered.addClass (g : Gathered) (definition : Class Block) : Gathered :=
  ((Stmt.defineClass definition).code 0 g).2

/-- The executable with the given main block and the bodies gathered beside it. -/
def Gathered.executable (g : Gathered) (main : List Instr) : Executable :=
  ⟨main.toArray, g.functions, g.classes⟩

/-- Lowers a whole program directly. -/
def lowerDirect (program : Block) : Executable :=
  let (main, g) := codeOfBlock 0 .initial program
  g.executable main

end Offside
