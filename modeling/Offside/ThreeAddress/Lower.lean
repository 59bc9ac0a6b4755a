import Offside.Code.Direct
import Offside.ThreeAddress

/-!
From the tree to three-address form. Every value but that of a bare variable goes into a fresh
temporary; a variable is read by its name where it is used. The bound of a counting loop is read
once, into a temporary of its own if it is a bare variable. Bodies of routines are not part of the
form, only the place of their definition is.
-/

set_option autoImplicit false
set_option relaxedAutoImplicit false

namespace Offside.ThreeAddress

/-- How many temporaries, labels and loops there are so far. -/
structure Counters where
  temporaries : Nat
  labels : Nat
  loops : Nat

mutual

/-- The operations that compute an expression, where its value is then found, and the number of
temporaries so far. -/
def ofExpr (n : Nat) : Expr → List Op × Operand × Nat
  | .variable name => ([], .variable name, n)
  | .number value => ([.constant (.number value) (n + 1)], .temporary (n + 1), n + 1)
  | .boolean value => ([.constant (.boolean value) (n + 1)], .temporary (n + 1), n + 1)
  | .arith op left right =>
    let (leftOps, a, n) := ofExpr n left
    let (rightOps, b, n) := ofExpr n right
    (leftOps ++ rightOps ++ [.arith op a b (n + 1)], .temporary (n + 1), n + 1)
  | .compare op left right =>
    let (leftOps, a, n) := ofExpr n left
    let (rightOps, b, n) := ofExpr n right
    (leftOps ++ rightOps ++ [.compare op a b (n + 1)], .temporary (n + 1), n + 1)
  | .call name args =>
    let (ops, operands, n) := ofExprs n args
    (ops ++ [.call name operands (n + 1)], .temporary (n + 1), n + 1)
  | .list items =>
    let (ops, operands, n) := ofExprs n items
    (ops ++ [.buildList operands (n + 1)], .temporary (n + 1), n + 1)
  | .index name position =>
    let (ops, a, n) := ofExpr n position
    (ops ++ [.loadIndex name a (n + 1)], .temporary (n + 1), n + 1)
  | .member object name =>
    ([.loadAttribute object name (n + 1)], .temporary (n + 1), n + 1)
  | .methodCall object method args =>
    let (ops, operands, n) := ofExprs n args
    (ops ++ [.callMethod object method operands (n + 1)], .temporary (n + 1), n + 1)

/-- The same for expressions in a row. -/
def ofExprs (n : Nat) : List Expr → List Op × List Operand × Nat
  | [] => ([], [], n)
  | e :: es =>
    let (first, a, n) := ofExpr n e
    let (rest, operands, n) := ofExprs n es
    (first ++ rest, a :: operands, n)

end

/-- The operations that fix the value of an operand: a variable is copied to a temporary. -/
def fixed (n : Nat) : Operand → List Op × Operand × Nat
  | .variable name =>
    ([.assign (.variable name) (.temporary (n + 1))], .temporary (n + 1), n + 1)
  | .temporary number => ([], .temporary number, n)

mutual

/-- The operations of a statement. -/
def ofStmt (c : Counters) : Stmt → List Op × Counters
  | .assign name value =>
    let (ops, a, n) := ofExpr c.temporaries value
    (ops ++ [.assign a (.variable name)], { c with temporaries := n })
  | .assignIndex name position value =>
    let (positionOps, a, n) := ofExpr c.temporaries position
    let (valueOps, b, n) := ofExpr n value
    (positionOps ++ valueOps ++ [.storeIndex name a b], { c with temporaries := n })
  | .assignAttribute object name value =>
    let (ops, a, n) := ofExpr c.temporaries value
    (ops ++ [.storeAttribute object name a], { c with temporaries := n })
  | .print value =>
    let (ops, a, n) := ofExpr c.temporaries value
    (ops ++ [.print a], { c with temporaries := n })
  | .expr value =>
    let (ops, _, n) := ofExpr c.temporaries value
    (ops, { c with temporaries := n })
  | .ifElse condition body orelse =>
    let (test, a, n) := ofExpr c.temporaries condition
    let elseLabel := c.labels + 1
    let endLabel := c.labels + 2
    let (bodyOps, c) := ofBlock { c with temporaries := n, labels := endLabel } body
    let (elseOps, c) := ofBlock c orelse
    (test ++ .jumpIfFalse a elseLabel :: bodyOps ++
      .jump endLabel :: .label elseLabel :: elseOps ++ [.label endLabel], c)
  | .whileLoop condition body =>
    let startLabel := c.labels + 1
    let endLabel := c.labels + 2
    let (test, a, n) := ofExpr c.temporaries condition
    let (bodyOps, c) := ofBlock { c with temporaries := n, labels := endLabel } body
    (.label startLabel :: test ++ .jumpIfFalse a endLabel :: bodyOps ++
      [.jump startLabel, .label endLabel], c)
  | .forRange name start stop body =>
    let loop := c.loops + 1
    let counter := Operand.variable (loopCounter loop)
    let (startOps, a, n) := ofExpr c.temporaries start
    let (stopOps, b, n) := ofExpr n stop
    let (fixOps, bound, n) := fixed n b
    let startLabel := c.labels + 1
    let endLabel := c.labels + 2
    let test := n + 1
    let (bodyOps, c) := ofBlock ⟨test, endLabel, loop⟩ body
    let one := c.temporaries + 1
    let next := c.temporaries + 2
    (startOps ++ .assign a counter :: stopOps ++ fixOps ++
      [.label startLabel, .compare .lt counter bound test, .jumpIfFalse (.temporary test) endLabel,
        .assign counter (.variable name)] ++
      bodyOps ++
      [.constant (.number (.int 1)) one, .arith .add counter (.temporary one) next,
        .assign (.temporary next) counter, .jump startLabel, .label endLabel],
      { c with temporaries := next })
  | .define routine => ([.defineFunction routine.name], c)
  | .defineClass definition => ([.defineClass definition.name], c)
  | .return none => ([.returnValue none], c)
  | .return (some value) =>
    let (ops, a, n) := ofExpr c.temporaries value
    (ops ++ [.returnValue (some a)], { c with temporaries := n })
  | .pass => ([], c)

/-- The operations of statements in a row. -/
def ofBlock (c : Counters) : List Stmt → List Op × Counters
  | [] => ([], c)
  | s :: ss =>
    let (first, c) := ofStmt c s
    let (rest, c) := ofBlock c ss
    (first ++ rest, c)

end

mutual

/-- The functions and classes that a statement defines outside of the bodies of routines. -/
def definitionsOfStmt : Stmt → List (Routine Block) × List (Class Block)
  | .ifElse _ body orelse =>
    let inBody := definitions body
    let inElse := definitions orelse
    (inBody.1 ++ inElse.1, inBody.2 ++ inElse.2)
  | .whileLoop _ body => definitions body
  | .forRange _ _ _ body => definitions body
  | .define routine => ([routine], [])
  | .defineClass definition => ([], [definition])
  | _ => ([], [])

/-- The functions and classes that a block defines outside of the bodies of routines. -/
def definitions : List Stmt → List (Routine Block) × List (Class Block)
  | [] => ([], [])
  | s :: ss =>
    let first := definitionsOfStmt s
    let rest := definitions ss
    (first.1 ++ rest.1, first.2 ++ rest.2)

end

/-- The three-address form of a program. -/
def ofProgram (program : Block) : Form :=
  let (functions, classes) := definitions program
  ⟨(ofBlock ⟨0, 0, 0⟩ program).1, functions, classes⟩

end Offside.ThreeAddress
