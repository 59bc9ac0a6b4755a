import Offside.Syntax

/-!
The simplifier. Operations on two literals are carried out where they have a result, a conditional
on a literal gives way to the branch it takes, and in the body of a routine nothing is kept behind a
`return` in the same block. An operation that would fail stays, so that it fails when it is run, and
loops stay, so that a program ends exactly when it did.
-/

set_option autoImplicit false
set_option relaxedAutoImplicit false

namespace Offside

/-- The operation on two simplified operands. -/
def foldArith (op : ArithOp) (left right : Expr) : Expr :=
  match left, right with
  | .number a, .number b =>
    match a.apply op b with
    | .ok c => .number c
    | .error _ => .arith op left right
  | _, _ => .arith op left right

mutual

/-- Carries out the operations on literals inside an expression, innermost first. -/
def Expr.simplify : Expr → Expr
  | .number n => .number n
  | .boolean b => .boolean b
  | .variable name => .variable name
  | .arith op left right => foldArith op left.simplify right.simplify
  | .compare op left right => .compare op left.simplify right.simplify
  | .call name args => .call name (simplifyExprs args)
  | .list items => .list (simplifyExprs items)
  | .index name position => .index name position.simplify
  | .member object name => .member object name
  | .methodCall object method args => .methodCall object method (simplifyExprs args)

def simplifyExprs : List Expr → List Expr
  | [] => []
  | e :: es => e.simplify :: simplifyExprs es

end

/-- The truth of a condition that is a literal. -/
def Expr.literalTruth? : Expr → Option Bool
  | .number n => some n.isTruthy
  | .boolean b => some b
  | _ => none

def Stmt.isReturn : Stmt → Bool
  | .return _ => true
  | _ => false

/-- Whether a block ends in a `return`. -/
def endsInReturn (block : Block) : Bool :=
  block.getLast?.any Stmt.isReturn

mutual

/-- The statements that take the place of a statement. -/
def Stmt.simplify (inRoutine : Bool) : Stmt → Block
  | .assign name value => [.assign name value.simplify]
  | .assignIndex name position value => [.assignIndex name position.simplify value.simplify]
  | .assignAttribute object name value => [.assignAttribute object name value.simplify]
  | .print value => [.print value.simplify]
  | .ifElse condition body orelse =>
    match condition.simplify.literalTruth? with
    | some true => simplifyBlock inRoutine body
    | some false => simplifyBlock inRoutine orelse
    | none =>
      [.ifElse condition.simplify (simplifyBlock inRoutine body) (simplifyBlock inRoutine orelse)]
  | .whileLoop condition body => [.whileLoop condition.simplify (simplifyBlock inRoutine body)]
  | .forRange name start stop body =>
    [.forRange name start.simplify stop.simplify (simplifyBlock inRoutine body)]
  | .define routine => [.define (simplifyRoutine routine)]
  | .defineClass definition => [.defineClass (simplifyClass definition)]
  | .return none => [.return none]
  | .return (some value) => [.return (some value.simplify)]
  | .expr value => [.expr value.simplify]
  | .pass => [.pass]

def simplifyBlock (inRoutine : Bool) : List Stmt → Block
  | [] => []
  | s :: ss =>
    let first := s.simplify inRoutine
    if inRoutine && endsInReturn first then first else first ++ simplifyBlock inRoutine ss

def simplifyRoutine : Routine (List Stmt) → Routine (List Stmt)
  | ⟨name, params, body⟩ => ⟨name, params, simplifyBlock true body⟩

def simplifyMethods : List (Routine (List Stmt)) → List (Routine (List Stmt))
  | [] => []
  | m :: ms => simplifyRoutine m :: simplifyMethods ms

def simplifyClass : Class (List Stmt) → Class (List Stmt)
  | ⟨name, methods⟩ => ⟨name, simplifyMethods methods⟩

end

/-- Simplifies a program. -/
def simplify (program : Block) : Block :=
  simplifyBlock false program

end Offside
