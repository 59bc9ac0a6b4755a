import Offside.Reading
import Offside.Syntax

/-!
Reading expressions. A comparison has at most one operator; sums and products associate to the left;
a sign binds tighter than a product and stands for a difference from zero.
-/

set_option autoImplicit false
set_option relaxedAutoImplicit false

namespace Offside.Reading

/-- The operator of a sum. -/
def sumOp? : Token → Option ArithOp
  | .arith .add => some .add
  | .arith .sub => some .sub
  | _ => none

/-- The operator of a product. -/
def productOp? : Token → Option ArithOp
  | .arith .mul => some .mul
  | .arith .div => some .div
  | _ => none

def compareOp? : Token → Option CompareOp
  | .compare op => some op
  | _ => none

/-- Further operands of a chain that associates to the left. -/
def chainOnto (op? : Token → Option ArithOp) (operand : Reading Expr) (left : Expr) :
    Nat → Reading Expr
  | 0 => return left
  | bound + 1 => do
    match op? (← current).token with
    | some op =>
      advance
      let right ← operand
      chainOnto op? operand (.arith op left right) bound
    | none => return left

/-- Operands with operators between them. -/
def chain (bound : Nat) (op? : Token → Option ArithOp) (operand : Reading Expr) :
    Reading Expr := do
  let first ← operand
  chainOnto op? operand first bound

/-- A whole expression, over the operands of its products. -/
def expressionOver (bound : Nat) (operand : Reading Expr) : Reading Expr := do
  let sum := chain bound sumOp? (chain bound productOp? operand)
  let left ← sum
  match compareOp? (← current).token with
  | none => return left
  | some op =>
    advance
    let right ← sum
    let next ← current
    if (compareOp? next.token).isSome then throw (.unsupported .chainedComparison next.line)
    else return .compare op left right

/-- An access is one hop long, so nothing that continues it may follow. -/
def endOfAccess (access : Expr) : Reading Expr := do
  let next ← current
  if next.token = .punctuation .leftParen ∨ next.token = .punctuation .leftBracket ∨
      next.token = .punctuation .dot then
    throw (.unsupported .accessChain next.line)
  else return access

/-- What follows a name: arguments, an index, an attribute, a method with its arguments, or nothing
that belongs to it. -/
def accessOf (bound : Nat) (expression : Reading Expr) (name : String) : Reading Expr := do
  if ← take? (.punctuation .leftParen) then
    endOfAccess (.call name (← itemsUpTo bound .rightParen expression))
  else if ← take? (.punctuation .leftBracket) then
    let position ← expression
    takeMark .rightBracket
    endOfAccess (.index name position)
  else if ← take? (.punctuation .dot) then
    let member ← identifier
    if ← take? (.punctuation .leftParen) then
      endOfAccess (.methodCall name member (← itemsUpTo bound .rightParen expression))
    else endOfAccess (.member name member)
  else return .variable name

/-- An operand of a product, with fewer than `depth` levels of nesting. -/
def operand (bound : Nat) : Nat → Reading Expr
  | 0 => unexpected .expression
  | depth + 1 => do
    let expression := expressionOver bound (operand bound depth)
    match (← current).token with
    | .number value =>
      advance
      return .number (.int value)
    | .keyword .trueWord =>
      advance
      return .boolean true
    | .keyword .falseWord =>
      advance
      return .boolean false
    | .arith .sub =>
      advance
      return .arith .sub (.number (.int 0)) (← operand bound depth)
    | .identifier name =>
      advance
      accessOf bound expression name
    | .punctuation .leftBracket =>
      advance
      return .list (← itemsUpTo bound .rightBracket expression)
    | .punctuation .leftParen =>
      advance
      let inner ← expression
      takeMark .rightParen
      return inner
    | _ => unexpected .expression

/-- An expression. -/
def expression (bound : Nat) : Reading Expr :=
  expressionOver bound (operand bound (bound + 1))

end Offside.Reading
