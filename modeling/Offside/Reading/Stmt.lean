import Offside.Reading.Expr

/-!
Reading statements, blocks and programs. What stands left of `=` is read as an expression first, and
whether it can be assigned to is decided once the line has been read.
-/

set_option autoImplicit false
set_option relaxedAutoImplicit false

namespace Offside

namespace Reading

/-- A function or a method, from its keyword on, over the statements of its body. -/
def routine (bound : Nat) (statement : Reading Stmt) : Reading (Routine Block) := do
  takeWord .defWord
  let name ← identifier
  takeMark .leftParen
  let params ← itemsUpTo bound .rightParen identifier
  takeMark .colon
  let body ← indented bound (return [← statement])
  return ⟨name, params, body⟩

/-- A line of a class: a method, or a `pass`, which adds nothing. -/
def member (bound : Nat) (statement : Reading Stmt) : Reading (List (Routine Block)) := do
  match (← current).token with
  | .keyword .defWord => return [← routine bound statement]
  | .keyword .passWord =>
    advance
    take .newline
    return []
  | _ => unexpected .method

/-- The bound of a counting loop: `range` with one argument. -/
def rangeArgument (bound : Nat) : Reading Expr := do
  let line := (← current).line
  let callee ← identifier
  if callee ≠ "range" then throw (.unsupported (.iteration callee) line)
  else
    takeMark .leftParen
    match ← itemsUpTo bound .rightParen (expression bound) with
    | [stop] => return stop
    | args => throw (.unsupported (.rangeArguments args.length) line)

/-- The assignment of a value to what an expression names, if it names a place. -/
def assignment? (value : Expr) : Expr → Option Stmt
  | .variable name => some (.assign name value)
  | .index name position => some (.assignIndex name position value)
  | .member object name => some (.assignAttribute object name value)
  | _ => none

/-- A line that is an expression or an assignment. -/
def simpleLine (bound : Nat) : Reading Stmt := do
  let line := (← current).line
  let target ← expression bound
  if ← take? (.punctuation .assign) then
    let value ← expression bound
    take .newline
    match assignment? value target with
    | some stmt => return stmt
    | none => throw (.unsupported .assignmentTarget line)
  else
    take .newline
    return .expr target

/-- A statement, with fewer than `depth` levels of nesting. -/
def statement (bound : Nat) : Nat → Reading Stmt
  | 0 => unexpected .expression
  | depth + 1 => do
    let statement := statement bound depth
    let block := indented bound (return [← statement])
    match (← current).token with
    | .keyword .printWord =>
      advance
      takeMark .leftParen
      let value ← expression bound
      takeMark .rightParen
      take .newline
      return .print value
    | .keyword .defWord => return .define (← routine bound statement)
    | .keyword .classWord =>
      advance
      let name ← identifier
      takeMark .colon
      return .defineClass ⟨name, ← indented bound (member bound statement)⟩
    | .keyword .returnWord =>
      advance
      if ← take? .newline then return .return none
      else
        let value ← expression bound
        take .newline
        return .return (some value)
    | .keyword .ifWord =>
      advance
      let condition ← expression bound
      takeMark .colon
      let body ← block
      if ← take? (.keyword .elseWord) then
        takeMark .colon
        return .ifElse condition body (← block)
      else return .ifElse condition body []
    | .keyword .whileWord =>
      advance
      let condition ← expression bound
      takeMark .colon
      return .whileLoop condition (← block)
    | .keyword .forWord =>
      advance
      let name ← identifier
      takeWord .inWord
      let stop ← rangeArgument bound
      takeMark .colon
      return .forRange name (.number (.int 0)) stop (← block)
    | .keyword .passWord =>
      advance
      take .newline
      return .pass
    | _ => simpleLine bound

/-- The statements up to the end of the input. -/
def program (bound : Nat) : Reading Block :=
  linesUpTo (· = .endOfInput) (return [← statement bound (bound + 1)]) bound

end Reading

/-- The tokens with the end of the input behind them; it stands where the last token does. -/
def withEnd (tokens : List PlacedToken) : List PlacedToken :=
  match tokens.getLast? with
  | none => [⟨.endOfInput, 0, 0⟩]
  | some last =>
    if last.token = .endOfInput then tokens
    else tokens ++ [⟨.endOfInput, last.line, last.column⟩]

/-- The program that tokens form. -/
def parseTokens (tokens : List PlacedToken) : Except ParseError Block :=
  ((Reading.program tokens.length).run (withEnd tokens)).map Prod.fst

end Offside
