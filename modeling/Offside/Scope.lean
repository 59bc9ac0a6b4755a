import Offside.Bindings
import Offside.Builtin
import Offside.Syntax

/-!
The scope check. A name is visible from its assignment to the end of the block that holds it, with
the blocks inside; the body of a routine sees what is visible at its definition. What can be called
stays callable from its definition on, wherever that stands. Definitions inside the body of a
routine are refused, and so is a `return` outside of one.
-/

set_option autoImplicit false
set_option relaxedAutoImplicit false

namespace Offside

/-- Why a program is refused. -/
inductive ScopeError
  | undeclaredVariable (name : String)
  | duplicateFunction (name : String)
  | duplicateClass (name : String)
  | duplicateMethod (className method : String)
  | missingReceiver (className method : String)
  | undeclaredFunction (name : String)
  | arityMismatch (name : String) (expected found : Nat)
  | returnOutsideFunction
  | nestedDefinition (name : String)
  deriving DecidableEq

namespace ScopeError

def message : ScopeError → String
  | .undeclaredVariable name => "Variable '" ++ name ++ "' not defined"
  | .duplicateFunction name => "Function '" ++ name ++ "' already defined"
  | .duplicateClass name => "Class '" ++ name ++ "' already defined"
  | .duplicateMethod className method =>
    "Method '" ++ method ++ "' already defined in class '" ++ className ++ "'"
  | .missingReceiver className method =>
    "Method '" ++ method ++ "' of class '" ++ className ++ "' must take '" ++ receiverName ++
      "' as its first parameter"
  | .undeclaredFunction name => "Function '" ++ name ++ "' not defined"
  | .arityMismatch name expected found =>
    "Function '" ++ name ++ "' expects " ++ toString expected ++ " arguments, got " ++
      toString found
  | .returnOutsideFunction => "Return outside function"
  | .nestedDefinition name =>
    "Definition of '" ++ name ++ "' inside a function body is not supported"

end ScopeError

/-- What a statement can refer to: the visible variables, and the number of arguments of each
callable. -/
structure Scope where
  visible : List String
  callables : Bindings Nat

namespace Scope

/-- The scope in which a program starts. -/
def initial : Scope :=
  ⟨[], Bindings.ofList (Builtin.all.map fun b ↦ (b.name, b.arity))⟩

def declare (σ : Scope) (name : String) : Scope :=
  { σ with visible := name :: σ.visible }

def register (σ : Scope) (name : String) (arity : Nat) : Scope :=
  { σ with callables := σ.callables.set name arity }

/-- The scope behind a block that was checked from `σ` and ended in `inner`: its variables are gone,
and what it made callable stays. -/
def leave (σ inner : Scope) : Scope :=
  { σ with callables := inner.callables }

/-- The scope in which the body of a routine starts. -/
def enter (σ : Scope) (params : List String) : Scope :=
  { σ with visible := params ++ σ.visible }

def requireVisible (σ : Scope) (name : String) : Except ScopeError Unit :=
  if name ∈ σ.visible then .ok () else .error (.undeclaredVariable name)

/-- Whether a name can be called with the given number of arguments. -/
def requireCallable (σ : Scope) (name : String) (arguments : Nat) : Except ScopeError Unit :=
  match σ.callables.get? name with
  | none => .error (.undeclaredFunction name)
  | some arity =>
    if arity = arguments then .ok () else .error (.arityMismatch name arity arguments)

/-- The methods of a class in order: each has a name of its own, and then the receiver as its first
parameter. -/
def checkSignatures (className : String) (seen : List String) :
    List (Routine Block) → Except ScopeError Unit
  | [] => .ok ()
  | m :: rest =>
    if m.name ∈ seen then .error (.duplicateMethod className m.name)
    else if m.params.head? ≠ some receiverName then .error (.missingReceiver className m.name)
    else checkSignatures className (m.name :: seen) rest

mutual

/-- Checks an expression. Arguments come before the callable they are for. -/
def checkExpr (σ : Scope) : Expr → Except ScopeError Unit
  | .number _ => .ok ()
  | .boolean _ => .ok ()
  | .variable name => σ.requireVisible name
  | .arith _ left right => do
    checkExpr σ left
    checkExpr σ right
  | .compare _ left right => do
    checkExpr σ left
    checkExpr σ right
  | .call name args => do
    checkExprs σ args
    σ.requireCallable name args.length
  | .list items => checkExprs σ items
  | .index name position => do
    σ.requireVisible name
    checkExpr σ position
  | .member object _ => σ.requireVisible object
  | .methodCall object _ args => do
    σ.requireVisible object
    checkExprs σ args

def checkExprs (σ : Scope) : List Expr → Except ScopeError Unit
  | [] => .ok ()
  | e :: es => do
    checkExpr σ e
    checkExprs σ es

end

mutual

/-- Checks a statement and gives the scope behind it. -/
def checkStmt (inRoutine : Bool) (σ : Scope) : Stmt → Except ScopeError Scope
  | .assign name value => do
    checkExpr σ value
    return σ.declare name
  | .assignIndex name position value => do
    σ.requireVisible name
    checkExpr σ position
    checkExpr σ value
    return σ
  | .assignAttribute object _ value => do
    σ.requireVisible object
    checkExpr σ value
    return σ
  | .print value => do
    checkExpr σ value
    return σ
  | .expr value => do
    checkExpr σ value
    return σ
  | .ifElse condition body orelse => do
    checkExpr σ condition
    let σ₁ := σ.leave (← checkBlock inRoutine σ body)
    return σ₁.leave (← checkBlock inRoutine σ₁ orelse)
  | .whileLoop condition body => do
    checkExpr σ condition
    return σ.leave (← checkBlock inRoutine σ body)
  | .forRange name start stop body => do
    checkExpr σ start
    checkExpr σ stop
    return σ.leave (← checkBlock inRoutine (σ.declare name) body)
  | .define routine =>
    if inRoutine then .error (.nestedDefinition routine.name)
    else if σ.callables.has routine.name then .error (.duplicateFunction routine.name)
    else do
      let σ := σ.register routine.name routine.params.length
      checkRoutine σ routine
      return σ
  | .defineClass definition =>
    if inRoutine then .error (.nestedDefinition definition.name)
    else if σ.callables.has definition.name then .error (.duplicateClass definition.name)
    else do
      checkSignatures definition.name [] definition.methods
      let σ := σ.register definition.name definition.constructorArity
      checkClass σ definition
      return σ
  | .return value =>
    if inRoutine then
      match value with
      | none => .ok σ
      | some e => do
        checkExpr σ e
        return σ
    else .error .returnOutsideFunction
  | .pass => .ok σ

def checkBlock (inRoutine : Bool) (σ : Scope) : List Stmt → Except ScopeError Scope
  | [] => .ok σ
  | s :: ss => do
    let σ ← checkStmt inRoutine σ s
    checkBlock inRoutine σ ss

/-- Checks the body of a routine, which defines nothing. -/
def checkRoutine (σ : Scope) : Routine (List Stmt) → Except ScopeError Unit
  | ⟨_, params, body⟩ => do
    let _ ← checkBlock true (σ.enter params) body
    return ()

def checkMethods (σ : Scope) : List (Routine (List Stmt)) → Except ScopeError Unit
  | [] => .ok ()
  | m :: ms => do
    checkRoutine σ m
    checkMethods σ ms

def checkClass (σ : Scope) : Class (List Stmt) → Except ScopeError Unit
  | ⟨_, methods⟩ => checkMethods σ methods

end

end Scope

/-- Checks a program. -/
def checkScopes (program : Block) : Except ScopeError Unit := do
  let _ ← Scope.checkBlock false .initial program
  return ()

end Offside
