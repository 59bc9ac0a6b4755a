import Offside.Number

/-!
The tree of a program. Every stage after the reading of source text works on these types: the scope
check, the simplifier, both lowerings and the tree walk.
-/

set_option autoImplicit false
set_option relaxedAutoImplicit false

namespace Offside

/-- A named body with parameters: a function or a method. -/
structure Routine (Body : Type) where
  name : String
  params : List String
  body : Body

/-- A named collection of methods. -/
structure Class (Body : Type) where
  name : String
  methods : List (Routine Body)

/-- The method that runs when an instance is made. -/
def constructorName : String := "__init__"

/-- The first parameter of every method. -/
def receiverName : String := "self"

namespace Class

variable {Body : Type}

/-- The first method of the given name. -/
def method? (c : Class Body) (name : String) : Option (Routine Body) :=
  c.methods.find? fun m ↦ m.name = name

/-- How many arguments make an instance: the parameters of the constructor without the receiver. -/
def constructorArity (c : Class Body) : Nat :=
  match c.method? constructorName with
  | some m => m.params.length - 1
  | none => 0

end Class

/-- An expression. Access by index, attribute or method starts from a name and is one hop long. -/
inductive Expr
  | number (value : Number)
  | boolean (value : Bool)
  | variable (name : String)
  | arith (op : ArithOp) (left right : Expr)
  | compare (op : CompareOp) (left right : Expr)
  | call (name : String) (args : List Expr)
  | list (items : List Expr)
  | index (name : String) (position : Expr)
  | member (object name : String)
  | methodCall (object method : String) (args : List Expr)

instance : Inhabited Expr := ⟨.boolean false⟩

/-- A statement. A conditional without an `else` has the empty block there; the loop counts from
`start` up to but not including `stop`. -/
inductive Stmt
  | assign (name : String) (value : Expr)
  | assignIndex (name : String) (position value : Expr)
  | assignAttribute (object name : String) (value : Expr)
  | print (value : Expr)
  | ifElse (condition : Expr) (body orelse : List Stmt)
  | whileLoop (condition : Expr) (body : List Stmt)
  | forRange (name : String) (start stop : Expr) (body : List Stmt)
  | define (routine : Routine (List Stmt))
  | defineClass (definition : Class (List Stmt))
  | return (value : Option Expr)
  | expr (value : Expr)
  | pass

/-- A sequence of statements; a program is one. -/
abbrev Block := List Stmt

end Offside
