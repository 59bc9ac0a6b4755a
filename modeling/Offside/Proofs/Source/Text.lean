import Offside.Number.Text
import Offside.Syntax
import Offside.Token

/-!
The source text of a tree: one statement on each line, four blanks of indentation for each level of
nesting, and parentheses around every operation, so that nothing depends on precedence. How many
blanks stand around operators and behind commas, the `gap`, is left open. Not every tree can be
written down: there are no texts for negative numbers, doubles and empty blocks, and a loop always
counts from zero.
-/

set_option autoImplicit false
set_option relaxedAutoImplicit false

namespace Offside

/-! ### What can be written -/

/-- `[A-Za-z_][A-Za-z0-9_]*`, and no keyword. -/
def IsName (name : String) : Prop :=
  (name.toList.head?.any fun c ↦ c.isAlpha || c = '_') ∧
    (name.toList.all fun c ↦ c.isAlphanum || c = '_') ∧
    Keyword.all.all fun k ↦ k.spelling ≠ name

instance (name : String) : Decidable (IsName name) :=
  inferInstanceAs (Decidable (_ ∧ _ ∧ _))

mutual

/-- An expression of names and of integers that are not negative. -/
def Expr.Writable : Expr → Prop
  | .number (.int i) => 0 ≤ i.toInt
  | .number (.float _) => False
  | .boolean _ => True
  | .variable name => IsName name
  | .arith _ left right => left.Writable ∧ right.Writable
  | .compare _ left right => left.Writable ∧ right.Writable
  | .call name args => IsName name ∧ ExprsWritable args
  | .list items => ExprsWritable items
  | .index name position => IsName name ∧ position.Writable
  | .member object name => IsName object ∧ IsName name
  | .methodCall object method args => IsName object ∧ IsName method ∧ ExprsWritable args

def ExprsWritable : List Expr → Prop
  | [] => True
  | e :: es => e.Writable ∧ ExprsWritable es

end

mutual

/-- A statement of names and writable expressions. No block is empty but that of an `else`, and a
loop counts from zero. -/
def Stmt.Writable : Stmt → Prop
  | .assign name value => IsName name ∧ value.Writable
  | .assignIndex name position value => IsName name ∧ position.Writable ∧ value.Writable
  | .assignAttribute object name value => IsName object ∧ IsName name ∧ value.Writable
  | .print value => value.Writable
  | .ifElse condition body orelse =>
    condition.Writable ∧ (body ≠ [] ∧ BlockWritable body) ∧ BlockWritable orelse
  | .whileLoop condition body => condition.Writable ∧ body ≠ [] ∧ BlockWritable body
  | .forRange name start stop body =>
    IsName name ∧ start = .number (.int 0) ∧ stop.Writable ∧ body ≠ [] ∧ BlockWritable body
  | .define routine => RoutineWritable routine
  | .defineClass definition => ClassWritable definition
  | .return none => True
  | .return (some value) => value.Writable
  | .expr value => value.Writable
  | .pass => True

def BlockWritable : List Stmt → Prop
  | [] => True
  | s :: ss => s.Writable ∧ BlockWritable ss

def RoutineWritable : Routine (List Stmt) → Prop
  | ⟨name, params, body⟩ =>
    IsName name ∧ (∀ x ∈ params, IsName x) ∧ body ≠ [] ∧ BlockWritable body

def MethodsWritable : List (Routine (List Stmt)) → Prop
  | [] => True
  | m :: ms => RoutineWritable m ∧ MethodsWritable ms

def ClassWritable : Class (List Stmt) → Prop
  | ⟨name, methods⟩ => IsName name ∧ MethodsWritable methods

end

/-! ### How it is written -/

/-- As many blanks. -/
def blanks (n : Nat) : String :=
  String.ofList (List.replicate n ' ')

section

variable (gap : Nat)

/-- Items with commas between them. -/
def commaSeparated : List String → String
  | [] => ""
  | [item] => item
  | item :: items => item ++ "," ++ blanks gap ++ commaSeparated items

/-- Two operands with an operator between them. -/
def operation (left symbol right : String) : String :=
  left ++ blanks gap ++ symbol ++ blanks gap ++ right

mutual

/-- The text of an expression, where operations are in parentheses. -/
def Expr.source : Expr → String
  | .number n => n.text
  | .boolean true => "True"
  | .boolean false => "False"
  | .variable name => name
  | .arith op left right => "(" ++ operation gap left.source op.symbol right.source ++ ")"
  | .compare op left right => "(" ++ operation gap left.source op.symbol right.source ++ ")"
  | .call name args => name ++ "(" ++ commaSeparated gap (sourcesOfExprs args) ++ ")"
  | .list items => "[" ++ commaSeparated gap (sourcesOfExprs items) ++ "]"
  | .index name position => name ++ "[" ++ position.source ++ "]"
  | .member object name => object ++ "." ++ name
  | .methodCall object method args =>
    object ++ "." ++ method ++ "(" ++ commaSeparated gap (sourcesOfExprs args) ++ ")"

def sourcesOfExprs : List Expr → List String
  | [] => []
  | e :: es => e.source :: sourcesOfExprs es

end

/-- A line of the given level of nesting. -/
def sourceLine (level : Nat) (text : String) : String :=
  blanks (4 * level) ++ text ++ "\n"

/-- The text of an assignment. -/
def assignment (target : String) (value : Expr) : String :=
  operation gap target "=" (value.source gap)

mutual

/-- The lines of a statement at the given level of nesting. -/
def Stmt.source (level : Nat) : Stmt → String
  | .assign name value => sourceLine level (assignment gap name value)
  | .assignIndex name position value =>
    sourceLine level (assignment gap (name ++ "[" ++ position.source gap ++ "]") value)
  | .assignAttribute object name value =>
    sourceLine level (assignment gap (object ++ "." ++ name) value)
  | .print value => sourceLine level ("print(" ++ value.source gap ++ ")")
  | .ifElse condition body orelse =>
    sourceLine level ("if " ++ condition.source gap ++ ":") ++ sourceOfBlock (level + 1) body ++
      if orelse.isEmpty then ""
      else sourceLine level "else:" ++ sourceOfBlock (level + 1) orelse
  | .whileLoop condition body =>
    sourceLine level ("while " ++ condition.source gap ++ ":") ++ sourceOfBlock (level + 1) body
  | .forRange name _ stop body =>
    sourceLine level ("for " ++ name ++ " in range(" ++ stop.source gap ++ "):") ++
      sourceOfBlock (level + 1) body
  | .define routine => sourceOfRoutine level routine
  | .defineClass definition => sourceOfClass level definition
  | .return none => sourceLine level "return"
  | .return (some value) => sourceLine level ("return " ++ value.source gap)
  | .expr value => sourceLine level (value.source gap)
  | .pass => sourceLine level "pass"

def sourceOfBlock (level : Nat) : List Stmt → String
  | [] => ""
  | s :: ss => s.source level ++ sourceOfBlock level ss

def sourceOfRoutine (level : Nat) : Routine (List Stmt) → String
  | ⟨name, params, body⟩ =>
    sourceLine level ("def " ++ name ++ "(" ++ commaSeparated gap params ++ "):") ++
      sourceOfBlock (level + 1) body

def sourceOfMethods (level : Nat) : List (Routine (List Stmt)) → String
  | [] => ""
  | m :: ms => sourceOfRoutine level m ++ sourceOfMethods level ms

def sourceOfClass (level : Nat) : Class (List Stmt) → String
  | ⟨name, methods⟩ =>
    sourceLine level ("class " ++ name ++ ":") ++
      if methods.isEmpty then sourceLine (level + 1) "pass"
      else sourceOfMethods (level + 1) methods

end

end

end Offside
