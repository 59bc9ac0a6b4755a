import Offside.Number.Text
import Offside.Syntax

/-!
The outline of a tree: one node or field a line, nested ones indented, every item closed by a comma.
It is how a program's tree is shown to a person.
-/

set_option autoImplicit false
set_option relaxedAutoImplicit false

namespace Offside

/-- A tree of labelled items between an opening and a closing text. -/
inductive Outline
  | leaf (text : String)
  | node (opening closing : String) (items : List (String × Outline))

namespace Outline

/-- Puts a label before the first line, a comma behind the last, and indents all. -/
def nested (label : String) : List String → List String
  | [] => []
  | [line] => ["    " ++ label ++ line ++ ","]
  | line :: rest =>
    ("    " ++ label ++ line) :: rest.dropLast.map ("    " ++ ·) ++
      rest.getLast?.toList.map fun last ↦ "    " ++ last ++ ","

mutual

/-- The lines of an outline. A node without items takes one line. -/
def lines : Outline → List String
  | leaf text => [text]
  | node opening closing [] => [opening ++ closing]
  | node opening closing items => opening :: linesOfItems items ++ [closing]

def linesOfItems : List (String × Outline) → List String
  | [] => []
  | (label, item) :: rest => nested label item.lines ++ linesOfItems rest

end

/-- A node with named fields. -/
def record (name : String) (fields : List (String × Outline)) : Outline :=
  node (name ++ " \x7b") "\x7d" (fields.map fun (label, item) ↦ (label ++ ": ", item))

/-- A node with fields known by their place. -/
def tagged (name : String) (items : List Outline) : Outline :=
  node (name ++ "(") ")" (items.map fun item ↦ ("", item))

def sequence (items : List Outline) : Outline :=
  node "[" "]" (items.map fun item ↦ ("", item))

def quoted (text : String) : Outline :=
  leaf ("\"" ++ text ++ "\"")

def option : Option Outline → Outline
  | none => leaf "None"
  | some item => tagged "Some" [item]

end Outline

def ArithOp.outline : ArithOp → Outline
  | .add => .leaf "Add"
  | .sub => .leaf "Sub"
  | .mul => .leaf "Mul"
  | .div => .leaf "Div"

def CompareOp.outline : CompareOp → Outline
  | .eq => .leaf "Eq"
  | .ne => .leaf "NotEq"
  | .lt => .leaf "Lt"
  | .gt => .leaf "Gt"
  | .le => .leaf "LtEq"
  | .ge => .leaf "GtEq"

def Number.outline : Number → Outline
  | .int i => .tagged "Int" [.leaf (toString i.toInt)]
  | .float x => .tagged "Float" [.leaf (floatOutline x)]

mutual

def Expr.outline : Expr → Outline
  | .number n => .tagged "Number" [n.outline]
  | .boolean b => .tagged "Boolean" [.leaf (toString b)]
  | .variable name => .tagged "Variable" [.quoted name]
  | .arith op left right =>
    .record "BinaryOp" [("left", left.outline), ("op", op.outline), ("right", right.outline)]
  | .compare op left right =>
    .record "Compare" [("left", left.outline), ("op", op.outline), ("right", right.outline)]
  | .call name args => .record "Call" [("name", .quoted name), ("args", outlineOfExprs args)]
  | .list items => .tagged "List" [outlineOfExprs items]
  | .index name position =>
    .record "Index" [("name", .quoted name), ("index", position.outline)]
  | .member object name =>
    .record "Attribute" [("object", .quoted object), ("name", .quoted name)]
  | .methodCall object method args =>
    .record "MethodCall"
      [("object", .quoted object), ("method", .quoted method), ("args", outlineOfExprs args)]

def outlineOfExprs (es : List Expr) : Outline :=
  .sequence (outlinesOfExprs es)

def outlinesOfExprs : List Expr → List Outline
  | [] => []
  | e :: es => e.outline :: outlinesOfExprs es

end

mutual

def Stmt.outline : Stmt → Outline
  | .assign name value =>
    .record "Assign" [("name", .quoted name), ("value", value.outline)]
  | .assignIndex name position value =>
    .record "IndexAssign"
      [("name", .quoted name), ("index", position.outline), ("value", value.outline)]
  | .assignAttribute object name value =>
    .record "AttributeAssign"
      [("object", .quoted object), ("name", .quoted name), ("value", value.outline)]
  | .print value => .tagged "Print" [value.outline]
  | .ifElse condition body orelse =>
    .record "If"
      [("condition", condition.outline), ("body", .sequence (outlinesOfBlock body)),
        ("else_body", .sequence (outlinesOfBlock orelse))]
  | .whileLoop condition body =>
    .record "While"
      [("condition", condition.outline), ("body", .sequence (outlinesOfBlock body))]
  | .forRange name start stop body =>
    .record "For"
      [("variable", .quoted name), ("start", start.outline), ("end", stop.outline),
        ("body", .sequence (outlinesOfBlock body))]
  | .define routine => .tagged "FunctionDef" [outlineOfRoutine routine]
  | .defineClass definition => .tagged "ClassDef" [outlineOfClass definition]
  | .return none => .tagged "Return" [.option none]
  | .return (some value) => .tagged "Return" [.option (some value.outline)]
  | .expr value => .tagged "Expr" [value.outline]
  | .pass => .leaf "Pass"

def outlinesOfBlock : List Stmt → List Outline
  | [] => []
  | s :: ss => s.outline :: outlinesOfBlock ss

def outlineOfRoutine : Routine (List Stmt) → Outline
  | ⟨name, params, body⟩ =>
    .record "FunctionDef"
      [("name", .quoted name), ("params", .sequence (params.map .quoted)),
        ("body", .sequence (outlinesOfBlock body))]

def outlinesOfMethods : List (Routine (List Stmt)) → List Outline
  | [] => []
  | m :: ms => outlineOfRoutine m :: outlinesOfMethods ms

def outlineOfClass : Class (List Stmt) → Outline
  | ⟨name, methods⟩ =>
    .record "ClassDef" [("name", .quoted name), ("methods", .sequence (outlinesOfMethods methods))]

end

/-- The lines of a whole program's outline. -/
def outlineLines (program : Block) : List String :=
  Outline.lines (.record "Program" [("statements", .sequence (outlinesOfBlock program))])

end Offside
