import Offside.Code

/-!
Three-address form: the top level of a program as a list of operations on temporaries and named
variables, with control flow through labels. A temporary is a hidden variable of its frame.
-/

set_option autoImplicit false
set_option relaxedAutoImplicit false

namespace Offside.ThreeAddress

/-- What an operation reads or an assignment writes: a temporary or a variable. -/
inductive Operand
  | temporary (number : Nat)
  | variable (name : String)
  deriving DecidableEq

/-- The variable that holds a temporary. -/
def slotOfTemporary (number : Nat) : String :=
  "%t" ++ toString number

/-- The variable that holds an operand. -/
def Operand.slot : Operand → String
  | .temporary number => slotOfTemporary number
  | .variable name => name

/-- An operation. `result` is the temporary that it writes. -/
inductive Op
  | constant (value : Constant) (result : Nat)
  | assign (source target : Operand)
  | arith (op : ArithOp) (left right : Operand) (result : Nat)
  | compare (op : CompareOp) (left right : Operand) (result : Nat)
  | print (value : Operand)
  | label (number : Nat)
  | jump (target : Nat)
  | jumpIfFalse (condition : Operand) (target : Nat)
  | buildList (items : List Operand) (result : Nat)
  | loadIndex (list : String) (position : Operand) (result : Nat)
  | storeIndex (list : String) (position value : Operand)
  | call (name : String) (args : List Operand) (result : Nat)
  | callMethod (object method : String) (args : List Operand) (result : Nat)
  | loadAttribute (object name : String) (result : Nat)
  | storeAttribute (object name : String) (value : Operand)
  | defineFunction (name : String)
  | defineClass (name : String)
  | returnValue (value : Option Operand)

/-- The three-address form of a program: the operations of its top level, and the definitions met
there, in order. -/
structure Form where
  ops : List Op
  functions : List (Routine Block)
  classes : List (Class Block)

def labelText (number : Nat) : String :=
  "L" ++ toString number

def operandsText (operands : List Operand) : String :=
  ", ".intercalate (operands.map Operand.slot)

/-- The text that gives a temporary a value. -/
def resultText (result : Nat) (value : String) : String :=
  slotOfTemporary result ++ " = " ++ value

def Op.text : Op → String
  | .constant value result => resultText result value.text
  | .assign source target => target.slot ++ " = " ++ source.slot
  | .arith op left right result =>
    resultText result (left.slot ++ " " ++ op.symbol ++ " " ++ right.slot)
  | .compare op left right result =>
    resultText result (left.slot ++ " " ++ op.symbol ++ " " ++ right.slot)
  | .print value => "print " ++ value.slot
  | .label number => labelText number ++ ":"
  | .jump target => "jump " ++ labelText target
  | .jumpIfFalse condition target => "jump_if_false " ++ condition.slot ++ " " ++ labelText target
  | .buildList items result => resultText result ("[" ++ operandsText items ++ "]")
  | .loadIndex list position result => resultText result (list ++ "[" ++ position.slot ++ "]")
  | .storeIndex list position value => list ++ "[" ++ position.slot ++ "] = " ++ value.slot
  | .call name args result => resultText result ("call " ++ name ++ "(" ++ operandsText args ++ ")")
  | .callMethod object method args result =>
    resultText result ("call " ++ object ++ "." ++ method ++ "(" ++ operandsText args ++ ")")
  | .loadAttribute object name result => resultText result (object ++ "." ++ name)
  | .storeAttribute object name value => object ++ "." ++ name ++ " = " ++ value.slot
  | .defineFunction name => "define function " ++ name
  | .defineClass name => "define class " ++ name
  | .returnValue none => "return"
  | .returnValue (some value) => "return " ++ value.slot

/-- An operation on a line of its own; all but labels are indented. -/
def Op.line : Op → String
  | .label number => (Op.label number).text
  | op => "    " ++ op.text

/-- The lines of operations. -/
def listing (ops : List Op) : List String :=
  ops.map Op.line

end Offside.ThreeAddress
