import Offside.Bindings
import Offside.Number.Text
import Offside.Syntax

/-!
Stack code: the instructions of the machine, the code of routines and classes, and an executable
that holds all code of a program. A jump names the place in its own block where execution goes on;
the length of the block is the place behind its end.
-/

set_option autoImplicit false
set_option relaxedAutoImplicit false

namespace Offside

/-- A value that an instruction can hold. -/
inductive Constant
  | number (value : Number)
  | boolean (value : Bool)
  | none
  deriving DecidableEq

/-- An instruction. Operands are taken from the top of the stack, the last one first. -/
inductive Instr
  | loadConstant (value : Constant)
  | loadVariable (name : String)
  | storeVariable (name : String)
  | arith (op : ArithOp)
  | compare (op : CompareOp)
  | print
  | jump (target : Nat)
  | jumpIfFalse (target : Nat)
  | buildList (count : Nat)
  | loadIndex
  | storeIndex
  | defineFunction (name : String)
  | callFunction (name : String) (count : Nat)
  | returnValue
  | defineClass (name : String)
  | loadAttribute (name : String)
  | storeAttribute (name : String)
  | callMethod (name : String) (count : Nat)
  | pop
  deriving DecidableEq

/-- A block of instructions. -/
abbrev Code := Array Instr

/-- A class with the code of its methods, each under its name. -/
structure ClassCode where
  name : String
  methods : Bindings (Routine Code)

/-- The code of a program: its main block, and the routines and classes that it may define. -/
structure Executable where
  main : Code
  functions : Bindings (Routine Code)
  classes : Bindings ClassCode

/-- Whether every jump leads into the block or right behind its end. -/
def Code.jumpsInBounds (code : Code) : Bool :=
  code.all fun
    | .jump target => target ≤ code.size
    | .jumpIfFalse target => target ≤ code.size
    | _ => true

theorem Code.jumpsInBounds_iff {code : Code} :
    code.jumpsInBounds = true ↔
      ∀ target, (.jump target ∈ code ∨ .jumpIfFalse target ∈ code) → target ≤ code.size := by
  simp only [jumpsInBounds, Array.all_eq_true']
  constructor
  · rintro h target (hmem | hmem)
    · simpa using h _ hmem
    · simpa using h _ hmem
  · intro h instr hmem
    split
    · exact decide_eq_true (h _ (.inl hmem))
    · exact decide_eq_true (h _ (.inr hmem))
    · rfl

namespace Constant

def text : Constant → String
  | .number n => n.text
  | .boolean true => "True"
  | .boolean false => "False"
  | .none => "None"

end Constant

namespace Instr

def arithText : ArithOp → String
  | .add => "ADD"
  | .sub => "SUB"
  | .mul => "MUL"
  | .div => "DIV"

def text : Instr → String
  | .loadConstant value => "LOAD_CONST " ++ value.text
  | .loadVariable name => "LOAD_VAR " ++ name
  | .storeVariable name => "STORE_VAR " ++ name
  | .arith op => arithText op
  | .compare op => "COMPARE " ++ op.symbol
  | .print => "PRINT"
  | .jump target => "JUMP " ++ toString target
  | .jumpIfFalse target => "JUMP_IF_FALSE " ++ toString target
  | .buildList count => "BUILD_LIST " ++ toString count
  | .loadIndex => "LOAD_INDEX"
  | .storeIndex => "STORE_INDEX"
  | .defineFunction name => "DEFINE_FUNCTION " ++ name
  | .callFunction name count => "CALL_FUNCTION " ++ name ++ " " ++ toString count
  | .returnValue => "RETURN_VALUE"
  | .defineClass name => "DEFINE_CLASS " ++ name
  | .loadAttribute name => "LOAD_ATTR " ++ name
  | .storeAttribute name => "STORE_ATTR " ++ name
  | .callMethod name count => "CALL_METHOD " ++ name ++ " " ++ toString count
  | .pop => "POP"

end Instr

/-- The lines of a block: each instruction behind its place, which is set right in four columns. -/
def Code.listing (code : Code) : List String :=
  code.toList.zipIdx.map fun (instr, place) ↦
    let digits := toString place
    String.ofList (List.replicate (4 - digits.length) ' ') ++ digits ++ "  " ++ instr.text

/-- The heading of a routine in a listing. -/
def Routine.heading {Body : Type} (kind : String) (r : Routine Body) : String :=
  kind ++ " " ++ r.name ++ "(" ++ ", ".intercalate r.params ++ "):"

def Routine.listing (kind : String) (r : Routine Code) : List String :=
  r.heading kind :: Code.listing r.body

def ClassCode.listing (c : ClassCode) : List String :=
  ("class " ++ c.name ++ ":") ::
    (c.methods.sorted.flatMap fun (_, m) ↦ m.listing "method").map ("  " ++ ·)

/-- The lines of an executable: the main block, the functions, and the classes with their methods,
each in the order of names. -/
def Executable.listing (e : Executable) : List String :=
  "main:" :: Code.listing e.main ++
    e.functions.sorted.flatMap (fun (_, f) ↦ f.listing "function") ++
    e.classes.sorted.flatMap (fun (_, c) ↦ c.listing)

end Offside
