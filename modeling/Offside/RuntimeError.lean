import Offside.Number

/-!
Why a run ends before its program does, or why an operation on values has no result.
-/

set_option autoImplicit false
set_option relaxedAutoImplicit false

namespace Offside

/-- The cause that ends a run. Types are given by their names. -/
inductive RuntimeError
  | divisionByZero
  | integerOverflow
  | typeMismatch (operation left right : String)
  | expectedList (operation found : String)
  | expectedInteger (found : String)
  | indexOutOfRange (index : Int) (length : Nat)
  | undefinedFunction (name : String)
  | unknownMethod (method typeName : String)
  | unknownAttribute (name typeName : String)
  | arityMismatch (name : String) (expected found : Nat)
  | undefinedVariable (name : String)
  | returnOutsideFunction
  | stackUnderflow
  | invalidJumpTarget (target length : Nat)
  | stepLimitExceeded (limit : Nat)
  | callDepthExceeded (limit : Nat)
  deriving DecidableEq

namespace RuntimeError

def ofArithmetic : ArithmeticError → RuntimeError
  | .divisionByZero => .divisionByZero
  | .overflow => .integerOverflow

def message : RuntimeError → String
  | .divisionByZero => "Division by zero"
  | .integerOverflow => "Integer overflow"
  | .typeMismatch operation left right =>
    "Unsupported operand types for " ++ operation ++ ": " ++ left ++ " and " ++ right
  | .expectedList operation found => "'" ++ operation ++ "' expects a list, got " ++ found
  | .expectedInteger found => "List indices must be integers, got " ++ found
  | .indexOutOfRange index length =>
    "List index " ++ toString index ++ " out of range for length " ++ toString length
  | .undefinedFunction name => "Undefined function '" ++ name ++ "'"
  | .unknownMethod method typeName =>
    "Unknown method '" ++ method ++ "' for type " ++ typeName
  | .unknownAttribute name typeName =>
    "Unknown attribute '" ++ name ++ "' for type " ++ typeName
  | .arityMismatch name expected found =>
    "Function '" ++ name ++ "' expected " ++ toString expected ++ " arguments, got " ++
      toString found
  | .undefinedVariable name => "Undefined variable '" ++ name ++ "'"
  | .returnOutsideFunction => "Return outside of function"
  | .stackUnderflow => "Stack underflow"
  | .invalidJumpTarget target length =>
    "Jump target " ++ toString target ++ " outside block of length " ++ toString length
  | .stepLimitExceeded limit => "Step limit of " ++ toString limit ++ " exceeded"
  | .callDepthExceeded limit => "Maximum call depth of " ++ toString limit ++ " exceeded"

/-- How a run that ended in the error is reported. -/
def report (e : RuntimeError) : String :=
  "Runtime error: " ++ e.message

end RuntimeError

end Offside
