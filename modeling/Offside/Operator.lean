/-!
The operators of expressions: four of arithmetic and six comparisons, with their spellings.
-/

set_option autoImplicit false
set_option relaxedAutoImplicit false

namespace Offside

/-- An arithmetic operator. -/
inductive ArithOp
  | add
  | sub
  | mul
  | div
  deriving DecidableEq

/-- A comparison operator. -/
inductive CompareOp
  | eq
  | ne
  | lt
  | gt
  | le
  | ge
  deriving DecidableEq

namespace ArithOp

/-- How the operator is written in source text. -/
def symbol : ArithOp → String
  | .add => "+"
  | .sub => "-"
  | .mul => "*"
  | .div => "/"

end ArithOp

namespace CompareOp

/-- How the operator is written in source text. -/
def symbol : CompareOp → String
  | .eq => "=="
  | .ne => "!="
  | .lt => "<"
  | .gt => ">"
  | .le => "<="
  | .ge => ">="

/-- Whether the comparison accepts two operands that stand in the given order. -/
def accepts : CompareOp → Ordering → Bool
  | .eq, o => o = .eq
  | .ne, o => o ≠ .eq
  | .lt, o => o = .lt
  | .gt, o => o = .gt
  | .le, o => o ≠ .gt
  | .ge, o => o ≠ .lt

theorem accepts_ne (o : Ordering) : accepts .ne o = !accepts .eq o := by
  cases o <;> rfl

end CompareOp

end Offside
