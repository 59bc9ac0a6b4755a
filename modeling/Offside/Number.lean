import Offside.Operator

/-!
Numbers: 64-bit integers and doubles, under one arithmetic. Sums, differences and products of two
integers are exact or fail (`ofInt?`); division is always division of doubles; any other pair of
operands is promoted to doubles. Literals folded ahead of a run and operands met during it go
through the same `Number.apply`.
-/

set_option autoImplicit false
set_option relaxedAutoImplicit false

namespace Offside

/-- A number of the language. Equality of `Number`s is equality of representation; the language's
own `==` is `Number.compare .eq`. -/
inductive Number
  | int (value : Int64)
  | float (value : Float)
  deriving DecidableEq

/-- Why an arithmetic operation has no result. -/
inductive ArithmeticError
  | divisionByZero
  | overflow
  deriving DecidableEq

namespace ArithmeticError

def message : ArithmeticError → String
  | .divisionByZero => "division by zero"
  | .overflow => "integer overflow"

end ArithmeticError

namespace Number

instance : Inhabited Number := ⟨.int 0⟩

/-- The nearest double. -/
def toFloat : Number → Float
  | .int i => Float.ofInt i.toInt
  | .float f => f

def isZero : Number → Bool
  | .int i => i = 0
  | .float f => f == 0

/-- Every number but zero counts as true, not-a-number included. -/
def isTruthy (a : Number) : Bool :=
  !a.isZero

/-- The integer `z`, which must fit into 64 bits. -/
def ofInt? (z : Int) : Except ArithmeticError Number :=
  if Int64.minValue.toInt ≤ z ∧ z ≤ Int64.maxValue.toInt then .ok (.int (.ofInt z))
  else .error .overflow

theorem ofInt?_toInt (i : Int64) : ofInt? i.toInt = .ok (.int i) := by
  rw [ofInt?, if_pos ⟨i.minValue_le_toInt, i.toInt_le⟩, Int64.ofInt_toInt]

/-- The result of an arithmetic operator on two numbers. -/
def apply : ArithOp → Number → Number → Except ArithmeticError Number
  | .div, a, b => if b.isZero then .error .divisionByZero else .ok (.float (a.toFloat / b.toFloat))
  | .add, .int i, .int j => ofInt? (i.toInt + j.toInt)
  | .sub, .int i, .int j => ofInt? (i.toInt - j.toInt)
  | .mul, .int i, .int j => ofInt? (i.toInt * j.toInt)
  | .add, a, b => .ok (.float (a.toFloat + b.toFloat))
  | .sub, a, b => .ok (.float (a.toFloat - b.toFloat))
  | .mul, a, b => .ok (.float (a.toFloat * b.toFloat))

/-- How two doubles stand to each other; not-a-number stands in no order to anything. -/
def floatOrder (x y : Float) : Option Ordering :=
  if x < y then some .lt
  else if x == y then some .eq
  else if y < x then some .gt
  else none

/-- How two numbers stand to each other: integers exactly, any other pair as doubles. -/
def order : Number → Number → Option Ordering
  | .int i, .int j => some (Ord.compare i.toInt j.toInt)
  | a, b => floatOrder a.toFloat b.toFloat

/-- The truth of a comparison. Numbers that stand in no order are unequal, and nothing else. -/
def compare (op : CompareOp) (a b : Number) : Bool :=
  match order a b with
  | some o => op.accepts o
  | none => op = .ne

theorem compare_ne (a b : Number) : compare .ne a b = !compare .eq a b := by
  unfold compare
  split
  · exact CompareOp.accepts_ne _
  · rfl

end Number

end Offside
