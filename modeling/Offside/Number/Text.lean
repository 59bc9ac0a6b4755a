import Offside.Number
import Offside.Number.Decimal

/-!
The text of numbers. Printed by a program, a double that is a whole number below `10 ^ 16` shows one
decimal place and any other its shortest digits, never an exponent. In the outline of a tree very
large and very small doubles carry an exponent.
-/

set_option autoImplicit false
set_option relaxedAutoImplicit false

namespace Offside.Number

/-- Whether the sign bit of a double is set. -/
def isSigned (x : Float) : Bool :=
  0x8000000000000000 ≤ x.toBits

/-- The minus sign of a double whose sign bit is set. -/
def sign (x : Float) : String :=
  if isSigned x then "-" else ""

/-- The whole number, `10 ^ 16`, from which on doubles are not written with a decimal place. -/
def wholeLimit : Nat := 10000000000000000

/-- The text of a double as a program prints it. -/
def floatText (x : Float) : String :=
  if x.isNaN then "nan"
  else if x.isInf then sign x ++ "inf"
  else
    let magnitude := Dyadic.ofFloat x
    sign x ++
      match magnitude.toNat? with
      | some n => if n < wholeLimit then toString n ++ ".0" else magnitude.shortest.positional
      | none => magnitude.shortest.positional

/-- The text of a number as a program prints it. -/
def text : Number → String
  | .int i => toString i.toInt
  | .float x => floatText x

/-- The text of a double in the outline of a tree: with an exponent from `10 ^ 16` upwards and
below `10 ^ -4`, and otherwise with at least one decimal place. -/
def floatOutline (x : Float) : String :=
  if x.isNaN then "NaN"
  else if x.isInf then sign x ++ "inf"
  else
    let magnitude := Dyadic.ofFloat x
    sign x ++
      match magnitude.toNat? with
      | some n => if n < wholeLimit then toString n ++ ".0" else magnitude.shortest.scientific
      | none => if x.abs < 1e-4 then magnitude.shortest.scientific
                else magnitude.shortest.positional

end Offside.Number
