/-!
Natural numbers read from decimal text, with the cause of a failure. The leftmost fault decides: a
character that is no digit, or the digit with which the number reaches its limit.
-/

set_option autoImplicit false
set_option relaxedAutoImplicit false

namespace Offside.Text

/-- Why a text is no natural number below a limit. -/
inductive NaturalError
  | empty
  | invalidDigit
  | tooLarge
  deriving DecidableEq

namespace NaturalError

def message : NaturalError → String
  | .empty => "cannot parse integer from empty string"
  | .invalidDigit => "invalid digit found in string"
  | .tooLarge => "number too large to fit in target type"

end NaturalError

/-- Reads the digits of ASCII from the left onto `value`, below `limit`. -/
def extendNatural (limit : Nat) : Nat → List Char → Except NaturalError Nat
  | value, [] => .ok value
  | value, c :: cs =>
    if c.isDigit then
      let next := 10 * value + (c.toNat - '0'.toNat)
      if next < limit then extendNatural limit next cs else .error .tooLarge
    else .error .invalidDigit

/-- Reads a natural number below `limit`; at least one digit is needed, and a plus sign may stand in
front. -/
def natural (limit : Nat) : List Char → Except NaturalError Nat
  | [] => .error .empty
  | ['+'] => .error .invalidDigit
  | '+' :: cs => extendNatural limit 0 cs
  | cs => extendNatural limit 0 cs

/-- Reads a natural number of at most 64 bits. -/
def natural64 (cs : List Char) : Except NaturalError Nat :=
  natural UInt64.size cs

end Offside.Text
