/-!
Decimal text of doubles. `Dyadic` is the exact magnitude of a finite double, `Dyadic.shortest` the
decimal of the coarsest power-of-ten grid that still reads back as that double, and
`Decimal.positional` and `Decimal.scientific` write a decimal out.
-/

set_option autoImplicit false
set_option relaxedAutoImplicit false

namespace Offside

/-- The number `digits * 10 ^ exponent`. -/
structure Decimal where
  digits : Nat
  exponent : Int
  deriving DecidableEq

namespace Decimal

/-- `n` zeros. -/
def zeros (n : Nat) : String :=
  String.ofList (List.replicate n '0')

/-- All digits of the decimal, with zeros filled in up to the point and never an exponent. -/
def positional (d : Decimal) : String :=
  let text := toString d.digits
  match d.exponent with
  | .ofNat e => text ++ zeros e
  | .negSucc k =>
    let places := k + 1
    let all := (zeros (places + 1 - text.length) ++ text).toList
    let split := all.length - places
    String.ofList (all.take split) ++ "." ++ String.ofList (all.drop split)

/-- One digit before the point, and the power of ten behind an `e`. -/
def scientific (d : Decimal) : String :=
  let text := (toString d.digits).toList
  let power := d.exponent + text.length - 1
  let fraction := text.drop 1
  String.ofList (text.take 1) ++ (if fraction.isEmpty then "" else "." ++ String.ofList fraction) ++
    "e" ++ toString power

end Decimal

/-- The magnitude `mantissa * 2 ^ exponent` of a finite double, with the mantissa and the exponent
that its format stores. -/
structure Dyadic where
  mantissa : Nat
  exponent : Int
  deriving DecidableEq

namespace Dyadic

/-- The bit in front of the stored fraction of a normal double, `2 ^ 52`. -/
def hiddenBit : Nat := 0x10000000000000

/-- The least exponent of a double. -/
def minExponent : Int := -1074

/-- The magnitude of a double, from the fields of its bit pattern; meant for finite doubles. -/
def ofFloat (x : Float) : Dyadic :=
  let bits : Nat := x.toBits.toNat
  let fraction : Nat := bits % hiddenBit
  let biased : Nat := bits / hiddenBit % 0x800
  if biased = 0 then ⟨fraction, minExponent⟩
  else ⟨hiddenBit + fraction, minExponent + biased - 1⟩

/-- The value as an integer, if it is one. -/
def toNat? (v : Dyadic) : Option Nat :=
  match v.exponent with
  | .ofNat e => some (v.mantissa <<< e)
  | .negSucc k =>
    let whole := v.mantissa >>> (k + 1)
    if whole <<< (k + 1) = v.mantissa then some whole else none

/-- The reals that round to a double, and the double itself, in units of a quarter of its last
place: from `low` to `high`, the ends included when the mantissa is even. The step below a power of
two is half as wide as the step above it. -/
structure Rounding where
  low : Nat
  centre : Nat
  high : Nat
  closed : Bool

def rounding (v : Dyadic) : Rounding where
  low := 4 * v.mantissa - (if v.mantissa = hiddenBit ∧ minExponent < v.exponent then 1 else 2)
  centre := 4 * v.mantissa
  high := 4 * v.mantissa + 2
  closed := v.mantissa % 2 = 0

/-- The value of the power `base ^ exponent` as a numerator and a denominator. -/
def ratio (base : Nat) : Int → Nat × Nat
  | .ofNat e => (base.pow e, 1)
  | .negSucc k => (1, base.pow (k + 1))

/-- The point nearest to the double on the grid of multiples of `10 ^ exponent`, among its two
neighbours there that read back as the double; of two equally near ones the upper. -/
def nearestOnGrid? (v : Dyadic) (exponent : Int) : Option Nat :=
  let r := v.rounding
  let unit := ratio 2 (v.exponent - 2)
  let grid := ratio 10 exponent
  let scale := unit.1 * grid.2
  let step := grid.1 * unit.2
  let readsBack (n : Nat) : Bool :=
    if r.closed then r.low * scale ≤ n * step ∧ n * step ≤ r.high * scale
    else r.low * scale < n * step ∧ n * step < r.high * scale
  let lower := r.centre * scale / step
  let upper := lower + 1
  if readsBack lower then
    if readsBack upper && upper * step - r.centre * scale ≤ r.centre * scale - lower * step then
      some upper
    else some lower
  else if readsBack upper then some upper
  else none

/-- The first grid from `10 ^ exponent` downwards, at most `count` grids on, that has a point which
reads back as the double. -/
def coarsest (v : Dyadic) (exponent : Int) : Nat → Decimal
  | 0 => ⟨0, exponent⟩
  | count + 1 =>
    match v.nearestOnGrid? exponent with
    | some digits => ⟨digits, exponent⟩
    | none => v.coarsest (exponent - 1) count

/-- The decimal of fewest digits that reads back as the double, and of those the nearest to it. The
search starts above the value and would end at the grid of the least double's last digit, on which
every double lies. -/
def shortest (v : Dyadic) : Decimal :=
  if v.mantissa = 0 then ⟨0, 0⟩
  else
    let top := (v.exponent + 53) * 30103 / 100000 + 1
    v.coarsest top (top - minExponent + 1).toNat

end Dyadic

end Offside
