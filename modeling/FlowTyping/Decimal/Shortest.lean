import FlowTyping.Decimal.Binary64

/-!
# Shortest decimal digits

The decimal number with the fewest digits among those that round to a given binary number, of
several such the nearest one, and of two equally near the one with an even last digit.  The search
compares exactly, in natural numbers: the numbers that round to the given one form an interval
around it, and if a decimal grid has a point in it then the given number's lower or upper neighbour
on the grid is one.
-/

namespace FlowTyping

/-- A positive decimal number, `digits · 10 ^ exponent`. -/
structure ShortDecimal where
  digits : Nat
  exponent : Int
deriving DecidableEq, Repr

namespace Binary64

/-- The significand and the exponent of a positive finite number, which is
`significand · 2 ^ exponent`. -/
def parts (x : Binary64) : Nat × Int :=
  let field : Nat := x.bits.toNat / Nat.pow 2 52 % Nat.pow 2 11
  let fraction : Nat := x.bits.toNat % Nat.pow 2 52
  if field = 0 then (fraction, -1074) else (Nat.pow 2 52 + fraction, Int.ofNat field - 1075)

/-- The decimal numbers that round to a binary number, as an interval around it.  All three fields
count in units of `1 / unit`. -/
structure Rounding where
  low : Nat
  value : Nat
  high : Nat
  unit : Nat
  /-- Whether the ends belong to the interval. -/
  closed : Bool

/-- The interval of a positive finite number.  Below a power of two the neighbours stand closer. -/
def rounding (x : Binary64) : Rounding :=
  let (significand, exponent) := x.parts
  let scale := Nat.pow 2 (exponent - 2).toNat
  let below := if significand = Nat.pow 2 52 ∧ -1074 < exponent then 1 else 2
  { low := (4 * significand - below) * scale
    value := 4 * significand * scale
    high := (4 * significand + 2) * scale
    unit := Nat.pow 2 (2 - exponent).toNat
    closed := significand % 2 == 0 }

/-- The exponent of the greatest power of ten that is not above the value. -/
def Rounding.magnitude (r : Rounding) : Int :=
  let binary : Int := (Nat.log2 r.value : Int) - Nat.log2 r.unit - 1
  let guess := Int.fdiv (binary * 30103) 100000
  let reaches (p : Int) : Bool := Nat.pow 10 p.toNat * r.unit ≤ r.value * Nat.pow 10 (-p).toNat
  if reaches (guess + 1) then guess + 1 else guess

/-- The point of the decimal grid with spacing `10 ^ exponent` that is in the interval and nearest
to the value, if there is one.  Of two points equally near, the even one counts as nearer. -/
def Rounding.pointOn (r : Rounding) (exponent : Int) : Option ShortDecimal :=
  let up := Nat.pow 10 (-exponent).toNat
  let down := r.unit * Nat.pow 10 exponent.toNat
  let inside (d : Nat) : Bool :=
    if r.closed then r.low * up ≤ d * down && d * down ≤ r.high * up
    else r.low * up < d * down && d * down < r.high * up
  let lower := r.value * up / down
  let doubled := 2 * (r.value * up % down)
  let nearer := if doubled < down ∨ doubled = down ∧ lower % 2 = 0 then lower else lower + 1
  let other := if nearer = lower then lower + 1 else lower
  if 0 < nearer ∧ inside nearer then some ⟨nearer, exponent⟩
  else if 0 < other ∧ inside other then some ⟨other, exponent⟩
  else none

/-- The shortest decimal number that rounds to a positive finite number. -/
def shortest (x : Binary64) : ShortDecimal :=
  let r := x.rounding
  let magnitude := r.magnitude
  ((List.range 18).findSome? fun (n : Nat) => r.pointOn (magnitude - n)).getD
    ⟨x.parts.1, x.parts.2⟩

end Binary64

end FlowTyping
