/-!
# Binary floating point numbers

A `Binary64` is given by the 64 bits of its IEEE 754 encoding.  `Binary64.ofDecimal` rounds a
decimal number to the nearest one, a tie to the even one, in exact integer arithmetic.
-/

namespace FlowTyping

/-- A 64-bit binary floating point number, by its encoding: sign, exponent, significand. -/
structure Binary64 where
  bits : UInt64
deriving DecidableEq, Repr

namespace Binary64

/-- The encoding of positive infinity; everything from here on is no finite positive number. -/
def infinityBits : Nat := 0x7ff * Nat.pow 2 52

def infinity : Binary64 := ⟨infinityBits.toUInt64⟩

/-- The outcome of an undefined operation. -/
def undefined : Binary64 := ⟨0x7ff8000000000000⟩

/-- `num / den` rounded to the nearest integer, a tie to the even one. -/
def roundDiv (num den : Nat) : Nat :=
  let q := num / den
  let r := num % den
  if 2 * r < den then q
  else if den < 2 * r then q + 1
  else q + q % 2

/-- The exponent of the least power of two that a significand for `num / den` counts in: with it the
significand has 53 bits, or the number is so small that fewer are left. -/
def scaleOf (num den : Nat) : Int :=
  let guess : Int := (Nat.log2 num : Int) - (Nat.log2 den : Int) - 53
  let wide (q : Int) : Bool := den * Nat.pow 2 (53 + q.toNat) ≤ num * Nat.pow 2 (-q).toNat
  max (-1074) (if wide guess then guess + 1 else guess)

/-- The encoding of the positive number nearest to `num / den`, for positive `num` and `den`. -/
def ratioBits (num den : Nat) : Nat :=
  let q := scaleOf num den
  let significand := roundDiv (num * Nat.pow 2 (-q).toNat) (den * Nat.pow 2 q.toNat)
  min infinityBits ((q + 1074).toNat * Nat.pow 2 52 + significand)

/-- The number nearest to `digits · 10 ^ exponent`; infinity where that is nearest.  Two tests keep
the powers of ten small: beyond them the answer is infinity or zero whatever the digits are. -/
def ofDecimal (digits : Nat) (exponent : Int) : Binary64 :=
  if digits = 0 then ⟨0⟩
  else if 400 < exponent then infinity
  else if exponent + Nat.log2 digits < -400 then ⟨0⟩
  else ⟨(ratioBits (digits * Nat.pow 10 exponent.toNat) (Nat.pow 10 (-exponent).toNat)).toUInt64⟩

/-- The number of the other sign. -/
def neg (x : Binary64) : Binary64 := ⟨x.bits ^^^ 0x8000000000000000⟩

def isNegative (x : Binary64) : Bool := 0x8000000000000000 ≤ x.bits

/-- Neither an infinity nor the outcome of an undefined operation. -/
def isFinite (x : Binary64) : Bool := x.bits.toNat % Nat.pow 2 63 < infinityBits

end Binary64

end FlowTyping
