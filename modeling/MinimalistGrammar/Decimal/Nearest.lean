import MinimalistGrammar.Decimal.Power

/-!
# The double nearest to a decimal

A decimal is rounded to a double in exact integer arithmetic: the quotient is brought to 53 binary
places, or fewer below the normal range, and what is left over decides, with a half going to the
even neighbour.

## Main definitions

* `roundHalfEven` — the integer nearest to a quotient.
* `nearestBits` — the bits of the double nearest to a quotient.
* `decimalBits`, `nearest` — the double nearest to `digits * 10 ^ exponent`.
-/

namespace MinimalistGrammar
namespace Decimal

/-- The integer nearest to `num / den`; a half goes to the even neighbour. -/
def roundHalfEven (num den : Nat) : Nat :=
  let q := num / den
  let twice := 2 * (num % den)
  if twice < den then q
  else if twice == den then q + q % 2
  else q + 1

/-- The bits of positive infinity. -/
def infinityBits : Nat := 0x7FF * pow2 52

/-- `num / den / 2 ^ e`, rounded to an integer. -/
def scaled (num den : Nat) (e : Int) : Nat :=
  roundHalfEven (num * pow2 (-e).toNat) (den * pow2 e.toNat)

/-- The binary exponent of the last place of a double near `num / den`: with it the quotient has 53
binary places, or is subnormal. -/
def lastPlace (num den : Nat) : Int :=
  let e : Int := (num.log2 : Int) - den.log2 - 52
  -- the estimate from the logarithms is right or one too large
  let e := if num * pow2 (-e).toNat < den * pow2 e.toNat * pow2 52 then e - 1 else e
  max e (-1074)

/-- The bits of the double nearest to the positive quotient `num / den`. -/
def nearestBits (num den : Nat) : Nat :=
  let e := lastPlace num den
  -- a carry out of the 53 places moves on to the next exponent by itself
  let bits := (e + 1074).toNat * pow2 52 + scaled num den e
  if bits < infinityBits then bits else infinityBits

/-- The bits of the double nearest to `digits * 10 ^ exponent`. -/
def decimalBits (digits : Nat) (exponent : Int) : Nat :=
  -- outside these bounds every double is zero or infinite, so the powers stay small
  if digits == 0 then 0
  else if exponent + digits.log2 < -1200 then 0
  else if 400 < exponent then infinityBits
  else nearestBits (digits * pow10 exponent.toNat) (pow10 (-exponent).toNat)

/-- The double nearest to `digits * 10 ^ exponent`. -/
def nearest (digits : Nat) (exponent : Int) : Float :=
  Float.ofBits (UInt64.ofNat (decimalBits digits exponent))

end Decimal
end MinimalistGrammar
