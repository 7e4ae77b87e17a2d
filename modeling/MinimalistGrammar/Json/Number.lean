import MinimalistGrammar.Decimal.Natural
import MinimalistGrammar.Json

/-!
# Numbers in JSON texts

A number is read through a 64-bit significand. Digits that no longer fit count as zeros before the
point and are dropped behind it, and the significand is brought to its power of ten by one
multiplication or division of doubles. So the result may be a last place away from the double
nearest to the text.

## Main definitions

* `NumberText` — the pieces of a number as written.
* `Significand.ofDigits` — as many digits as fit 64 bits, and how many are left.
* `scaleDouble?` — a significand at a power of ten, unless it is beyond the range of doubles.
* `NumberText.value?` — the value of a number as written.
-/

namespace MinimalistGrammar

/-- A number as written: its sign, its digits before and behind the point, and its exponent. -/
structure NumberText where
  negative : Bool
  whole : List Char
  /-- The digits behind the point, if there is a point. -/
  fraction : Option (List Char)
  /-- Whether the exponent is negative, and its digits, if there is an exponent. -/
  exponent : Option (Bool × List Char)
deriving DecidableEq, Repr

/-! ### Significands -/

/-- The bound of a significand. -/
def significandBound : Nat := pow2 64

/-- A significand with the digits behind it that no longer fit. -/
structure Significand where
  value : Nat
  rest : List Char

/-- Takes digits into a significand as long as they fit. -/
def Significand.ofDigits (n : Nat) : List Char → Significand
  | [] => ⟨n, []⟩
  | c :: cs =>
    let next := n * 10 + Decimal.digitValue c
    if next < significandBound then ofDigits next cs else ⟨n, c :: cs⟩

/-- The digits of a number taken together: a significand, and the power of ten of its last digit. -/
def NumberText.significand (t : NumberText) : Nat × Int :=
  let whole := Significand.ofDigits 0 t.whole
  let digits := t.fraction.getD []
  let fraction := Significand.ofDigits whole.value digits
  (fraction.value, (whole.rest.length : Int) - (digits.length - fraction.rest.length : Nat))

/-! ### Powers of ten -/

/-- The largest power of ten that a double holds. -/
def largestPower : Nat := 308

/-- A double times a power of ten; nothing if the product is beyond the range of doubles. -/
def scaleDouble? (x : Float) (exponent : Int) : Option Float :=
  if exponent.natAbs ≤ largestPower then
    let power := Decimal.nearest 1 exponent.natAbs
    if 0 ≤ exponent then
      let y := x * power
      if y.isInf then none else some y
    else some (x / power)
  else if x == 0 then some x
  else if 0 ≤ exponent then none
  else scaleDouble? (x / Decimal.nearest 1 largestPower) (exponent + largestPower)
termination_by exponent.natAbs
decreasing_by simp only [largestPower] at *; omega

/-- The bound of an exponent. -/
def exponentBound : Nat := pow2 31

/-- The magnitude of a number with an exponent. An exponent beyond its bound makes zero, or no
number at all if it is positive and the significand is not zero. -/
def magnitude? (significand : Nat) (place : Int) (exponent : Option (Bool × List Char)) :
    Option Float :=
  let x := Decimal.nearest significand 0
  match exponent with
  | none => scaleDouble? x place
  | some (negative, digits) =>
    let e := Decimal.ofDigits 0 digits
    if e < exponentBound then scaleDouble? x (if negative then place - e else place + e)
    else if significand != 0 && !negative then none
    else some 0

/-! ### Values -/

/-- The value of a number as written. Minus zero is a double. -/
def NumberText.value? (t : NumberText) : Option Json :=
  let n := Decimal.ofDigits 0 t.whole
  let integral := t.fraction.isNone && t.exponent.isNone
  if integral && !t.negative && n < significandBound then some (.int n)
  else if integral && t.negative && n != 0 && n ≤ pow2 63 then some (.int (-n))
  else
    let (significand, place) := t.significand
    (magnitude? significand place t.exponent).map fun x =>
      .float (if t.negative then -x else x)

end MinimalistGrammar
