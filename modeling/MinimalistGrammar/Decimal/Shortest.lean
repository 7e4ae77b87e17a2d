import MinimalistGrammar.Decimal.Power

/-!
# Shortest digits

The reals that round to one double form an interval around it. Of the decimals in that interval we
want one with the fewest digits, and of those the nearest to the double. For each number of digits
the candidates are the two neighbours of the double on the grid of decimals with that many digits:
if any point of the grid lies in the interval, one of the two does.

## Main definitions

* `Binary` — a positive double as `mantissa * 2 ^ exponent`.
* `Digits` — a decimal as `digits * 10 ^ exponent`.
* `Tie` — which neighbour is taken when both are equally near.
* `shortest` — the fewest digits that read back as the double.
-/

namespace MinimalistGrammar
namespace Decimal

/-- A positive number `mantissa * 2 ^ exponent`. -/
structure Binary where
  mantissa : Nat
  exponent : Int
deriving DecidableEq, Repr

/-- The number that the bits of a positive finite double stand for. -/
def Binary.ofBits (bits : Nat) : Binary :=
  let fraction : Nat := bits % pow2 52
  let biased : Nat := bits / pow2 52 % pow2 11
  if biased == 0 then ⟨fraction, -1074⟩ else ⟨pow2 52 + fraction, (biased : Int) - 1075⟩

/-- Whether the next smaller double is nearer than the next larger one. -/
def Binary.isPowerBoundary (b : Binary) : Bool := b.mantissa == pow2 52 && b.exponent != -1074

/-- A decimal `digits * 10 ^ exponent`. -/
structure Digits where
  digits : Nat
  exponent : Int
deriving DecidableEq, Repr

/-- Which of two equally near neighbours is taken. -/
inductive Tie
  /-- The one with the even last digit. -/
  | even
  /-- The larger one. -/
  | up
deriving DecidableEq, Repr

/-- How many decimal digits `n` has. -/
def digitCount (n : Nat) : Nat := (Nat.toDigits 10 n).length

/-- Two numbers with a common denominator, in quarters of the last binary place: the bounds of the
interval that rounds to a double, the double, and the denominator. -/
structure Interval where
  low : Nat
  value : Nat
  high : Nat
  denominator : Nat
  /-- Whether the bounds themselves round to the double. -/
  closed : Bool

/-- The interval of the reals that round to `b`. -/
def Interval.of (b : Binary) : Interval :=
  let e := b.exponent - 2
  let up := pow2 e.toNat
  { low := (4 * b.mantissa - if b.isPowerBoundary then 1 else 2) * up
    value := 4 * b.mantissa * up
    high := (4 * b.mantissa + 2) * up
    denominator := pow2 (-e).toNat
    closed := b.mantissa % 2 == 0 }

namespace Interval

/-- Whether `digits * 10 ^ exponent` lies in the interval. -/
def contains (i : Interval) (digits : Nat) (exponent : Int) : Bool :=
  let point := digits * pow10 exponent.toNat * i.denominator
  let unit := pow10 (-exponent).toNat
  if i.closed then i.low * unit ≤ point && point ≤ i.high * unit
  else i.low * unit < point && point < i.high * unit

/-- The neighbour of the value on the grid with step `10 ^ exponent` that lies in the interval; of
two such neighbours the nearer. -/
def neighbour? (i : Interval) (tie : Tie) (exponent : Int) : Option Nat :=
  let num := i.value * pow10 (-exponent).toNat
  let den := i.denominator * pow10 exponent.toNat
  let below := num / den
  let twice := 2 * (num % den)
  match i.contains below exponent, i.contains (below + 1) exponent with
  | false, false => none
  | true, false => some below
  | false, true => some (below + 1)
  -- both are read as the same double, so the nearer one is taken
  | true, true =>
    if twice < den then some below
    else if den < twice then some (below + 1)
    else
      match tie with
      | .even => some (below + below % 2)
      | .up => some (below + 1)

/-- The decimal exponent of the first digit of the value. -/
def leading (i : Interval) : Int :=
  -- 400 places after the point reach the first digit of every double
  (digitCount (i.value * pow10 400 / i.denominator) : Int) - 401

/-- The first neighbour that is found with `n` digits, `n + 1` digits, and so on, with `fuel` tries;
17 digits always suffice. -/
def search (i : Interval) (tie : Tie) (n : Nat) : Nat → Digits
  | 0 => ⟨0, 0⟩
  | fuel + 1 =>
    let exponent := i.leading + 1 - n
    match i.neighbour? tie exponent with
    | some digits => ⟨digits, exponent⟩
    | none => i.search tie (n + 1) fuel

end Interval

/-- A decimal without zeros at the end of its digits. -/
def Digits.normal (d : Digits) : Digits :=
  if h : 0 < d.digits ∧ d.digits % 10 = 0 then Digits.normal ⟨d.digits / 10, d.exponent + 1⟩ else d
termination_by d.digits
decreasing_by exact Nat.div_lt_self h.1 (by decide)

/-- The fewest digits that read back as `b`, and of those the nearest to `b`. -/
def shortest (tie : Tie) (b : Binary) : Digits :=
  ((Interval.of b).search tie 1 17).normal

end Decimal
end MinimalistGrammar
