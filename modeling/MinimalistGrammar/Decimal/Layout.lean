import MinimalistGrammar.Decimal.Shortest

/-!
# Writing a double

How the shortest digits of a double are laid out is one value of the type `Layout`, for each place
where numbers are written.

## Main definitions

* `Layout` — which exponents are written positionally, and what the text looks like otherwise.
* `Layout.write` — a double as text.
* `plain`, `inspected` — the layouts for messages and for values shown inside a path.
-/

namespace MinimalistGrammar
namespace Decimal

/-- How doubles are written. -/
structure Layout where
  /-- The decimal exponents `e` of the first digit with which a number is written positionally. -/
  positional : Int → Bool
  /-- Whether a whole number written positionally ends in `.0`. -/
  pointZero : Bool
  /-- Whether a positive exponent gets a plus sign. -/
  plusSign : Bool
  /-- Which of two equally near decimals is written. -/
  tie : Tie

/-- In messages: positionally at any size, and whole numbers without a point. -/
def plain : Layout :=
  { positional := fun _ => true, pointZero := false, plusSign := false, tie := .up }

/-- Inside a path: positionally from `1e-4` up to `1e16`, and always with a point or an exponent. -/
def inspected : Layout :=
  { positional := fun e => -4 ≤ e && e < 16, pointZero := true, plusSign := false, tie := .up }

namespace Layout

/-- Digits with the point where it belongs. -/
def position (l : Layout) (d : Digits) : String :=
  let digits := toString d.digits
  let point := d.exponent + digits.length
  if 0 ≤ d.exponent then
    digits ++ "".pushn '0' d.exponent.toNat ++ (if l.pointZero then ".0" else "")
  else if 0 < point then
    String.ofList (digits.toList.take point.toNat) ++ "." ++
      String.ofList (digits.toList.drop point.toNat)
  else "0." ++ "".pushn '0' (-point).toNat ++ digits

/-- The first digit, a point with the other digits if there are any, and the exponent. -/
def scientific (l : Layout) (d : Digits) (exponent : Int) : String :=
  let mantissa :=
    match (toString d.digits).toList with
    | c :: rest@(_ :: _) => String.ofList (c :: '.' :: rest)
    | cs => String.ofList cs
  mantissa ++ (if l.plusSign && 0 < exponent then "e+" else "e") ++ toString exponent

/-- The digits of a positive number as text. -/
def writeDigits (l : Layout) (d : Digits) : String :=
  let exponent := d.exponent + digitCount d.digits - 1
  if l.positional exponent then l.position d else l.scientific d exponent

/-- A double that is not negative, from its bits. -/
def writeBits (l : Layout) (bits : Nat) : String :=
  if bits == 0 then if l.pointZero then "0.0" else "0"
  else l.writeDigits (shortest l.tie (Binary.ofBits bits))

/-- A double as text. -/
def write (l : Layout) (x : Float) : String :=
  let bits := x.toBits.toNat
  let magnitude := bits % pow2 63
  if x.isNaN then "NaN"
  else
    (if bits < pow2 63 then "" else "-") ++
      (if x.isInf then "inf" else l.writeBits magnitude)

end Layout
end Decimal
end MinimalistGrammar
