import MinimalistGrammar.Decimal.Natural
import MinimalistGrammar.Decimal.Nearest

/-!
# Reading an integer or a double

An integer is written as digits with an optional sign. A double is written with an optional sign,
digits with an optional point among them or at either end, and an optional integer as exponent; or
as one of the words for infinity and for no number.

## Main definitions

* `readInteger?` — an integer with an optional sign.
* `readUnsigned?` — a number without a sign.
* `readBits?`, `readDouble?` — a number with an optional sign, as the double nearest to it.
-/

namespace MinimalistGrammar
namespace Decimal

/-- Reads an integer with an optional sign. -/
def readInteger? : List Char → Option Int
  | '-' :: digits => (readDigits? digits).map fun n => -(n : Int)
  | '+' :: digits => (readDigits? digits).map fun n => (n : Int)
  | digits => (readDigits? digits).map fun n => (n : Int)

/-- What is left after the digits: nothing, or an exponent. -/
def readScale? : List Char → Option Int
  | [] => some 0
  | c :: rest => if c == 'e' || c == 'E' then readInteger? rest else none

/-- The words for numbers that have no digits, in lower case. -/
def readSpecial? (s : List Char) : Option Nat :=
  match String.ofList (s.map Char.toLower) with
  | "inf" | "infinity" => some infinityBits
  | "nan" => some (infinityBits + pow2 51)
  | _ => none

/-- Reads a number without a sign as the bits of a double. -/
def readUnsigned? (s : List Char) : Option Nat :=
  let whole := s.takeWhile Char.isDigit
  let afterWhole := s.dropWhile Char.isDigit
  let (fraction, rest) :=
    match afterWhole with
    | '.' :: t => (t.takeWhile Char.isDigit, t.dropWhile Char.isDigit)
    | t => ([], t)
  if whole.isEmpty && fraction.isEmpty then readSpecial? s
  else
    (readScale? rest).map fun scale =>
      decimalBits (ofDigits 0 (whole ++ fraction)) (scale - fraction.length)

/-- Reads a number as the bits of the double nearest to it. The sign is a bit of its own, which a
NaN has too. -/
def readBits? (s : String) : Option Nat :=
  match s.toList with
  | '-' :: rest => (readUnsigned? rest).map fun bits => pow2 63 + bits
  | '+' :: rest => readUnsigned? rest
  | rest => readUnsigned? rest

/-- Reads a number as the double nearest to it. -/
def readDouble? (s : String) : Option Float :=
  (readBits? s).map fun bits => Float.ofBits (UInt64.ofNat bits)

end Decimal
end MinimalistGrammar
