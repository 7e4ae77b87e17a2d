import MinimalistGrammar.Address
import MinimalistGrammar.Decimal.Layout

/-!
# Probabilities

A parse is as likely as the one it comes from, divided by the number of ways in which that one can
go on. Probabilities are doubles when the parser runs; every type with the same operations will do,
and with exact fractions no rounding comes in.

## Main definitions

* `Probability` — what the parser needs of a type of probabilities.
* `placeOfBits`, `totalOrder` — the order of doubles by their bits.
* `BeamKey` — what decides which parse is next: its probability, then an address.
-/

namespace MinimalistGrammar

/-- A type of probabilities. -/
class Probability (π : Type) where
  /-- The probability of what has no alternative. -/
  certain : π
  /-- One of `n` equal shares of `p`. -/
  share (p : π) (n : Nat) : π
  /-- Whether `p` is less than a bound. -/
  below (p bound : π) : Bool
  /-- The more probable is first. -/
  order (p q : π) : Ordering
  /-- A probability in a message. -/
  text (p : π) : String

/-! ### Doubles -/

/-- The place among all doubles of the one with these bits: negative ones go down from `-1`. -/
def placeOfBits (bits : Nat) : Int :=
  if bits < pow2 63 then (bits : Int) else pow2 63 - 1 - (bits : Int)

/-- The order of doubles in which negative zero is before zero and NaN is last. -/
def totalOrder (x y : Float) : Ordering :=
  compare (placeOfBits x.toBits.toNat) (placeOfBits y.toBits.toNat)

instance : Probability Float where
  certain := 1
  share p n := p / Float.ofNat n
  below p bound := p < bound
  order p q := totalOrder q p
  text p := Decimal.plain.write p

/-! ### Exact fractions -/

instance : Probability Rat where
  certain := 1
  share p n := p / (n : Rat)
  below p bound := p < bound
  order p q := compareOfLessAndEq q p
  text p := toString p.num ++ "/" ++ toString p.den

/-! ### Keys of the beam -/

/-- What decides when a parse leaves the beam. -/
structure BeamKey (π : Type) where
  probability : π
  /-- Where the next prediction of the parse is pronounced. -/
  index : Address
deriving Repr

/-- The more probable is first, and of equally probable ones the one further to the left. -/
instance {π : Type} [Probability π] : Ord (BeamKey π) :=
  ⟨fun a b => (Probability.order a.probability b.probability).then (compare a.index b.index)⟩

end MinimalistGrammar
