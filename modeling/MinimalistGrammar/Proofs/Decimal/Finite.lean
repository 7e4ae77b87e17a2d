import Mathlib
import MinimalistGrammar.Json

/-!
# Finite doubles

The doubles nearest to integers of 64 bits are finite. A double is finite unless all bits of its
exponent are set, and the bits of the double nearest to such an integer stay far below those of
infinity.

## Main results

* `isFinite_ofBits`, `isFinite_neg` — which doubles are finite.
* `nearestBits_lt` — the bits of a double near an integer of 64 bits.
* `isFinite_doubleOfInt` — the double nearest to an integer of 64 bits is finite.
-/

namespace MinimalistGrammar

/-! ### Exponents -/

section exponent

open Float.Model Float.Model.UnpackedFloat

variable {format : Format} {b : BitVec format.numBits}

theorem isFinite_unpack_iff :
    (UnpackedFloat.unpack format b).isFinite = true ↔ unpackExponent b ≠ -1#_ := by
  unfold UnpackedFloat.unpack
  dsimp only
  split
  · next h => split <;> simp [UnpackedFloat.isFinite, h]
  · next h =>
    split
    · split <;> simp [UnpackedFloat.isFinite, h]
    · simp [UnpackedFloat.isFinite, h]

/-- The sign does not count for the exponent. -/
theorem unpackExponent_pack_neg (x : UnpackedFloat) :
    unpackExponent (UnpackedFloat.pack format x.neg) =
      unpackExponent (UnpackedFloat.pack format x) := by
  cases x with
  | notANumber => rfl
  | infinity =>
    simp only [UnpackedFloat.neg, UnpackedFloat.pack, packedInfinity, unpackExponent_packComponents]
  | zero =>
    simp only [UnpackedFloat.neg, UnpackedFloat.pack, packedZero, unpackExponent_packComponents]
  | finite =>
    simp only [UnpackedFloat.neg, UnpackedFloat.pack]
    split
    · simp only [packedInfinity, unpackExponent_packComponents]
    · split <;> simp only [unpackExponent_packComponents]

theorem ne_allOnes_iff {n : Nat} {x : BitVec n} : x ≠ -1#n ↔ x.toNat + 1 < 2 ^ n := by
  have hlt := x.isLt
  rw [Ne, ← BitVec.toNat_inj, BitVec.neg_one_eq_allOnes, BitVec.toNat_allOnes]
  omega

/-- What is finite stays finite when it is taken apart and put together. -/
theorem unpackExponent_pack_unpack (hbits : 2 ≤ format.exponentBits) (h : unpackExponent b ≠ -1#_) :
    unpackExponent (UnpackedFloat.pack format (UnpackedFloat.unpack format b)) ≠ -1#_ := by
  have hnumber : ¬isNaNBits b = true := by simp [isNaNBits, h]
  rwa [pack_unpack b hbits, if_neg hnumber]

end exponent

/-! ### Doubles -/

section double

open Float.Model

theorem isFinite_iff {x : Float} : x.isFinite = true ↔
    @UnpackedFloat.unpackExponent Format.binary64 x.toModel.toBits.toBitVec ≠ -1#_ :=
  isFinite_unpack_iff

theorem isFinite_neg {x : Float} (h : x.isFinite = true) : (-x).isFinite = true := by
  have hneg := unpackExponent_pack_unpack (by decide) (isFinite_iff.mp h)
  rw [← unpackExponent_pack_neg] at hneg
  exact isFinite_iff.mpr hneg

/-- Bits below those of infinity are those of a finite double. -/
theorem isFinite_ofBits {n : Nat} (h : n < Decimal.infinityBits) :
    (Float.ofBits (UInt64.ofNat n)).isFinite = true := by
  have h : n < 2047 * 2 ^ 52 := h
  refine isFinite_iff.mpr (unpackExponent_pack_unpack (by decide) (ne_allOnes_iff.mpr ?_))
  have hexponent : (@UnpackedFloat.unpackExponent Format.binary64 (UInt64.ofNat n).toBitVec).toNat =
      n / 2 ^ 52 := by
    have hn : (UInt64.ofNat n).toBitVec.toNat = n := Nat.mod_eq_of_lt (by omega)
    have hextract : (@UnpackedFloat.unpackExponent Format.binary64
        (UInt64.ofNat n).toBitVec).toNat = ((UInt64.ofNat n).toBitVec.toNat >>> 52) % 2 ^ 11 :=
      BitVec.extractLsb'_toNat ..
    rw [hextract, hn, Nat.shiftRight_eq_div_pow, Nat.mod_eq_of_lt (by omega)]
  rw [hexponent]
  show n / 2 ^ 52 + 1 < 2048
  omega

end double

/-! ### Bits of integers -/

namespace Decimal

theorem roundHalfEven_le (num den : Nat) : roundHalfEven num den ≤ num / den + 1 := by
  unfold roundHalfEven
  dsimp only
  split
  · omega
  · split <;> omega

/-- The last place of an integer of 64 bits. -/
theorem lastPlace_bounds {n : Nat} (h : n.log2 < 64) :
    (n.log2 : Int) - 53 ≤ lastPlace n 1 ∧ lastPlace n 1 ≤ 11 := by
  unfold lastPlace
  dsimp only
  rw [show Nat.log2 1 = 0 by decide]
  split <;> omega

/-- An integer has at most 54 binary places before its last place. -/
theorem scaled_le {n : Nat} {e : Int} (he : (n.log2 : Int) - 53 ≤ e) :
    scaled n 1 e ≤ 2 ^ 54 + 1 := by
  refine Nat.le_trans (roundHalfEven_le _ _) (Nat.add_le_add_right (Nat.div_le_of_le_mul ?_) 1)
  have hlog : n < 2 ^ (n.log2 + 1) := Nat.lt_log2_self
  calc n * pow2 (-e).toNat
      ≤ 2 ^ (n.log2 + 1) * 2 ^ (-e).toNat := Nat.mul_le_mul_right _ (Nat.le_of_lt hlog)
    _ = 2 ^ (n.log2 + 1 + (-e).toNat) := (Nat.pow_add ..).symm
    _ ≤ 2 ^ (e.toNat + 54) := Nat.pow_le_pow_right (by decide) (by omega)
    _ = 1 * pow2 e.toNat * 2 ^ 54 := by rw [Nat.pow_add, Nat.one_mul]; rfl

/-- The bits of the double nearest to an integer of 64 bits are below those of infinity. -/
theorem nearestBits_lt {n : Nat} (h : n.log2 < 64) : nearestBits n 1 < infinityBits := by
  obtain ⟨hleast, hgreatest⟩ := lastPlace_bounds h
  have hscaled := scaled_le hleast
  unfold nearestBits
  dsimp only
  have hbits : (lastPlace n 1 + 1074).toNat * pow2 52 ≤ 1085 * 2 ^ 52 :=
    Nat.mul_le_mul_right _ (by omega)
  have hinfinity : infinityBits = 2047 * 2 ^ 52 := rfl
  rw [if_pos (by omega)]
  omega

theorem isFinite_nearest {n : Nat} (h : n < pow2 64) : (nearest n 0).isFinite = true := by
  refine isFinite_ofBits ?_
  by_cases hzero : n = 0
  · subst hzero
    decide
  · have hlog : n.log2 < 64 := (Nat.log2_lt hzero).mpr h
    have hpow : n * pow10 (0 : Int).toNat = n := Nat.mul_one n
    rw [decimalBits, if_neg (by simpa using hzero), if_neg (by omega), if_neg (by omega), hpow]
    exact nearestBits_lt hlog

end Decimal

/-- The double nearest to an integer of 64 bits is finite. -/
theorem isFinite_doubleOfInt {n : Int} (h : n.natAbs < pow2 64) :
    (doubleOfInt n).isFinite = true := by
  unfold doubleOfInt
  split
  · exact isFinite_neg (Decimal.isFinite_nearest h)
  · exact Decimal.isFinite_nearest h

end MinimalistGrammar
