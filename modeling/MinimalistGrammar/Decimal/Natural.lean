/-!
# Natural numbers in decimal

## Main definitions

* `ofDigits` — the number that a list of digits stands for.
* `readDigits?` — reads one or more ASCII digits.
* `readBelow?` — reads a number below a bound, with an optional plus sign before it.
-/

namespace MinimalistGrammar
namespace Decimal

/-- The value of an ASCII digit. -/
def digitValue (c : Char) : Nat := c.toNat - '0'.toNat

/-- The number that digits stand for when they follow the digits of `n`. -/
def ofDigits (n : Nat) (digits : List Char) : Nat :=
  digits.foldl (fun n c => n * 10 + digitValue c) n

@[simp] theorem ofDigits_nil (n : Nat) : ofDigits n [] = n := rfl

@[simp] theorem ofDigits_cons (n : Nat) (c : Char) (cs : List Char) :
    ofDigits n (c :: cs) = ofDigits (n * 10 + digitValue c) cs := by
  rw [ofDigits, ofDigits, List.foldl_cons]

/-- Reads one or more ASCII digits and nothing else. -/
def readDigits? (s : List Char) : Option Nat :=
  if s ≠ [] ∧ s.all Char.isDigit then some (ofDigits 0 s) else none

/-- Reads a number below `bound`, with an optional plus sign before its digits. -/
def readBelow? (bound : Nat) (s : List Char) : Option Nat :=
  let digits :=
    match s with
    | '+' :: rest => rest
    | _ => s
  (readDigits? digits).filter (· < bound)

/-! ### Reading a number back -/

theorem ofDigits_eq_ofDigitChars (n : Nat) (digits : List Char) :
    ofDigits n digits = Nat.ofDigitChars 10 digits n := by
  simp only [ofDigits, Nat.ofDigitChars_eq_foldl, digitValue, Nat.mul_comm]

@[simp] theorem readDigits?_toDigits (n : Nat) : readDigits? (Nat.toDigits 10 n) = some n := by
  have hdigits : Nat.toDigits 10 n ≠ [] ∧ (Nat.toDigits 10 n).all Char.isDigit := by
    refine ⟨Nat.toDigits_ne_nil, List.all_eq_true.mpr fun c hc => ?_⟩
    exact Nat.isDigit_of_mem_toDigits (by decide) (by decide) hc
  rw [readDigits?, if_pos hdigits, ofDigits_eq_ofDigitChars, Nat.ofDigitChars_ten_toDigits]

/-- A number below the bound is read back from its digits. -/
theorem readBelow?_toDigits {n bound : Nat} (h : n < bound) :
    readBelow? bound (Nat.toDigits 10 n) = some n := by
  have hplus : ∀ rest, Nat.toDigits 10 n ≠ '+' :: rest := by
    intro rest heq
    have hc : '+' ∈ Nat.toDigits 10 n := heq ▸ List.mem_cons_self ..
    exact absurd (Nat.isDigit_of_mem_toDigits (by decide) (by decide) hc) (by decide)
  rw [readBelow?.eq_2 bound _ hplus, readDigits?_toDigits]
  simp [h]

end Decimal
end MinimalistGrammar
