import MinimalistGrammar.Decimal.Natural

/-!
# The spellings of a number

A number may be written with any number of zeros before its digits, and whatever reads as the number
is such a spelling of it.

## Main results

* `readDigits?_eq_some_iff` — what reads as a number.
-/

namespace MinimalistGrammar
namespace Decimal

variable {c : Char} {n : Nat} {s : List Char}

/-! ### Digits -/

theorem digitValue_eq (h : c.isDigit = true) : c.toNat = 48 + digitValue c ∧ digitValue c < 10 := by
  have hbounds : 48 ≤ c.toNat ∧ c.toNat ≤ 57 := Char.isDigit_iff_toNat.mp h
  have hvalue : digitValue c = c.toNat - 48 := rfl
  omega

/-- A digit is what is written for its value. -/
theorem toDigits_digitValue (h : c.isDigit = true) : Nat.toDigits 10 (digitValue c) = [c] := by
  obtain ⟨hc, hlt⟩ := digitValue_eq h
  rw [Nat.toDigits_of_lt_base hlt]
  refine congrArg (· :: []) (Char.toNat_inj.mp ?_)
  rw [Nat.toNat_digitChar_of_lt_ten hlt, hc]

theorem digitValue_pos (h : c.isDigit = true) (hzero : c ≠ '0') : 0 < digitValue c := by
  refine Nat.pos_of_ne_zero fun hvalue => hzero ?_
  have hdigits := toDigits_digitValue h
  rw [hvalue] at hdigits
  exact (List.cons.inj hdigits).1.symm

/-- Digits behind those of a positive number make its number longer. -/
theorem toDigits_append (hn : 0 < n) (h : ∀ c ∈ s, c.isDigit = true) :
    Nat.toDigits 10 n ++ s = Nat.toDigits 10 (ofDigits n s) := by
  induction s generalizing n with
  | nil => rw [List.append_nil, ofDigits_nil]
  | cons c cs ih =>
    obtain ⟨hc, hcs⟩ := List.forall_mem_cons.mp h
    calc Nat.toDigits 10 n ++ c :: cs
        = (Nat.toDigits 10 n ++ Nat.toDigits 10 (digitValue c)) ++ cs := by
          rw [toDigits_digitValue hc, List.append_assoc, List.singleton_append]
      _ = Nat.toDigits 10 (10 * n + digitValue c) ++ cs := by
          rw [Nat.toDigits_append_toDigits (by decide) hn (digitValue_eq hc).2]
      _ = Nat.toDigits 10 (ofDigits n (c :: cs)) := by
          rw [ih (by omega) hcs, ofDigits_cons, Nat.mul_comm]

/-! ### Spellings -/

theorem ofDigits_replicate (zeros : Nat) (s : List Char) :
    ofDigits 0 (List.replicate zeros '0' ++ s) = ofDigits 0 s := by
  induction zeros with
  | zero => rfl
  | succ zeros ih => rw [List.replicate_succ, List.cons_append, ofDigits_cons, ← ih]; rfl

/-- Digits are those of their number behind some zeros. -/
theorem exists_spelling (hne : s ≠ []) (h : ∀ c ∈ s, c.isDigit = true) :
    ∃ zeros, s = List.replicate zeros '0' ++ Nat.toDigits 10 (ofDigits 0 s) := by
  induction s with
  | nil => exact absurd rfl hne
  | cons c cs ih =>
    obtain ⟨hc, hcs⟩ := List.forall_mem_cons.mp h
    by_cases hzero : c = '0'
    · subst hzero
      by_cases hend : cs = []
      · subst hend
        exact ⟨0, rfl⟩
      · obtain ⟨zeros, hzeros⟩ := ih hend hcs
        refine ⟨zeros + 1, ?_⟩
        rw [List.replicate_succ, List.cons_append, ofDigits_cons]
        exact congrArg ('0' :: ·) hzeros
    · -- the first digit of the number is the first one
      refine ⟨0, ?_⟩
      have hdigits := toDigits_append (digitValue_pos hc hzero) hcs
      rw [toDigits_digitValue hc, List.singleton_append] at hdigits
      rw [List.replicate_zero, List.nil_append, ofDigits_cons, Nat.zero_mul, Nat.zero_add, hdigits]

/-- What reads as a number is what is written for it, behind some zeros. -/
theorem readDigits?_eq_some_iff :
    readDigits? s = some n ↔ ∃ zeros, s = List.replicate zeros '0' ++ Nat.toDigits 10 n := by
  rw [readDigits?]
  constructor
  · intro h
    split at h
    · next hs =>
      obtain rfl := Option.some.inj h
      exact exists_spelling hs.1 (List.all_eq_true.mp hs.2)
    · exact absurd h (by simp)
  · rintro ⟨zeros, rfl⟩
    have hdigits : ∀ c ∈ Nat.toDigits 10 n, c.isDigit = true := fun c hc =>
      Nat.isDigit_of_mem_toDigits (by decide) (by decide) hc
    rw [if_pos ⟨by simp, by simpa using hdigits⟩, ofDigits_replicate, ofDigits_eq_ofDigitChars,
      Nat.ofDigitChars_ten_toDigits]

end Decimal
end MinimalistGrammar
