/-!
# Powers of two and ten

## Main definitions

* `pow2`, `pow10` — the powers.
-/

namespace MinimalistGrammar

/-- The `n`-th power of two. -/
def pow2 (n : Nat) : Nat := Nat.pow 2 n

/-- The `n`-th power of ten. -/
def pow10 (n : Nat) : Nat := Nat.pow 10 n

end MinimalistGrammar
