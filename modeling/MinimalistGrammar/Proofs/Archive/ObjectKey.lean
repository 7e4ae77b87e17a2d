import MinimalistGrammar.Archive.ObjectKey
import MinimalistGrammar.Proofs.Decimal.Natural

/-!
# The spellings of keys

A key that is written for an object names it. So does the key with more zeros before the number, and
no other text.

## Main definitions

* `Ident.spelling`, `ObjectKey.spelling` — a key with some zeros before its number.

## Main results

* `ObjectKey.names_iff_spelling` — **what names an object**.
-/

namespace MinimalistGrammar

/-! ### Objects with a number -/

namespace Ident

variable {k : Kind} {key : String} {id : Ident k}

/-- The key of an object with some zeros before its number. -/
def spelling (id : Ident k) (zeros : Nat) : String :=
  k.className ++ (String.ofList (List.replicate zeros '0') ++ toString id.index)

theorem toList_spelling (id : Ident k) (zeros : Nat) : (id.spelling zeros).toList =
    k.className.toList ++ (List.replicate zeros '0' ++ Nat.toDigits 10 id.index) := by
  rw [spelling, String.toList_append, String.toList_append, String.toList_ofList]
  exact congrArg (fun digits => k.className.toList ++ (List.replicate zeros '0' ++ digits))
    String.toList_ofList

theorem rest?_eq_some_iff {part s rest : List Char} :
    rest? part s = some rest ↔ s = part ++ rest := by
  refine ⟨fun h => ?_, fun h => h ▸ rest?_append part rest⟩
  rw [rest?] at h
  split at h
  · next hprefix =>
    obtain ⟨rest', rfl⟩ := List.isPrefixOf_iff_prefix.mp hprefix
    rw [List.drop_left] at h
    rw [Option.some.inj h]
  · exact absurd h (by simp)

theorem read?_eq_some_iff : read? k key = some id ↔ ∃ zeros, key = id.spelling zeros := by
  have hspelling (zeros : Nat) : key = id.spelling zeros ↔
      key.toList = k.className.toList ++
        (List.replicate zeros '0' ++ Nat.toDigits 10 id.index) := by
    rw [← toList_spelling, String.toList_inj]
  simp only [read?, bind, Option.bind_eq_some_iff, rest?_eq_some_iff,
    Decimal.readDigits?_eq_some_iff, hspelling]
  constructor
  · rintro ⟨digits, hkey, n, ⟨zeros, rfl⟩, hid⟩
    obtain rfl := Option.some.inj hid
    exact ⟨zeros, hkey⟩
  · rintro ⟨zeros, hkey⟩
    exact ⟨_, hkey, id.index, ⟨zeros, rfl⟩, rfl⟩

theorem read?_spelling_of_ne {k' : Kind} (id : Ident k) (zeros : Nat) (h : k' ≠ k) :
    read? k' (id.spelling zeros) = none := by
  rw [read?, toList_spelling, rest?_className_of_ne h]
  rfl

/-- Zeros make a key longer. -/
theorem spelling_eq_key_iff (id : Ident k) (zeros : Nat) :
    id.spelling zeros = id.key ↔ zeros = 0 := by
  constructor
  · intro h
    have hlength := congrArg (fun s => s.toList.length) h
    simp only [toList_spelling, toList_key, List.length_append, List.length_replicate] at hlength
    omega
  · rintro rfl
    rfl

end Ident

/-! ### All keys -/

namespace ObjectKey

/-- A key with some zeros before its number, if it has one. -/
def spelling : ObjectKey → Nat → String
  | tree, _ => treeClass
  | object id, zeros => id.spelling zeros

theorem read?_eq_some_iff {s : String} {key : ObjectKey} :
    read? s = some key ↔ ∃ zeros, s = key.spelling zeros := by
  cases key with
  | tree =>
    constructor
    · exact fun h => ⟨0, eq_treeClass_of_read? h⟩
    · rintro ⟨-, rfl⟩
      rfl
  | @object k id =>
    constructor
    · intro h
      rw [read?] at h
      split at h
      · exact absurd (Option.some.inj h) (by simp)
      · obtain ⟨k', -, hk'⟩ := List.exists_of_findSome?_eq_some h
        obtain ⟨id', hid', heq⟩ := Option.map_eq_some_iff.mp hk'
        cases heq
        exact Ident.read?_eq_some_iff.mp hid'
    · rintro ⟨zeros, rfl⟩
      have hread : Ident.read? k (id.spelling zeros) = some id :=
        Ident.read?_eq_some_iff.mpr ⟨zeros, rfl⟩
      have hne : ¬(id.spelling zeros == treeClass) = true := by
        rw [beq_iff_eq]
        exact Ident.className_append_ne k _
      rw [spelling, read?, if_neg hne]
      cases k <;> simp [Kind.all, hread, Ident.read?_spelling_of_ne]

/-- **An object is named by the key that is written for it, by this key with more zeros before the
number, and by nothing else**; so a text names one object at most, but an object has more than one
key. -/
theorem names_iff_spelling (key : ObjectKey) :
    (parse? key.text = some key ↔ key.fits = true) ∧
      (∀ s, parse? s = some key ↔ key.fits = true ∧ ∃ zeros, s = key.spelling zeros) ∧
        ∀ zeros, key.spelling zeros = key.text ↔ zeros = 0 ∨ key = tree := by
  refine ⟨⟨fits_of_parse?, parse?_text⟩, fun s => ?_, fun zeros => ?_⟩
  · rw [parse?, Option.filter_eq_some_iff, read?_eq_some_iff, and_comm]
  · cases key with
    | tree => exact iff_of_true rfl (Or.inr rfl)
    | object id => simpa [spelling, text] using id.spelling_eq_key_iff zeros

/-- Feature 7 has two keys, of which only one is written for it. -/
theorem parse?_twoZeros : parse? "Feature007" = some (object (⟨7⟩ : FeatureId)) ∧
    parse? "Feature7" = some (object (⟨7⟩ : FeatureId)) ∧
      (object (⟨7⟩ : FeatureId)).text ≠ "Feature007" := by
  obtain ⟨htext, hiff, hplain⟩ := names_iff_spelling (object (⟨7⟩ : FeatureId))
  refine ⟨(hiff _).mpr ⟨rfl, 2, rfl⟩, htext.mpr rfl, fun h => ?_⟩
  exact absurd ((hplain 2).mp h.symm) (by simp)

end ObjectKey
end MinimalistGrammar
