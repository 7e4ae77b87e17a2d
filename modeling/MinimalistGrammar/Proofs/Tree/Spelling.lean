import MinimalistGrammar.Proofs.Tree.Outline
import MinimalistGrammar.Tree.Linearize

/-!
# The words of a tree

In a tree that was built from the words up, a node comes after everything below it. So no node is
below itself, and the words of a node are those of its parts, but for the parts that have landed
elsewhere.

## Main definitions

* `Store.Spells` — the words of a node, whatever later nodes are above it.
* `Store.SpellsUnder` — what a part contributes to the words of a node.
* `Store.Settles` — some movers have landed outside a part of the tree, and nothing else has
  changed.

## Main results

* `Store.spells_leaf`, `Store.spells_pair` — the words of a leaf and of a node with two parts.
-/

namespace MinimalistGrammar
namespace Store

variable {s : Store} {id part : ConstituentId} {o : Outline} {words : List String} {k : Nat}

/-- The node below which a node is pronounced, if it has moved. -/
def landing? (s : Store) (id : ConstituentId) : Option ConstituentId :=
  (s.outline? id).bind Outline.landing

theorem landing?_eq (ho : s.outline? id = some o) : s.landing? id = o.landing := by
  rw [landing?, ho, Option.bind_some]

theorem constituent?_landing (id : ConstituentId) :
    (s.constituent? id).bind (·.landing) = s.landing? id := by
  rw [landing?, outline?]
  cases s.constituent? id <;> rfl

theorem pronouncedParts_eq (ho : s.outline? id = some o) :
    s.pronouncedParts id = o.parts.filter fun part =>
      match s.landing? part with
      | some landing => landing == id
      | none => true := by
  obtain ⟨c, hc, rfl⟩ := Option.map_eq_some_iff.mp ho
  rw [pronouncedParts, hc]
  simp only [constituent?_landing]
  rfl

theorem linearizeBelow_eq (ho : s.outline? id = some o) {path : List ConstituentId}
    (hp : id ∉ path) :
    s.linearizeBelow path id =
      (if o.parts.isEmpty then tokens o.label else []) ++
        (s.pronouncedParts id).flatMap fun part => s.linearizeBelow (id :: path) part := by
  obtain ⟨c, hc, rfl⟩ := Option.map_eq_some_iff.mp ho
  rw [linearizeBelow]
  split
  · next hnone => exact absurd (hnone.symm.trans hc) (by simp)
  · next c' hc' =>
    obtain rfl := Option.some.inj (hc'.symm.trans hc)
    rw [dif_neg hp]
    rfl

/-- The words of a node, if all nodes above it have numbers from `k` on. -/
def Spells (s : Store) (k : Nat) (id : ConstituentId) (words : List String) : Prop :=
  ∀ path : List ConstituentId, (∀ above ∈ path, k ≤ above.index) → s.linearizeBelow path id = words

theorem Spells.mono {l : Nat} (h : s.Spells k id words) (hkl : k ≤ l) : s.Spells l id words :=
  fun path hpath => h path fun above habove => Nat.le_trans hkl (hpath above habove)

theorem Spells.linearize_eq (h : s.Spells k id words) : s.linearize id = words :=
  h [] fun _ habove => absurd habove (by simp)

/-- What a part contributes to the words of a node: its words, or nothing if it has landed
elsewhere. -/
inductive SpellsUnder (s : Store) (id part : ConstituentId) : List String → Prop
  | stays {words : List String} (hlanding : s.landing? part = none)
      (hwords : s.Spells id.index part words) : SpellsUnder s id part words
  | lands {words : List String} (hlanding : s.landing? part = some id)
      (hwords : s.Spells id.index part words) : SpellsUnder s id part words
  | goes {other : ConstituentId} (hlanding : s.landing? part = some other) (hne : other ≠ id) :
      SpellsUnder s id part []

/-- What a part contributes comes first among what the parts contribute. -/
theorem SpellsUnder.flatMap_filter_cons (h : s.SpellsUnder id part words)
    {path : List ConstituentId} (hpath : ∀ above ∈ id :: path, id.index ≤ above.index)
    (parts : List ConstituentId) :
    ((part :: parts).filter fun part =>
      match s.landing? part with
      | some landing => landing == id
      | none => true).flatMap (fun part => s.linearizeBelow (id :: path) part) =
    words ++ (parts.filter fun part =>
      match s.landing? part with
      | some landing => landing == id
      | none => true).flatMap (fun part => s.linearizeBelow (id :: path) part) := by
  cases h with
  | stays hlanding hwords =>
    rw [List.filter_cons, hlanding, if_pos rfl, List.flatMap_cons, hwords _ hpath]
  | lands hlanding hwords =>
    rw [List.filter_cons, hlanding, if_pos (by simp), List.flatMap_cons, hwords _ hpath]
  | goes hlanding hne =>
    rw [List.filter_cons, hlanding, if_neg (by simpa using hne), List.nil_append]

theorem notMem_path {path : List ConstituentId}
    (hpath : ∀ above ∈ path, id.index + 1 ≤ above.index) :
    id ∉ path ∧ ∀ above ∈ id :: path, id.index ≤ above.index := by
  refine ⟨fun hmem => absurd (hpath id hmem) (Nat.not_succ_le_self _), fun above habove => ?_⟩
  rcases List.mem_cons.mp habove with rfl | habove
  · exact Nat.le_refl _
  · exact Nat.le_of_succ_le (hpath above habove)

/-- A leaf is pronounced as its label. -/
theorem spells_leaf (ho : s.outline? id = some o) (hparts : o.parts = []) :
    s.Spells (id.index + 1) id (tokens o.label) := by
  intro path hpath
  rw [linearizeBelow_eq ho (notMem_path hpath).1, pronouncedParts_eq ho, hparts]
  simp

/-- A node with two parts is pronounced as they are. -/
theorem spells_pair {left right : ConstituentId} {words' : List String}
    (ho : s.outline? id = some o) (hparts : o.parts = [left, right])
    (hleft : s.SpellsUnder id left words) (hright : s.SpellsUnder id right words') :
    s.Spells (id.index + 1) id (words ++ words') := by
  intro path hpath
  obtain ⟨hnotMem, habove⟩ := notMem_path hpath
  rw [linearizeBelow_eq ho hnotMem, pronouncedParts_eq ho, hparts,
    hleft.flatMap_filter_cons habove, hright.flatMap_filter_cons habove]
  simp

/-- Of the nodes of a tree, `size` in number from `base` on, those that waited have landed behind
the tree. The root may have landed as well, and nothing else has changed. -/
structure Settles (s s' : Store) (base size : Nat) (waiting : Dict String Nat) : Prop where
  stay {n : Nat} : n + 1 < size → (∀ z, waiting.get? z ≠ some n) →
    s'.outline? ⟨base + n⟩ = s.outline? ⟨base + n⟩
  go {z : String} {n : Nat} : waiting.get? z = some n →
    ∃ o landing, s.outline? ⟨base + n⟩ = some o ∧
      s'.outline? ⟨base + n⟩ = some { o with landing := some landing } ∧ base + size ≤ landing.index
  root {n : Nat} : n + 1 = size → ∃ o landing, s.outline? ⟨base + n⟩ = some o ∧
    s'.outline? ⟨base + n⟩ = some { o with landing }

end Store
end MinimalistGrammar
