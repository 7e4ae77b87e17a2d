import Mathlib.Data.List.Basic
import MinimalistGrammar.Proofs.Tree.Standalone
import MinimalistGrammar.Tree.Display

/-!
# What a tree looks like

The words of a tree and its text depend on the nodes below its root only, and of these only on their
labels, their parts, their features and where they are pronounced.

## Main definitions

* `Store.face?` — what is seen of a node.

## Main results

* `Store.linearize_congr`, `Store.display_congr` — trees of which the same is seen look alike.
-/

namespace MinimalistGrammar

/-- What is seen of a node. -/
structure Face where
  label : String
  parts : List ConstituentId
  /-- The features that are left. -/
  features : List Feature
  /-- The node below which this one is pronounced, if it has moved. -/
  landing : Option ConstituentId
deriving DecidableEq

namespace Store

/-- What is seen of the node with a given identifier. -/
def face? (s : Store) (id : ConstituentId) : Option Face :=
  (s.constituent? id).map fun c => ⟨c.label, c.parts, s.featureValues id, c.landing⟩

variable {s s' : Store} {root id part : ConstituentId} {l : Link} {o : Outline}

theorem face?_eq {c : Constituent} (hc : s.constituent? id = some c) :
    s.face? id = some ⟨c.label, c.parts, s.featureValues id, c.landing⟩ := by
  rw [face?, hc]
  rfl

/-- The parts of a node in a tree are in the tree. -/
theorem Hangs.of_part (h : s.Hangs root (.constituent id)) (ho : s.outline? id = some o)
    (hpart : part ∈ o.parts) : s.Hangs root (.constituent part) := by
  generalize hl : Link.constituent id = l at h
  induction h with
  | node root =>
    obtain rfl := Link.constituent.inj hl
    exact .part ho hpart (.node part)
  | feature _ _ => exact absurd hl (by simp)
  | part hroot hmem _ ih => exact .part hroot hmem (ih hl)

/-- What is part of the tree below a node of a tree is part of that tree. -/
theorem Hangs.trans (h : s.Hangs root (.constituent id)) (hl : s.Hangs id l) : s.Hangs root l := by
  generalize hid : Link.constituent id = l' at h
  induction h with
  | node root =>
    obtain rfl := Link.constituent.inj hid
    exact hl
  | feature _ _ => exact absurd hid (by simp)
  | part hroot hmem _ ih => exact .part hroot hmem (ih hid)

/-- What hangs below a node hangs below it where the same is seen. -/
theorem Hangs.of_face? (hid : s.Hangs root (.constituent id))
    (h : ∀ a, s.Hangs root (.constituent a) → s'.face? a = s.face? a) :
    s'.Hangs root (.constituent id) := by
  generalize hl : Link.constituent id = l at hid
  induction hid with
  | node root =>
    obtain rfl := Link.constituent.inj hl
    exact .node id
  | feature _ _ => exact absurd hl (by simp)
  | @part root part o l ho hpart _ ih =>
    obtain ⟨c, hc, rfl⟩ := Option.map_eq_some_iff.mp ho
    have hface := (h root (.node root)).trans (face?_eq hc)
    obtain ⟨c', hc', heq⟩ := Option.map_eq_some_iff.mp hface
    have hparts : c'.parts = c.parts := congrArg Face.parts heq
    refine .part (outline?_eq hc') (?_ : part ∈ c'.parts)
      (ih (fun a ha => h a (.part ho hpart ha)) hl)
    rw [hparts]
    exact hpart

/-- Of a node the same is seen if it and its features are as they were. -/
theorem face?_congr (hnode : s'.constituent? id = s.constituent? id)
    (hfeatures : ∀ o, s.outline? id = some o → ∀ f ∈ o.features, s'.feature? f = s.feature? f) :
    s'.face? id = s.face? id := by
  have hvalues : s'.featureValues id = s.featureValues id := by
    rw [featureValues, featureValues, hnode]
    cases hc : s.constituent? id with
    | none => rfl
    | some c =>
      refine List.filterMap_congr fun f hf => ?_
      rw [hfeatures c.outline (outline?_eq hc) f hf]
  rw [face?, face?, hnode, hvalues]

theorem landing_eq_of_face? (h : s'.face? id = s.face? id) :
    (s'.constituent? id).bind (·.landing) = (s.constituent? id).bind (·.landing) := by
  have hlanding (t : Store) :
      (t.constituent? id).bind (·.landing) = (t.face? id).bind (·.landing) := by
    rw [face?]
    cases t.constituent? id <;> rfl
  rw [hlanding, hlanding, h]

section congr

variable (h : ∀ id, s.Hangs root (.constituent id) → s'.face? id = s.face? id)

include h

/-- A node of which the same is seen has the same label, parts, features and landing. -/
theorem exists_of_face? (hid : s.Hangs root (.constituent id)) {c : Constituent}
    (hc : s.constituent? id = some c) : ∃ c', s'.constituent? id = some c' ∧ c'.label = c.label ∧
      c'.parts = c.parts ∧ c'.landing = c.landing ∧ s'.featureValues id = s.featureValues id := by
  have hface := h id hid
  rw [face?_eq hc] at hface
  obtain ⟨c', hc', heq⟩ := Option.map_eq_some_iff.mp hface
  obtain ⟨hlabel, hparts, hfeatures, hlanding⟩ := Face.mk.inj heq
  exact ⟨c', hc', hlabel, hparts, hlanding, hfeatures⟩

theorem constituent?_eq_none_of_face? (hid : s.Hangs root (.constituent id))
    (hc : s.constituent? id = none) : s'.constituent? id = none := by
  have hface := h id hid
  rw [face?, face?, hc] at hface
  exact Option.map_eq_none_iff.mp hface

theorem pronouncedParts_congr (hid : s.Hangs root (.constituent id)) {c : Constituent}
    (hc : s.constituent? id = some c) : s'.pronouncedParts id = s.pronouncedParts id := by
  obtain ⟨c', hc', -, hparts, -, -⟩ := exists_of_face? h hid hc
  rw [pronouncedParts, pronouncedParts, hc', hc, Option.elim_some, Option.elim_some, hparts]
  refine List.filter_congr fun part hpart => ?_
  have hbelow := hid.of_part (outline?_eq hc) hpart
  rw [landing_eq_of_face? (h part hbelow)]

/-- Nodes below which the same is seen have the same words. -/
theorem linearizeBelow_congr (hid : s.Hangs root (.constituent id)) (path : List ConstituentId) :
    s'.linearizeBelow path id = s.linearizeBelow path id := by
  fun_induction s.linearizeBelow path id with
  | case1 path id hc =>
    rw [linearizeBelow]
    split
    · rfl
    · next c' hc' =>
      rw [constituent?_eq_none_of_face? h hid hc] at hc'
      exact absurd hc' (by simp)
  | case2 path id c hc hmem =>
    rw [linearizeBelow]
    split
    · rfl
    · rw [dif_pos hmem]
  | case3 path id c hc hmem ih =>
    obtain ⟨c', hc', hlabel, hparts, -, -⟩ := exists_of_face? h hid hc
    have hleaf : c'.outline.parts.isEmpty = c.isLeaf := by
      rw [Constituent.isLeaf, ← hparts]
      rfl
    rw [linearizeBelow_eq (outline?_eq hc') hmem, pronouncedParts_congr h hid hc, hleaf,
      show c'.outline.label = c.label from hlabel]
    refine congrArg _ (List.flatMap_congr fun part hpart => ?_)
    rw [pronouncedParts, hc] at hpart
    exact ih part (hid.of_part (outline?_eq hc) (List.mem_filter.mp hpart).1)

/-- A node of which the same is seen is shown alike if its parts are. -/
theorem displayBelow_congr_of_parts (hid : s.Hangs root (.constituent id)) {levels : Nat}
    (parent : Option ConstituentId) (hbelow : ∀ n part, levels = n + 1 →
      s.Hangs root (.constituent part) → s'.displayBelow n (some id) part = s.displayBelow n
    (some id) part) : s'.displayBelow levels parent id = s.displayBelow levels parent id := by
  rw [displayBelow, displayBelow]
  cases hc : s.constituent? id with
  | none => rw [constituent?_eq_none_of_face? h hid hc]
  | some c =>
    obtain ⟨c', hc', hlabel, hparts, hlanding, hvalues⟩ := exists_of_face? h hid hc
    have hmoved : isMovedAway c' parent = isMovedAway c parent := by
      unfold isMovedAway
      rw [hlanding]
    have hleaf : c'.isLeaf = c.isLeaf := by rw [Constituent.isLeaf, Constituent.isLeaf, hparts]
    have hwords : s'.linearize id = s.linearize id := linearizeBelow_congr h hid []
    simp only [hc', hlabel, hmoved, hleaf, hwords, hvalues]
    cases levels with
    | zero => rfl
    | succ n =>
      have hlines : c'.parts.map (fun part => "\n" ++ s'.displayBelow n (some id) part) =
          c.parts.map fun part => "\n" ++ s.displayBelow n (some id) part := by
        rw [hparts]
        refine List.map_congr_left fun part hpart => ?_
        rw [hbelow n part rfl (hid.of_part (outline?_eq hc) hpart)]
      simp only [hlines]

/-- Nodes below which the same is seen are shown alike. -/
theorem displayBelow_congr (hid : s.Hangs root (.constituent id)) (levels : Nat)
    (parent : Option ConstituentId) :
    s'.displayBelow levels parent id = s.displayBelow levels parent id := by
  induction levels generalizing id parent with
  | zero => exact displayBelow_congr_of_parts h hid parent fun n _ heq => absurd heq (by simp)
  | succ levels ih =>
    refine displayBelow_congr_of_parts h hid parent fun n part heq hpart => ?_
    obtain rfl := Nat.succ.inj heq
    exact ih hpart _

/-- Trees of which the same is seen have the same words. -/
theorem linearize_congr :
    s'.linearize root = s.linearize root := linearizeBelow_congr h (.node root) []

/-- Trees of which the same is seen have the same text. -/
theorem display_congr : s'.display root = s.display root := displayBelow_congr h (.node root) _ none

end congr

end Store
end MinimalistGrammar
