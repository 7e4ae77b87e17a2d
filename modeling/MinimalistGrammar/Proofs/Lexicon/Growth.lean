import Mathlib.Data.List.Induction
import Mathlib.Logic.Relation
import MinimalistGrammar.Proofs.Lexicon.Trie

/-!
# How a lexicon grows

An entry leaves the nodes of a lexicon where they are and makes new ones only on the way from a root
down to its leaf. So a node keeps its features for good, and every node is at or above the leaf of
some entry. The inner nodes at or above a node stand for the ends of its features, one for each.

## Main definitions

* `Lexicon.Extends` — a lexicon with more nodes.
* `Lexicon.IsAbove` — a node on the way from another one up to its root.
* `Lexicon.Adds` — all that is new is on the way to one node.
* `Lexicon.leafAfter` — the leaf that an entry gets behind others.

## Main results

* `Lexicon.WellFormed.isAbove_iff_suffix`, `Lexicon.WellFormed.exists_isAbove_of_suffix` — the nodes
  above a node are the ends of its features.
* `Lexicon.adds_add` — what adding an entry makes.
* `Lexicon.exists_isAbove_leaf` — every node leads to the leaf of an entry.
-/

namespace MinimalistGrammar
namespace Lexicon

variable {lex lex' lex'' : Lexicon} {i j n p : Nat} {f : Feature} {fs gs : List Feature}
  {w : String}

/-- The features from a node up to its root, without their marks. -/
def plainFeatures (lex : Lexicon) (i : Nat) : List Feature := (lex.featuresOf i).map Feature.plain

/-! ### More nodes -/

/-- The nodes of `lex` are in `lex'` with the same contents, below the same nodes. -/
structure Extends (lex lex' : Lexicon) : Prop where
  size_le : lex.size ≤ lex'.size
  feature? {i : Nat} : i < lex.size → lex'.feature? i = lex.feature? i
  word? {i : Nat} : i < lex.size → lex'.word? i = lex.word? i
  parent? {i : Nat} : i < lex.size → lex'.parent? i = lex.parent? i

namespace Extends

theorem refl (lex : Lexicon) : lex.Extends lex :=
  ⟨Nat.le_refl _, fun _ => rfl, fun _ => rfl, fun _ => rfl⟩

theorem trans (h : lex.Extends lex') (h' : lex'.Extends lex'') : lex.Extends lex'' where
  size_le := Nat.le_trans h.size_le h'.size_le
  feature? hi := (h'.feature? (Nat.lt_of_lt_of_le hi h.size_le)).trans (h.feature? hi)
  word? hi := (h'.word? (Nat.lt_of_lt_of_le hi h.size_le)).trans (h.word? hi)
  parent? hi := (h'.parent? (Nat.lt_of_lt_of_le hi h.size_le)).trans (h.parent? hi)

end Extends

theorem lt_of_some_eq (hi : i < lex.size) : ∀ p, some i = some p → p < lex.size := by
  rintro _ ⟨⟩
  exact hi

theorem lt_of_none_eq (lex : Lexicon) : ∀ p, none = some p → p < lex.size := by simp

theorem size_push (lex : Lexicon) (content : Content) (parent : Option Nat) :
    (lex.push content parent).1.size = lex.size + 1 := by
  cases parent <;> simp [push, size]

section size

variable (content : Content) {parent : Option Nat} (hparent : ∀ p, parent = some p → p < lex.size)

include hparent

theorem feature?_push_size : (lex.push content parent).1.feature? lex.size =
    (LexicalNode.mk content [] parent).feature? := by
  rw [feature?_push hparent, if_pos rfl]

theorem word?_push_size : (lex.push content parent).1.word? lex.size =
    (LexicalNode.mk content [] parent).word? := by
  rw [word?_push hparent, if_pos rfl]

theorem parent?_push_size : (lex.push content parent).1.parent? lex.size = parent := by
  rw [parent?_push hparent, if_pos rfl]

theorem parts_push_size : (lex.push content parent).1.parts lex.size = [] := by
  rw [parts_push hparent, if_pos rfl]

end size

/-- A new node leaves the others as they are; the roots do not count. -/
theorem extends_push {content : Content} {parent : Option Nat}
    (hparent : ∀ p, parent = some p → p < lex.size) (roots : List Nat) :
    lex.Extends { (lex.push content parent).1 with roots } where
  size_le := by
    show lex.size ≤ (lex.push content parent).1.size
    rw [size_push]
    exact Nat.le_succ _
  feature? hi := (feature?_push hparent _).trans (if_neg (Nat.ne_of_lt hi))
  word? hi := (word?_push hparent _).trans (if_neg (Nat.ne_of_lt hi))
  parent? hi := (parent?_push hparent _).trans (if_neg (Nat.ne_of_lt hi))

theorem lt_size_of_parent? (h : lex.parent? i = some p) : i < lex.size := by
  rw [← isSome_node?_iff]
  cases hi : lex.node? i with
  | none => simp [parent?, hi] at h
  | some n => rfl

theorem WellFormed.parent_lt_size (hlex : lex.WellFormed) (h : lex.parent? i = some p) :
    p < lex.size :=
  Nat.lt_trans (hlex.parent_lt h) (lt_size_of_parent? h)

/-- A node keeps its features. -/
theorem Extends.featuresOf (h : lex.Extends lex') (hlex : lex.WellFormed) (hlex' : lex'.WellFormed)
    (hi : i < lex.size) : lex'.featuresOf i = lex.featuresOf i := by
  induction i using Nat.strongRecOn with
  | _ i ih =>
    rw [hlex.featuresOf_eq, hlex'.featuresOf_eq, h.feature? hi, h.parent? hi]
    cases hp : lex.parent? i with
    | none => rfl
    | some p =>
      have hup : lex'.featuresOf p = lex.featuresOf p :=
        ih p (hlex.parent_lt hp) (hlex.parent_lt_size hp)
      rw [featuresUp, featuresUp, Option.elim_some, Option.elim_some, hup]

/-! ### Nodes above a node -/

/-- Node `i` is `j` itself or on the way from `j` up to its root. -/
def IsAbove (lex : Lexicon) : Nat → Nat → Prop :=
  Relation.ReflTransGen fun p i => lex.parent? i = some p

theorem isAbove_iff : lex.IsAbove i j ↔ j = i ∨ ∃ p, lex.IsAbove i p ∧ lex.parent? j = some p :=
  Relation.ReflTransGen.cases_tail_iff ..

theorem IsAbove.refl (lex : Lexicon) (i : Nat) : lex.IsAbove i i := Relation.ReflTransGen.refl

theorem IsAbove.trans (hij : lex.IsAbove i j) (hjn : lex.IsAbove j n) : lex.IsAbove i n :=
  Relation.ReflTransGen.trans hij hjn

theorem IsAbove.tail (h : lex.IsAbove i p) (hj : lex.parent? j = some p) : lex.IsAbove i j :=
  Relation.ReflTransGen.tail h hj

/-- No more nodes come in above a node. -/
theorem Extends.isAbove_iff (h : lex.Extends lex') (hlex : lex.WellFormed) (hj : j < lex.size) :
    lex'.IsAbove i j ↔ lex.IsAbove i j := by
  induction j using Nat.strongRecOn with
  | _ j ih =>
    have hstep (p : Nat) : lex'.IsAbove i p ∧ lex.parent? j = some p ↔
        lex.IsAbove i p ∧ lex.parent? j = some p :=
      and_congr_left fun hp => ih p (hlex.parent_lt hp) (hlex.parent_lt_size hp)
    refine Lexicon.isAbove_iff.trans (Iff.trans ?_ Lexicon.isAbove_iff.symm)
    rw [h.parent? hj]
    exact or_congr_right (exists_congr hstep)

namespace WellFormed

variable (hlex : lex.WellFormed)

include hlex

theorem le_of_isAbove (h : lex.IsAbove i j) : i ≤ j := by
  induction h with
  | refl => exact Nat.le_refl _
  | tail _ hp ih => exact Nat.le_trans ih (Nat.le_of_lt (hlex.parent_lt hp))

/-- Nothing is below a word. -/
theorem eq_of_isAbove_of_word? (hw : lex.word? i = some w) (h : lex.IsAbove i j) : j = i := by
  induction h with
  | refl => rfl
  | tail _ hp ih =>
    have hfeature := hlex.isSome_feature?_of_parent? hp
    rw [ih, feature?_eq_none_of_word? hw] at hfeature
    simp at hfeature

/-- The leaf for a word hangs where it was looked for. -/
theorem of_leafWith? {c : Nat} (h : lex.leafWith? i w = some c) :
    lex.parent? c = some i ∧ lex.word? c = some w :=
  ⟨hlex.mem_parts.mp (List.mem_of_find?_eq_some h), by simpa using List.find?_some h⟩

theorem plainFeatures_eq (i : Nat) : lex.plainFeatures i =
    ((lex.feature? i).map Feature.plain).toList ++ (lex.parent? i).elim [] lex.plainFeatures := by
  rw [plainFeatures, hlex.featuresOf_eq, featuresUp, List.map_append]
  congr 1
  · cases lex.feature? i <;> rfl
  · cases lex.parent? i <;> rfl

theorem plainFeatures_ne_nil (hi : (lex.feature? i).isSome) : lex.plainFeatures i ≠ [] := by
  obtain ⟨f, hf⟩ := Option.isSome_iff_exists.mp hi
  rw [hlex.plainFeatures_eq, hf]
  simp

/-- An inner node is known by its features. -/
theorem eq_of_plainFeatures (hi : (lex.feature? i).isSome) (hj : (lex.feature? j).isSome)
    (heq : lex.plainFeatures i = lex.plainFeatures j) : i = j :=
  hlex.eq_of_map_plain_featuresOf hi hj heq

theorem suffix_of_isAbove (h : lex.IsAbove i j) : lex.plainFeatures i <:+ lex.plainFeatures j := by
  induction h with
  | refl => exact List.suffix_refl _
  | tail _ hp ih =>
    rename_i p j _
    have hsuffix : lex.plainFeatures p <:+ lex.plainFeatures j := by
      rw [hlex.plainFeatures_eq j, hp]
      exact List.suffix_append _ _
    exact ih.trans hsuffix

/-- Every end of the features of a node is that of an inner node above. -/
theorem exists_isAbove_of_suffix (h : gs <:+ lex.plainFeatures j) (hne : gs ≠ []) :
    ∃ i, lex.IsAbove i j ∧ (lex.feature? i).isSome ∧ lex.plainFeatures i = gs := by
  induction j using Nat.strongRecOn with
  | _ j ih =>
    -- an end that is not the whole is one of the features of the node right above
    have habove (h : gs <:+ (lex.parent? j).elim [] lex.plainFeatures) :
        ∃ i, lex.IsAbove i j ∧ (lex.feature? i).isSome ∧ lex.plainFeatures i = gs := by
      cases hp : lex.parent? j with
      | none =>
        rw [hp] at h
        exact absurd (List.suffix_nil.mp h) hne
      | some p =>
        rw [hp] at h
        obtain ⟨i, hip, hi⟩ := ih p (hlex.parent_lt hp) h
        exact ⟨i, hip.tail hp, hi⟩
    cases hf : lex.feature? j with
    | none =>
      rw [hlex.plainFeatures_eq, hf] at h
      exact habove h
    | some f =>
      rw [hlex.plainFeatures_eq, hf] at h
      rcases List.suffix_cons_iff.mp h with heq | h
      · refine ⟨j, IsAbove.refl lex j, by simp [hf], ?_⟩
        rw [hlex.plainFeatures_eq, hf, heq]
        rfl
      · exact habove h

/-- The inner nodes above a node are those whose features end its own. -/
theorem isAbove_iff_suffix (hi : (lex.feature? i).isSome) :
    lex.IsAbove i j ↔ lex.plainFeatures i <:+ lex.plainFeatures j := by
  constructor
  · exact hlex.suffix_of_isAbove
  · intro h
    obtain ⟨n, hnj, hn, heq⟩ := hlex.exists_isAbove_of_suffix h (hlex.plainFeatures_ne_nil hi)
    rwa [hlex.eq_of_plainFeatures hn hi heq] at hnj

end WellFormed

/-- A node keeps its features. -/
theorem Extends.plainFeatures (h : lex.Extends lex') (hlex : lex.WellFormed)
    (hlex' : lex'.WellFormed) (hi : i < lex.size) : lex'.plainFeatures i = lex.plainFeatures i :=
  congrArg (List.map Feature.plain) (h.featuresOf hlex hlex' hi)

/-! ### What an entry makes -/

theorem rootFor_of_some {r : Nat} (h : lex.root? f = some r) : lex.rootFor f = (lex, r) := by
  rw [rootFor, h]

theorem rootFor_of_none (h : lex.root? f = none) : lex.rootFor f =
    ({ (lex.push (.feature f) none).1 with roots := lex.roots ++ [lex.size] }, lex.size) := by
  rw [rootFor, h]
  rfl

theorem childFor_of_some {c : Nat} (h : lex.childWith? i f = some c) :
    lex.childFor i f = (lex, c) := by
  rw [childFor, h]

theorem childFor_of_none (h : lex.childWith? i f = none) :
    lex.childFor i f = lex.push (.feature f) (some i) := by
  rw [childFor, h]

theorem leafFor_of_some {c : Nat} (h : lex.leafWith? i w = some c) :
    lex.leafFor i w = (lex, c) := by
  rw [leafFor, h]

theorem leafFor_of_none (h : lex.leafWith? i w = none) :
    lex.leafFor i w = lex.push (.word w) (some i) := by
  rw [leafFor, h]

/-- Node `n` of `lex'` has the features `fs`, and all that `lex` has not is above `n`. -/
structure Adds (lex lex' : Lexicon) (n : Nat) (fs : List Feature) : Prop where
  grows : lex.Extends lex'
  wellFormed : lex'.WellFormed
  lt_size : n < lex'.size
  plainFeatures : lex'.plainFeatures n = fs.map Feature.plain
  isAbove {i : Nat} : lex.size ≤ i → i < lex'.size → lex'.IsAbove i n

namespace Adds

/-- The way goes one node further down, to a node that was there. -/
theorem found (h : Adds lex lex' n fs) (gs : List Feature) (hp : lex'.parent? p = some n)
    (hfeature : ((lex'.feature? p).map Feature.plain).toList = gs.map Feature.plain) :
    Adds lex lex' p (gs ++ fs) where
  grows := h.grows
  wellFormed := h.wellFormed
  lt_size := lt_size_of_parent? hp
  plainFeatures := by
    rw [h.wellFormed.plainFeatures_eq, hp, hfeature, Option.elim_some, h.plainFeatures,
      List.map_append]
  isAbove hi hi' := (h.isAbove hi hi').tail hp

/-- The way goes one node further down, to a new node. -/
theorem made (h : Adds lex lex' n fs) (gs : List Feature) {content : Content}
    (hmade : (lex'.push content (some n)).1.WellFormed)
    (hfeature : ((LexicalNode.mk content [] (some n)).feature?.map Feature.plain).toList =
      gs.map Feature.plain) :
    Adds lex (lex'.push content (some n)).1 lex'.size (gs ++ fs) := by
  have hparent := lt_of_some_eq h.lt_size
  have hgrows : lex'.Extends (lex'.push content (some n)).1 := extends_push hparent lex'.roots
  have hp := parent?_push_size content hparent
  have hf := feature?_push_size content hparent
  refine ⟨h.grows.trans hgrows, hmade, lt_size_of_parent? hp, ?_, ?_⟩
  · rw [hmade.plainFeatures_eq, hp, hf, hfeature, Option.elim_some,
      hgrows.plainFeatures h.wellFormed hmade h.lt_size, h.plainFeatures, List.map_append]
  · intro i hi hi'
    rw [size_push] at hi'
    rcases Nat.lt_succ_iff_lt_or_eq.mp hi' with hold | rfl
    · exact ((hgrows.isAbove_iff h.wellFormed h.lt_size).mpr (h.isAbove hi hold)).tail hp
    · exact IsAbove.refl _ _

theorem childFor (h : Adds lex lex' n fs) (hn : (lex'.feature? n).isSome) (f : Feature) :
    Adds lex (lex'.childFor n f).1 (lex'.childFor n f).2 (f :: fs) := by
  have hmade := (h.wellFormed.childFor hn f).1
  cases hc : lex'.childWith? n f with
  | some c =>
    obtain ⟨hp, g, hg, hagrees⟩ := h.wellFormed.childWith?_eq_some_iff.mp hc
    rw [childFor_of_some hc]
    refine h.found [f] hp ?_
    rw [List.map_singleton, Feature.agrees_iff_plain.mp hagrees, hg]
    rfl
  | none =>
    rw [childFor_of_none hc] at hmade ⊢
    exact h.made [f] hmade rfl

theorem pathFor (h : Adds lex lex' n fs) (hn : (lex'.feature? n).isSome) (gs : List Feature) :
    Adds lex (lex'.pathFor n gs).1 (lex'.pathFor n gs).2 (gs.reverse ++ fs) := by
  induction gs generalizing lex' n fs with
  | nil => exact h
  | cons f gs ih =>
    rw [List.reverse_cons, List.append_assoc]
    exact ih (h.childFor hn f) (h.wellFormed.childFor hn f).2

theorem leafFor (h : Adds lex lex' n fs) (hn : (lex'.feature? n).isSome) (w : String) :
    Adds lex (lex'.leafFor n w).1 (lex'.leafFor n w).2 fs ∧
      (lex'.leafFor n w).1.word? (lex'.leafFor n w).2 = some w := by
  have hmade := h.wellFormed.leafFor hn w
  cases hc : lex'.leafWith? n w with
  | some c =>
    obtain ⟨hp, hw⟩ := h.wellFormed.of_leafWith? hc
    rw [leafFor_of_some hc]
    refine ⟨h.found [] hp ?_, hw⟩
    rw [feature?_eq_none_of_word? hw]
    rfl
  | none =>
    rw [leafFor_of_none hc] at hmade ⊢
    refine ⟨h.made [] hmade rfl, ?_⟩
    exact word?_push_size (.word w) (lt_of_some_eq h.lt_size)

end Adds

/-- A node that hangs below nothing is all that is new. -/
theorem adds_push_none {content : Content} {roots : List Nat}
    (hmade : ({ (lex.push content none).1 with roots } : Lexicon).WellFormed)
    (hfeature : ((LexicalNode.mk content [] none).feature?.map Feature.plain).toList =
      fs.map Feature.plain) :
    Adds lex { (lex.push content none).1 with roots } lex.size fs := by
  have hparent := lt_of_none_eq lex
  have hsize : ({ (lex.push content none).1 with roots } : Lexicon).size = lex.size + 1 :=
    size_push lex content none
  have hp : ({ (lex.push content none).1 with roots } : Lexicon).parent? lex.size = none :=
    parent?_push_size content hparent
  have hf : ({ (lex.push content none).1 with roots } : Lexicon).feature? lex.size =
      (LexicalNode.mk content [] none).feature? := feature?_push_size content hparent
  refine ⟨extends_push hparent roots, hmade, by omega, ?_, ?_⟩
  · rw [hmade.plainFeatures_eq, hp, hf, hfeature, Option.elim_none, List.append_nil]
  · intro i hi hi'
    obtain rfl : i = lex.size := by omega
    exact IsAbove.refl _ _

theorem adds_rootFor (hlex : lex.WellFormed) (f : Feature) :
    Adds lex (lex.rootFor f).1 (lex.rootFor f).2 [f] := by
  have hmade := (hlex.rootFor f).1
  cases hr : lex.root? f with
  | some r =>
    obtain ⟨hp, g, hg, hagrees⟩ := hlex.root?_eq_some_iff.mp hr
    rw [rootFor_of_some hr]
    refine ⟨Extends.refl lex, hlex, lt_size_of_feature? (by simp [hg]), ?_, ?_⟩
    · rw [hlex.plainFeatures_eq, hp, hg, List.map_singleton, Feature.agrees_iff_plain.mp hagrees]
      rfl
    · exact fun hi hi' => absurd hi' (Nat.not_lt.mpr hi)
  | none =>
    rw [rootFor_of_none hr] at hmade ⊢
    exact adds_push_none hmade rfl

/-- Adding an entry makes its leaf and nodes above it, as far as they are not there yet. -/
theorem adds_add (hlex : lex.WellFormed) (w : String) (fs : List Feature) :
    Adds lex (lex.add w fs).1 (lex.add w fs).2 fs ∧
      (lex.add w fs).1.word? (lex.add w fs).2 = some w := by
  have hmade := hlex.add w fs
  rw [add] at hmade ⊢
  split
  · next hnil =>
    rw [hnil] at hmade
    obtain rfl : fs = [] := List.reverse_eq_nil_iff.mp hnil
    exact ⟨adds_push_none hmade rfl, word?_push_size (.word w) (lt_of_none_eq lex)⟩
  · next last others hcons =>
    obtain rfl : fs = others.reverse ++ [last] := by
      rw [← List.reverse_reverse fs, hcons, List.reverse_cons]
    have hroot := hlex.rootFor last
    have hpath := hroot.1.pathFor hroot.2 others
    exact ((adds_rootFor hlex last).pathFor hroot.2 others).leafFor hpath.2 w

/-! ### All entries -/

theorem ofEntries_concat (calls : List (String × List Feature)) (w : String) (fs : List Feature) :
    ofEntries (calls ++ [(w, fs)]) = ((ofEntries calls).add w fs).1 := by
  rw [ofEntries, List.foldl_append, List.foldl_cons, List.foldl_nil, ofEntries]

/-- The leaf that an entry gets behind other entries. -/
def leafAfter (before : List (String × List Feature)) (call : String × List Feature) : Nat :=
  ((ofEntries before).add call.1 call.2).2

/-- One more entry makes its leaf and nodes above it. -/
theorem adds_concat (calls : List (String × List Feature)) (call : String × List Feature) :
    Adds (ofEntries calls) (ofEntries (calls ++ [call])) (leafAfter calls call) call.2 ∧
      (ofEntries (calls ++ [call])).word? (leafAfter calls call) = some call.1 := by
  obtain ⟨w, fs⟩ := call
  rw [ofEntries_concat]
  exact adds_add (wellFormed_ofEntries calls) w fs

theorem extends_append (before after : List (String × List Feature)) :
    (ofEntries before).Extends (ofEntries (before ++ after)) := by
  induction after generalizing before with
  | nil =>
    rw [List.append_nil]
    exact Extends.refl _
  | cons call after ih =>
    rw [List.append_cons]
    exact (adds_concat before call).1.grows.trans (ih _)

/-- The leaf of an entry stays there. -/
theorem leafAfter_lt (before : List (String × List Feature)) (call : String × List Feature)
    (after : List (String × List Feature)) :
    leafAfter before call < (ofEntries (before ++ call :: after)).size := by
  rw [List.append_cons]
  exact Nat.lt_of_lt_of_le (adds_concat before call).1.lt_size (extends_append _ after).size_le

/-- Every node is the leaf of an entry or above one. -/
theorem exists_isAbove_leaf {calls : List (String × List Feature)}
    (hi : i < (ofEntries calls).size) :
    ∃ before call after, calls = before ++ call :: after ∧
      (ofEntries calls).IsAbove i (leafAfter before call) := by
  induction calls using List.reverseRecOn with
  | nil => simp [size] at hi
  | append_singleton calls call ih =>
    obtain ⟨hadds, -⟩ := adds_concat calls call
    rcases Nat.lt_or_ge i (ofEntries calls).size with hold | hnew
    · obtain ⟨before, earlier, after, rfl, habove⟩ := ih hold
      refine ⟨before, earlier, after ++ [call], by simp, ?_⟩
      exact (hadds.grows.isAbove_iff (wellFormed_ofEntries _) (leafAfter_lt ..)).mpr habove
    · exact ⟨calls, call, [], rfl, hadds.isAbove hnew hi⟩

end Lexicon
end MinimalistGrammar
