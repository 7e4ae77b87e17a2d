import MinimalistGrammar.Proofs.Tree.Building
import MinimalistGrammar.Proofs.Tree.Pending
import MinimalistGrammar.Proofs.Tree.Spending

/-!
# Where the features of a tree are

In the rebuilt tree of a derivation in which every licensor finds what waits for it, each feature is
at any time in one of three places: it is left at the root, it has been spent, or it is left at a
mover that still waits. So at the end of the derivation only what is left at the root is not spent.
The movers keep their features apart from each other and from those of the root, so no feature ever
checks one on its own leaf.

## Main definitions

* `Store.Carries` — a mover has some features at its node.
* `Store.Spends` — where the features of a rebuilt tree are.

## Main results

* `Store.Spends.merge`, `Store.Spends.move` — one step of building.
* `Store.spends_build` — the tree of a faithful derivation.
-/

namespace MinimalistGrammar
namespace Store

/-- A mover of a derivation that was built on top of `s` has some features at its node. -/
def Carries (lex : Lexicon) (s s' : Store) (d : Derivation) (p : Phrase) (n : Nat) (m : Moved)
    (ids : List FeatureId) : Prop :=
  d.Awaits lex p n m ∧ ∃ o, s'.outline? ⟨s.nextConstituent + n⟩ = some o ∧ o.features = ids

/-- What a store `s'` holds of the features of a derivation that was built on top of `s`, `root`
being the root of the tree: those that have not been spent are left at the root or at movers. No two
of these nodes share a feature, no mover sits on the leaf of the root, and no new feature has
checked one on its own leaf. -/
structure Spends (lex : Lexicon) (s s' : Store) (d : Derivation) (p : Phrase)
    (root : Outline) : Prop where
  spent {fid : FeatureId} : s.Added s' (.feature fid) → fid ∈ root.features ∨ s'.IsSpent fid ∨
    ∃ n m ids, Carries lex s s' d p n m ids ∧ fid ∈ ids
  leaves {n : Nat} {m : Moved} {ids : List FeatureId} : Carries lex s s' d p n m ids →
    s'.Leaves ids m.features
  apart {n : Nat} {m : Moved} {ids : List FeatureId} {a b : FeatureId} :
    Carries lex s s' d p n m ids → a ∈ root.features → b ∈ ids → ¬s'.SameLeaf a b
  different {n n' : Nat} {m m' : Moved} {ids ids' : List FeatureId} {fid : FeatureId} :
    Carries lex s s' d p n m ids → Carries lex s s' d p n' m' ids' → n ≠ n' → fid ∈ ids → fid ∉ ids'
  links {a b : FeatureId} : s.Added s' (.feature a) → s'.checks? a = some b → ¬s'.SameLeaf a b

variable {lex : Lexicon} {s s₁ s₂ t : Store} {b₁ b₂ : BuiltNode} {d d₁ d₂ part : Derivation}
  {p p₁ p₂ q : Phrase} {root o o₁ o₂ om : Outline} {n k node : Nat} {m m' : Moved}
  {ids ids' : List FeatureId} {a b fid : FeatureId} {f : Feature} {known : List Feature}
  {leaf : ConstituentId}

/-! ### Features that were there before -/

section separate

variable (h : s.Separate s₁)

include h

theorem Separate.value?_eq (hfid : s.Issued (.feature fid)) : s₁.value? fid = s.value? fid := by
  rw [value?, feature?_of_linked? (h.old hfid), value?]

theorem Separate.host?_eq (hfid : s.Issued (.feature fid)) : s₁.host? fid = s.host? fid := by
  rw [host?, feature?_of_linked? (h.old hfid), host?]

theorem Separate.checks?_eq (hfid : s.Issued (.feature fid)) : s₁.checks? fid = s.checks? fid := by
  rw [checks?, feature?_of_linked? (h.old hfid), checks?]

theorem Separate.checker?_eq (hfid : s.Issued (.feature fid)) :
    s₁.checker? fid = s.checker? fid := by
  rw [checker?, feature?_of_linked? (h.old hfid), checker?]

theorem Separate.sameLeaf_iff (ha : s.Issued (.feature a)) (hb : s.Issued (.feature b)) :
    s₁.SameLeaf a b ↔ s.SameLeaf a b := by
  rw [SameLeaf, h.host?_eq ha, h.host?_eq hb, SameLeaf]

/-- A feature that was there is spent as it was. -/
theorem Separate.isSpent_iff (hfid : s.Issued (.feature fid)) : s₁.IsSpent fid ↔ s.IsSpent fid := by
  rw [IsSpent, h.checks?_eq hfid, h.checker?_eq hfid, h.value?_eq hfid, IsSpent]

/-- A node that was there has the features that it had. -/
theorem Separate.featuresAt_eq {id : ConstituentId} (hid : s.Issued (.constituent id)) :
    s₁.featuresAt id = s.featuresAt id := by
  rw [featuresAt, outline?, constituent?_of_linked? (h.old hid), featuresAt, outline?]

/-- The features of an added node are added ones. -/
theorem Separate.added_of_mem_featuresAt {id : ConstituentId} (hid : s.Added s₁ (.constituent id))
    (hfid : fid ∈ s₁.featuresAt id) : s.Added s₁ (.feature fid) := by
  rw [featuresAt] at hfid
  cases ho : s₁.outline? id with
  | none =>
    rw [ho] at hfid
    exact absurd hfid List.not_mem_nil
  | some o =>
    rw [ho] at hfid
    exact h.added_of_mem_features hid ho hfid

/-- The leaf of an added feature is an added one. -/
theorem Separate.added_of_host? (hfid : s.Added s₁ (.feature fid))
    (hhost : s₁.host? fid = some leaf) : s.Added s₁ (.constituent leaf) := by
  obtain ⟨f, hf, hleaf⟩ := Option.bind_eq_some_iff.mp hhost
  have hlinks := FeatureOccurrence.forall_links_iff.mp (h.links_feature hfid hf)
  exact hlinks.2.2 leaf (by simp [hleaf])

/-- What an added feature has checked is an added one. -/
theorem Separate.added_of_checks? (ha : s.Added s₁ (.feature a)) (hlink : s₁.checks? a = some b) :
    s.Added s₁ (.feature b) := by
  obtain ⟨f, hf, hb⟩ := Option.bind_eq_some_iff.mp hlink
  have hlinks := FeatureOccurrence.forall_links_iff.mp (h.links_feature ha hf)
  exact hlinks.1 b (by simp [hb])

/-- Features that are added one after the other do not share a leaf. -/
theorem Separate.not_sameLeaf (h' : s₁.Separate s₂) (ha : s.Added s₁ (.feature a))
    (hb : s₁.Added s₂ (.feature b)) : ¬s₂.SameLeaf a b := by
  rintro ⟨leaf, hleaf, hleaf'⟩
  rw [h'.host?_eq ha.2] at hleaf
  exact (h'.added_of_host? hb hleaf').1 (h.added_of_host? ha hleaf).2

end separate

/-- The features that are left at the root are added ones. -/
theorem HasBuilt.added (h : HasBuilt lex s s₁ b₁ d p root) (hfid : fid ∈ root.features) :
    s.Added s₁ (.feature fid) :=
  ⟨Nat.not_lt.mpr (h.range hfid).1, (h.range hfid).2⟩

/-- A mover has features at its node. -/
theorem HasBuilt.exists_carries (h : HasBuilt lex s s₁ b₁ d p root) (hm : d.Awaits lex p n m) :
    ∃ ids, Carries lex s s₁ d p n m ids := by
  obtain ⟨z, hn, -⟩ := id hm
  obtain ⟨o, ho, -⟩ := h.movers hn
  exact ⟨o.features, hm, o, ho, rfl⟩

/-- The features of a mover are added ones, and they are not those of the root. -/
theorem Carries.added (h : HasBuilt lex s s₁ b₁ d p root) (hids : Carries lex s s₁ d p n m ids)
    (hfid : fid ∈ ids) : s.Added s₁ (.feature fid) ∧ fid ∉ root.features := by
  obtain ⟨⟨z, hn, -⟩, o, ho, rfl⟩ := hids
  obtain ⟨o', ho', hfeatures⟩ := h.movers hn
  obtain rfl := Option.some.inj (ho.symm.trans ho')
  obtain ⟨⟨hle, hlt⟩, hnotMem⟩ := hfeatures fid hfid
  exact ⟨⟨Nat.not_lt.mpr hle, hlt⟩, hnotMem⟩

/-! ### Merges -/

section merge

variable (hb₁ : HasBuilt lex s s₁ b₁ d₁ p₁ o₁) (hb₂ : HasBuilt lex s₁ s₂ b₂ d₂ p₂ o₂)
  (hr : (Derivation.merge d₁ d₂).phrase? lex = some p) (hp₁ : d₁.phrase? lex = some p₁)
  (hp₂ : d₂.phrase? lex = some p₂)
  (hnode : ∀ id, t.outline? id = if id = ⟨s₂.nextConstituent⟩ then some root else s₂.outline? id)

include hb₁ hb₂ hr hp₁ hp₂ hnode

/-- A mover of a merge is what is selected, or a mover of one of the parts. -/
theorem carries_merge_cases (h : Carries lex s t (.merge d₁ d₂) p n m ids) :
    (n = d₁.size + d₂.size - 1 ∧ m.features = p₂.features.tail ∧ ids = o₂.features) ∨
      Carries lex s s₁ d₁ p₁ n m ids ∨
      ∃ k, n = d₁.size + k ∧ Carries lex s₁ s₂ d₂ p₂ k m ids := by
  obtain ⟨hm, o, ho, rfl⟩ := h
  rcases Derivation.awaits_merge_cases hr hp₁ hp₂ hm with ⟨rfl, rfl⟩ | hm' | ⟨k, rfl, hm'⟩
  · have hpos := d₂.size_pos
    rw [Nat.add_sub_assoc hpos, hb₁.outline?_selected hb₂ hnode (Nat.sub_lt hpos Nat.one_pos),
      ← hb₂.id_eq, hb₂.outline, Option.some.injEq] at ho
    exact Or.inl ⟨rfl, rfl, congrArg Outline.features ho.symm⟩
  · rw [hb₁.outline?_selector hb₂ hnode (Nat.lt_of_succ_lt (hm'.lt hp₁))] at ho
    exact Or.inr (Or.inl ⟨hm', o, ho, rfl⟩)
  · rw [hb₁.outline?_selected hb₂ hnode (Nat.lt_of_succ_lt (hm'.lt hp₂))] at ho
    exact Or.inr (Or.inr ⟨k, rfl, hm', o, ho, rfl⟩)

omit hp₂ in
/-- A mover of the selector has its features still. -/
theorem Carries.merge_of_selector (h : Carries lex s s₁ d₁ p₁ n m ids) :
    Carries lex s t (.merge d₁ d₂) p n m ids := by
  obtain ⟨hm, o, ho, rfl⟩ := h
  refine ⟨hm.merge_of_selector hr hp₁, o, ?_, rfl⟩
  rw [hb₁.outline?_selector hb₂ hnode (Nat.lt_of_succ_lt (hm.lt hp₁)), ho]

omit hp₁ in
/-- A mover of what is selected has its features still. -/
theorem Carries.merge_of_selected (h : Carries lex s₁ s₂ d₂ p₂ n m ids) :
    Carries lex s t (.merge d₁ d₂) p (d₁.size + n) m ids := by
  obtain ⟨hm, o, ho, rfl⟩ := h
  refine ⟨hm.merge_of_selected hr hp₂, o, ?_, rfl⟩
  rw [hb₁.outline?_selected hb₂ hnode (Nat.lt_of_succ_lt (hm.lt hp₂)), ho]

omit hp₁ in
/-- What is selected has the features of its root, if it waits to move. -/
theorem carries_selected (hne : p₂.features.tail ≠ []) :
    ∃ m, Carries lex s t (.merge d₁ d₂) p (d₁.size + d₂.size - 1) m o₂.features := by
  have hpos := d₂.size_pos
  refine ⟨_, Derivation.awaits_selected hr hp₂ hne, o₂, ?_, rfl⟩
  rw [Nat.add_sub_assoc hpos, hb₁.outline?_selected hb₂ hnode (Nat.sub_lt hpos Nat.one_pos),
    ← hb₂.id_eq, hb₂.outline]

end merge

/-- What is left of the features at the root of what is selected. -/
theorem HasBuilt.leaves (h : HasBuilt lex s s₁ b₁ d p o) (hbears : s₁.Bears o.features known) :
    s₁.unchecked o.features = o.features ∧ s₁.Leaves o.features p.features := by
  obtain ⟨known', hopen, hknown⟩ := h.features
  have hfree {fid : FeatureId} (hfid : fid ∈ o.features) : ∃ f, s₁.open? fid = some f := by
    obtain ⟨f, -, hf⟩ := List.mem_map.mp (hopen ▸ List.mem_map_of_mem hfid)
    exact ⟨f, hf.symm⟩
  have hall : s₁.unchecked o.features = o.features := by
    refine List.filter_eq_self.mpr fun fid hfid => ?_
    obtain ⟨f, hf⟩ := hfree hfid
    rw [(open?_eq_some_iff.mp hf).2]
    rfl
  refine ⟨hall, hbears.nodup, fun hfid => hbears.checks? hfid, known', ?_, hknown⟩
  rw [hall, ← hopen]
  refine List.map_congr_left fun fid hfid => ?_
  obtain ⟨f, hf⟩ := hfree hfid
  rw [hf, (open?_eq_some_iff.mp hf).1]

namespace Spends

section merge

variable (h₁ : Spends lex s s₁ d₁ p₁ o₁) (h₂ : Spends lex s₁ s₂ d₂ p₂ o₂)
  (hb₁ : HasBuilt lex s s₁ b₁ d₁ p₁ o₁) (hb₂ : HasBuilt lex s₁ s₂ b₂ d₂ p₂ o₂)
  (hseparate₁ : s.Separate s₁) (hseparate₂ : s₁.Separate s₂) (hbears : s₂.Bears o₂.features known)
  (hr : (Derivation.merge d₁ d₂).phrase? lex = some p) (hp₁ : d₁.phrase? lex = some p₁)
  (hp₂ : d₂.phrase? lex = some p₂)
  (hnode : ∀ id, t.outline? id = if id = ⟨s₂.nextConstituent⟩ then some root else s₂.outline? id)
  (hroot : root.features = o₁.features.drop 1)
  (hchecks : s₂.Checks t (o₁.features.take 1) (o₂.features.take 1))

include hbears hchecks hb₁ hb₂ in
/-- What is selected leaves all its features but for the first. -/
theorem leaves_selected : t.Leaves o₂.features p₂.features.tail := by
  obtain ⟨hall, hleaves⟩ := hb₂.leaves hbears
  rw [← hall] at hchecks
  refine hleaves.check hchecks fun fid hfid hprobe => ?_
  exact (hb₂.added hfid).1 (hb₁.added (List.mem_of_mem_take hprobe)).2

include h₁ h₂ hb₁ hb₂ hseparate₂ hbears hr hp₁ hp₂ hnode hroot hchecks in
/-- The features of a merge are left, have been spent, or are at movers. -/
theorem spent_merge (hfid : s.Added s₂ (.feature fid)) : fid ∈ root.features ∨ t.IsSpent fid ∨
    ∃ n m ids, Carries lex s t (.merge d₁ d₂) p n m ids ∧ fid ∈ ids := by
  by_cases hissued : s₁.Issued (.feature fid)
  · rcases h₁.spent ⟨hfid.1, hissued⟩ with hmem | hspent | ⟨n, m, ids, hids, hmem⟩
    · rw [← List.take_append_drop 1 o₁.features] at hmem
      rcases List.mem_append.mp hmem with hmem | hmem
      · exact Or.inr (Or.inl (hchecks.probe hmem))
      · exact Or.inl (hroot ▸ hmem)
    · exact Or.inr (Or.inl (hchecks.isSpent ((hseparate₂.isSpent_iff hissued).mpr hspent)))
    · exact Or.inr (Or.inr ⟨n, m, ids, hids.merge_of_selector hb₁ hb₂ hr hp₁ hnode, hmem⟩)
  · rcases h₂.spent ⟨hissued, hfid.2⟩ with hmem | hspent | ⟨n, m, ids, hids, hmem⟩
    · -- the features of what is selected are at a mover, unless the category was the last one
      by_cases hne : p₂.features.tail = []
      · have hleaves := leaves_selected hb₁ hb₂ hbears hchecks
        rw [hne] at hleaves
        exact Or.inr (Or.inl (Or.inr (Or.inl (hleaves.checker?_ne_none hmem))))
      · obtain ⟨m, hm⟩ := carries_selected hb₁ hb₂ hr hp₂ hnode hne
        exact Or.inr (Or.inr ⟨_, m, _, hm, hmem⟩)
    · exact Or.inr (Or.inl (hchecks.isSpent hspent))
    · exact Or.inr (Or.inr ⟨_, m, ids, hids.merge_of_selected hb₁ hb₂ hr hp₂ hnode, hmem⟩)

include h₁ h₂ hb₁ hb₂ hseparate₂ hbears hr hp₁ hp₂ hnode hchecks in
/-- The movers of a merge have left what their features say. -/
theorem leaves_merge (h : Carries lex s t (.merge d₁ d₂) p n m ids) : t.Leaves ids m.features := by
  rcases carries_merge_cases hb₁ hb₂ hr hp₁ hp₂ hnode h with ⟨-, hm, rfl⟩ | hids | ⟨k, -, hids⟩
  · rw [hm]
    exact leaves_selected hb₁ hb₂ hbears hchecks
  · have hadded {fid : FeatureId} (hfid : fid ∈ ids) := hids.added hb₁ hfid
    refine (h₁.leaves hids).congr (fun fid hfid => ?_) (fun fid hfid => ?_) fun fid hfid => ?_
    · rw [hchecks.value?, hseparate₂.value?_eq (hadded hfid).1.2]
    · rw [hchecks.checks? fun hmem => (hadded hfid).2 (List.mem_of_mem_take hmem),
        hseparate₂.checks?_eq (hadded hfid).1.2]
    · rw [hchecks.checker? fun hmem => (hb₂.added (List.mem_of_mem_take hmem)).1 (hadded hfid).1.2,
        hseparate₂.checker?_eq (hadded hfid).1.2]
  · -- a mover of what is selected has none of the features that are checked now
    have hadded {fid : FeatureId} (hfid : fid ∈ ids) := hids.added hb₂ hfid
    refine (h₂.leaves hids).congr (fun fid _ => hchecks.value? fid) (fun fid hfid => ?_)
      fun fid hfid => ?_
    · exact hchecks.checks? fun hmem => (hadded hfid).1.1 (hb₁.added (List.mem_of_mem_take hmem)).2
    · exact hchecks.checker? fun hmem => (hadded hfid).2 (List.mem_of_mem_take hmem)

include h₁ hb₁ hb₂ hseparate₁ hseparate₂ hr hp₁ hp₂ hnode hroot hchecks in
/-- No mover of a merge sits on the leaf of the root. -/
theorem apart_merge (h : Carries lex s t (.merge d₁ d₂) p n m ids) (ha : a ∈ root.features)
    (hb : b ∈ ids) : ¬t.SameLeaf a b := by
  rw [hchecks.sameLeaf_iff]
  rw [hroot] at ha
  have hmem := List.mem_of_mem_drop ha
  have hadded := hb₁.added hmem
  rcases carries_merge_cases hb₁ hb₂ hr hp₁ hp₂ hnode h with ⟨-, -, rfl⟩ | hids | ⟨k, -, hids⟩
  · exact hseparate₁.not_sameLeaf hseparate₂ hadded (hb₂.added hb)
  · rw [hseparate₂.sameLeaf_iff hadded.2 (hids.added hb₁ hb).1.2]
    exact h₁.apart hids hmem hb
  · exact hseparate₁.not_sameLeaf hseparate₂ hadded (hids.added hb₂ hb).1

include h₁ h₂ hb₁ hb₂ hr hp₁ hp₂ hnode in
/-- Different movers of a merge have no feature in common. -/
theorem different_merge (h : Carries lex s t (.merge d₁ d₂) p n m ids)
    (h' : Carries lex s t (.merge d₁ d₂) p k m' ids') (hne : n ≠ k)
    (hfid : fid ∈ ids) : fid ∉ ids' := by
  intro hfid'
  rcases carries_merge_cases hb₁ hb₂ hr hp₁ hp₂ hnode h with ⟨hn, -, rfl⟩ | hids | ⟨i, hn, hids⟩ <;>
    rcases carries_merge_cases hb₁ hb₂ hr hp₁ hp₂ hnode h' with ⟨hk, -, rfl⟩ | hids' |
      ⟨j, hk, hids'⟩
  · exact hne (hn.trans hk.symm)
  · exact (hb₂.added hfid).1 (hids'.added hb₁ hfid').1.2
  · exact (hids'.added hb₂ hfid').2 hfid
  · exact (hb₂.added hfid').1 (hids.added hb₁ hfid).1.2
  · exact h₁.different hids hids' hne hfid hfid'
  · exact (hids'.added hb₂ hfid').1.1 (hids.added hb₁ hfid).1.2
  · exact (hids.added hb₂ hfid).2 hfid'
  · exact (hids.added hb₂ hfid).1.1 (hids'.added hb₁ hfid').1.2
  · exact h₂.different hids hids' (fun heq => hne (by rw [hn, hk, heq])) hfid hfid'

include h₁ h₂ hb₁ hb₂ hseparate₁ hseparate₂ hchecks in
/-- No feature of a merge has checked one on its own leaf. -/
theorem links_merge (ha : s.Added s₂ (.feature a)) (hlink : t.checks? a = some b) :
    ¬t.SameLeaf a b := by
  rw [hchecks.sameLeaf_iff]
  by_cases hprobe : a ∈ o₁.features.take 1
  · -- the new link leads from the selector to what is selected, and these share no leaf
    have hgoal := hchecks.mem_goals hprobe hlink
    exact hseparate₁.not_sameLeaf hseparate₂ (hb₁.added (List.mem_of_mem_take hprobe))
      (hb₂.added (List.mem_of_mem_take hgoal))
  · rw [hchecks.checks? hprobe] at hlink
    by_cases hissued : s₁.Issued (.feature a)
    · rw [hseparate₂.checks?_eq hissued] at hlink
      rw [hseparate₂.sameLeaf_iff hissued (hseparate₁.added_of_checks? ⟨ha.1, hissued⟩ hlink).2]
      exact h₁.links ⟨ha.1, hissued⟩ hlink
    · exact h₂.links ⟨hissued, ha.2⟩ hlink

include h₁ h₂ hb₁ hb₂ hseparate₁ hseparate₂ hbears hr hp₁ hp₂ hnode hroot hchecks in
/-- One merge is built. -/
theorem merge (hnext : t.nextFeature = s₂.nextFeature) : Spends lex s t (.merge d₁ d₂) p root := by
  have hadded {fid : FeatureId} (hfid : s.Added t (.feature fid)) : s.Added s₂ (.feature fid) :=
    ⟨hfid.1, Nat.lt_of_lt_of_eq hfid.2 hnext⟩
  exact
    { spent := fun hfid =>
        h₁.spent_merge h₂ hb₁ hb₂ hseparate₂ hbears hr hp₁ hp₂ hnode hroot hchecks (hadded hfid)
      leaves := fun h => h₁.leaves_merge h₂ hb₁ hb₂ hseparate₂ hbears hr hp₁ hp₂ hnode hchecks h
      apart := fun h =>
        h₁.apart_merge hb₁ hb₂ hseparate₁ hseparate₂ hr hp₁ hp₂ hnode hroot hchecks h
      different := fun h h' => h₁.different_merge h₂ hb₁ hb₂ hr hp₁ hp₂ hnode h h'
      links := fun ha => h₁.links_merge h₂ hb₁ hb₂ hseparate₁ hseparate₂ hchecks (hadded ha) }

end merge

end Spends

/-! ### Movements -/

section move

variable (hb₁ : HasBuilt lex s s₁ b₁ part q o₁) (hq : part.phrase? lex = some q)
  (hr : (Derivation.move part).phrase? lex = some p) (hx : part.attracted? lex = some (f.name, m))
  (hw : (part.waiting lex).get? f.name = some node)
  (hom : s₁.outline? ⟨s.nextConstituent + node⟩ = some om)
  (hnode : ∀ id, t.outline? id = if id = ⟨s₁.nextConstituent⟩ then some root
    else if id = ⟨s.nextConstituent + node⟩ then
      some { om with landing := some ⟨s₁.nextConstituent⟩ }
    else s₁.outline? id)

include hb₁ hq hr hx hw hnode

/-- A mover of a movement is what is attracted, or another mover of the part. -/
theorem carries_move_cases (h : Carries lex s t (.move part) p n m' ids) :
    (n = node ∧ m'.features = m.features.tail ∧ ids = om.features) ∨
      n ≠ node ∧ Carries lex s s₁ part q n m' ids := by
  obtain ⟨hm, o, ho, rfl⟩ := h
  rcases Derivation.awaits_move_cases hr hq hx hw hm with ⟨rfl, rfl⟩ | ⟨hne, hm'⟩
  · rw [hb₁.outline?_mover hq hw hnode, Option.some.injEq] at ho
    subst ho
    exact Or.inl ⟨rfl, rfl, rfl⟩
  · rw [hb₁.outline?_part hnode (Nat.lt_of_succ_lt (hm'.lt hq)) hne] at ho
    exact Or.inr ⟨hne, hm', o, ho, rfl⟩

/-- Every other mover has its features still. -/
theorem Carries.move (h : Carries lex s s₁ part q n m' ids) (hne : n ≠ node) :
    Carries lex s t (.move part) p n m' ids := by
  obtain ⟨hm, o, ho, rfl⟩ := h
  refine ⟨hm.move hr hq hx hw hne, o, ?_, rfl⟩
  rw [hb₁.outline?_part hnode (Nat.lt_of_succ_lt (hm.lt hq)) hne, ho]

/-- What is attracted has its features still, if it waits to move on. -/
theorem carries_attracted (hne : m.features.tail ≠ []) :
    ∃ m', Carries lex s t (.move part) p node m' om.features :=
  ⟨_, Derivation.awaits_attracted hr hx hw hne, _, hb₁.outline?_mover hq hw hnode, rfl⟩

end move

namespace Spends

section move

variable (h₁ : Spends lex s s₁ part q o₁) (hb₁ : HasBuilt lex s s₁ b₁ part q o₁)
  (hq : part.phrase? lex = some q) (hr : (Derivation.move part).phrase? lex = some p)
  (hx : part.attracted? lex = some (f.name, m))
  (hcarries : Carries lex s s₁ part q node m om.features)
  (hw : (part.waiting lex).get? f.name = some node)
  (hnode : ∀ id, t.outline? id =
    if id = ⟨s₁.nextConstituent⟩ then some root
    else if id = ⟨s.nextConstituent + node⟩ then
      some { om with landing := some ⟨s₁.nextConstituent⟩ }
    else s₁.outline? id)
  (hroot : root.features = o₁.features.drop 1)
  (hchecks : s₁.Checks t (o₁.features.take 1) ((s₁.unchecked om.features).take 1))

include h₁ hb₁ hcarries hchecks in
/-- What is attracted leaves all that it had left but for the first. -/
theorem leaves_attracted : t.Leaves om.features m.features.tail := by
  refine (h₁.leaves hcarries).check hchecks fun fid hfid hprobe => ?_
  exact (hcarries.added hb₁ hfid).2 (List.mem_of_mem_take hprobe)

include h₁ hb₁ hq hr hx hcarries hw hnode hroot hchecks in
/-- The features of a movement are left, have been spent, or are at movers. -/
theorem spent_move (hfid : s.Added s₁ (.feature fid)) : fid ∈ root.features ∨ t.IsSpent fid ∨
    ∃ n m ids, Carries lex s t (.move part) p n m ids ∧ fid ∈ ids := by
  rcases h₁.spent hfid with hmem | hspent | ⟨n, m', ids, hids, hmem⟩
  · rw [← List.take_append_drop 1 o₁.features] at hmem
    rcases List.mem_append.mp hmem with hmem | hmem
    · exact Or.inr (Or.inl (hchecks.probe hmem))
    · exact Or.inl (hroot ▸ hmem)
  · exact Or.inr (Or.inl (hchecks.isSpent hspent))
  · by_cases hne : n = node
    · subst hne
      obtain ⟨-, o, ho, rfl⟩ := hids
      obtain ⟨-, o', ho', hsame⟩ := id hcarries
      obtain rfl := Option.some.inj (ho.symm.trans ho')
      rw [hsame] at hmem
      -- what is attracted has landed for good, or it waits to move on
      by_cases htail : m.features.tail = []
      · have hleaves := h₁.leaves_attracted hb₁ hcarries hchecks
        rw [htail] at hleaves
        exact Or.inr (Or.inl (Or.inr (Or.inl (hleaves.checker?_ne_none hmem))))
      · obtain ⟨m'', hm⟩ := carries_attracted hb₁ hq hr hx hw hnode htail
        exact Or.inr (Or.inr ⟨n, m'', _, hm, hmem⟩)
    · exact Or.inr (Or.inr ⟨n, m', ids, hids.move hb₁ hq hr hx hw hnode hne, hmem⟩)

include h₁ hb₁ hq hr hx hcarries hw hnode hchecks in
/-- The movers of a movement have left what their features say. -/
theorem leaves_move (h : Carries lex s t (.move part) p n m' ids) : t.Leaves ids m'.features := by
  rcases carries_move_cases hb₁ hq hr hx hw hnode h with ⟨-, hm, rfl⟩ | ⟨hne, hids⟩
  · rw [hm]
    exact h₁.leaves_attracted hb₁ hcarries hchecks
  · refine (h₁.leaves hids).congr (fun fid _ => hchecks.value? fid) (fun fid hfid => ?_)
      fun fid hfid => ?_
    · exact hchecks.checks? fun hmem => (hids.added hb₁ hfid).2 (List.mem_of_mem_take hmem)
    · refine hchecks.checker? fun hmem => ?_
      exact h₁.different hids hcarries hne hfid (List.mem_of_mem_filter (List.mem_of_mem_take hmem))

include h₁ hb₁ hq hr hx hcarries hw hnode hroot hchecks in
/-- No mover of a movement sits on the leaf of the root. -/
theorem apart_move (h : Carries lex s t (.move part) p n m' ids) (ha : a ∈ root.features)
    (hb : b ∈ ids) : ¬t.SameLeaf a b := by
  rw [hchecks.sameLeaf_iff]
  rw [hroot] at ha
  rcases carries_move_cases hb₁ hq hr hx hw hnode h with ⟨-, -, rfl⟩ | ⟨-, hids⟩
  · exact h₁.apart hcarries (List.mem_of_mem_drop ha) hb
  · exact h₁.apart hids (List.mem_of_mem_drop ha) hb

include h₁ hb₁ hq hr hx hcarries hw hnode in
/-- Different movers of a movement have no feature in common. -/
theorem different_move {m₁ m₂ : Moved} (h : Carries lex s t (.move part) p n m₁ ids)
    (h' : Carries lex s t (.move part) p k m₂ ids') (hne : n ≠ k)
    (hfid : fid ∈ ids) : fid ∉ ids' := by
  rcases carries_move_cases hb₁ hq hr hx hw hnode h with ⟨hn, -, rfl⟩ | ⟨hn, hids⟩ <;>
    rcases carries_move_cases hb₁ hq hr hx hw hnode h' with ⟨hk, -, rfl⟩ | ⟨hk, hids'⟩
  · exact absurd (hn.trans hk.symm) hne
  · exact h₁.different hcarries hids' (Ne.symm hk) hfid
  · exact h₁.different hids hcarries hn hfid
  · exact h₁.different hids hids' hne hfid

include h₁ hcarries hchecks in
/-- No feature of a movement has checked one on its own leaf. -/
theorem links_move (ha : s.Added s₁ (.feature a)) (hlink : t.checks? a = some b) :
    ¬t.SameLeaf a b := by
  rw [hchecks.sameLeaf_iff]
  by_cases hprobe : a ∈ o₁.features.take 1
  · -- the new link leads from the root to the mover that is attracted
    have hgoal := hchecks.mem_goals hprobe hlink
    exact h₁.apart hcarries (List.mem_of_mem_take hprobe)
      (List.mem_of_mem_filter (List.mem_of_mem_take hgoal))
  · rw [hchecks.checks? hprobe] at hlink
    exact h₁.links ha hlink

include h₁ hb₁ hq hr hx hcarries hw hnode hroot hchecks in
/-- One movement is built. -/
theorem move (hnext : t.nextFeature = s₁.nextFeature) : Spends lex s t (.move part) p root := by
  have hadded {fid : FeatureId} (hfid : s.Added t (.feature fid)) : s.Added s₁ (.feature fid) :=
    ⟨hfid.1, Nat.lt_of_lt_of_eq hfid.2 hnext⟩
  exact
    { spent := fun hfid => h₁.spent_move hb₁ hq hr hx hcarries hw hnode hroot hchecks (hadded hfid)
      leaves := fun h => h₁.leaves_move hb₁ hq hr hx hcarries hw hnode hchecks h
      apart := fun h => h₁.apart_move hb₁ hq hr hx hcarries hw hnode hroot hchecks h
      different := fun h h' => h₁.different_move hb₁ hq hr hx hcarries hw hnode h h'
      links := fun ha => h₁.links_move hcarries hchecks (hadded ha) }

end move

end Spends

/-! ### Whole trees -/

section build

variable {tree left right : RecordTree} {selector selected : Derivation} {r : NodeRecord}

/-- A leaf has no parts, and it bears all features that are added with it. -/
theorem mem_features_of_added_leaf (hs : s.IsNumbered) (path : Address) (r : NodeRecord)
    (hroot : (s.build path (.leaf r)).1.outline? (s.build path (.leaf r)).2.id = some root)
    (hfid : s.Added (s.build path (.leaf r)).1 (.feature fid)) :
    root.parts = [] ∧ fid ∈ root.features := by
  obtain ⟨ids, houtline, -, -, -, -, -, hid⟩ := s.buildLeaf_spec r
  have hleaf : (s.build path (.leaf r)).1.outline? (s.build path (.leaf r)).2.id =
      some ⟨r.label.getD "", [], ids, none⟩ := by
    rw [build_leaf]
    exact (outline?_finishNode ..).trans ((houtline _).trans (if_pos hid))
  obtain rfl := Option.some.inj (hleaf.symm.trans hroot)
  refine ⟨rfl, ?_⟩
  cases (standsAlone_leaf hs path r).hangs hfid with
  | feature ho hf =>
    obtain rfl := Option.some.inj (hroot.symm.trans ho)
    exact hf
  | part ho hpart _ =>
    obtain rfl := Option.some.inj (hroot.symm.trans ho)
    exact absurd hpart List.not_mem_nil

/-- A leaf has all its features left. -/
theorem spends_leaf {leaf : Nat} (hs : s.IsNumbered) (path : Address) (r : NodeRecord)
    (hroot : (s.build path (.leaf r)).1.outline? (s.build path (.leaf r)).2.id = some root) :
    Spends lex s (s.build path (.leaf r)).1 (.word leaf) p root := by
  have hnone {n : Nat} {m : Moved} {ids : List FeatureId}
      (h : Carries lex s (s.build path (.leaf r)).1 (.word leaf) p n m ids) : False :=
    Derivation.not_awaits_word h.1
  obtain ⟨-, -, o, ho, hbears⟩ := build?_eq hs (.leaf r) path
  obtain rfl := Option.some.inj (hroot.symm.trans ho)
  refine ⟨fun hfid => Or.inl (mem_features_of_added_leaf hs path r hroot hfid).2,
    fun h => (hnone h).elim, fun h => (hnone h).elim, fun h => (hnone h).elim,
    fun {a b} ha hlink => ?_⟩
  rw [hbears.checks? (mem_features_of_added_leaf hs path r hroot ha).2] at hlink
  exact absurd hlink (by simp)

/-- One merge of two rebuilt trees. -/
theorem Spends.build_merge {path : Address} (hs : s.IsNumbered)
    (htree : (RecordTree.binary r left right).Projects)
    (hr : (Derivation.merge selector selected).phrase? lex = some p)
    (hp₁ : selector.phrase? lex = some p₁) (hp₂ : selected.phrase? lex = some p₂)
    (hb₁ : HasBuilt lex s (s.build path.left left).1 (s.build path.left left).2 selector p₁ o₁)
    (h₁ : Spends lex s (s.build path.left left).1 selector p₁ o₁)
    (hb₂ : HasBuilt lex (s.build path.left left).1
      ((s.build path.left left).1.build path.right right).1
      ((s.build path.left left).1.build path.right right).2 selected p₂ o₂)
    (h₂ : Spends lex (s.build path.left left).1
      ((s.build path.left left).1.build path.right right).1 selected p₂ o₂)
    (hroot :
      (s.build path (.binary r left right)).1.outline? (s.build path (.binary r left right)).2.id =
        some root) :
    Spends lex s (s.build path (.binary r left right)).1 (.merge selector selected) p root := by
  cases htree with
  | binary hleft hright hfeatures htakes =>
    have halone₁ := standsAlone_build hs path.left left
    obtain ⟨-, -, o, ho, hbears₁⟩ := build?_eq hs hleft path.left
    obtain rfl := Option.some.inj (hb₁.outline.symm.trans ho)
    simp only [build_binary] at hroot ⊢
    generalize s.build path.left left = t at *
    have halone₂ := standsAlone_build halone₁.separate.toIsNumbered path.right right
    obtain ⟨-, -, o, ho, hbears₂⟩ := build?_eq halone₁.separate.toIsNumbered hright path.right
    obtain rfl := Option.some.inj (hb₂.outline.symm.trans ho)
    generalize t.1.build path.right right = u at *
    have ho₁ : u.1.outline? t.2.id = some o₁ := (hb₂.extend.outline? hb₁.id_lt).trans hb₁.outline
    have hbears : u.1.Bears o₁.features left.record.features := hbears₁.congr fun fid hfid =>
      feature?_of_linked? (halone₂.separate.old (hb₁.added hfid).2)
    rw [hfeatures] at hbears
    have hchecks := checks_buildMerge ho₁ hb₂.outline hbears hbears₂ htakes r left.record.isLexical
    obtain ⟨-, hnextFeature, hid⟩ := u.1.next_buildMerge r left.record.isLexical t.2.id u.2.id
    have hnode (id : ConstituentId) := (outline?_finishNode _
      (u.1.buildMerge r left.record.isLexical t.2.id u.2.id).2 id path
        (t.2.pending.unite u.2.pending)).trans
        (u.1.outline?_buildMerge r id left.record.isLexical t.2.id u.2.id)
    obtain rfl := Option.some.inj (((hnode _).trans (if_pos hid)).symm.trans hroot)
    refine h₁.merge h₂ hb₁ hb₂ halone₁.separate halone₂.separate hbears₂ hr hp₁ hp₂ hnode ?_
      (hchecks.congr fun _ => rfl) hnextFeature
    rw [projected_eq, ho₁, Option.elim_some]

/-- A mover that waits has the licensee under whose name it waits as the first one that is left. -/
theorem Leaves.exists_unchecked (h : s.Leaves ids m.features) (hlex : lex.WellFormed)
    (hp : d.phrase? lex = some p) {z : String} (hm : p.movers.get? z = some m) :
    ∃ b rest g, s.unchecked ids = b :: rest ∧ s.value? b = some g ∧ g.sign = .licensee ∧
      g.name = z := by
  obtain ⟨-, g, features, hfeatures, hg⟩ := (Derivation.isGrounded_of_phrase? hlex hp).movers hm
  obtain ⟨known, hvalues, hknown⟩ := h.left
  rw [hfeatures] at hknown
  have hsign : g.sign = .licensee := show g.plain.sign = _ from congrArg Feature.sign hg
  obtain ⟨g', known', rfl, hplain⟩ := hknown.exists_cons (by rw [hsign]; decide)
  obtain ⟨b, rest, hunchecked, hb, -⟩ := List.map_eq_cons_iff.mp hvalues
  have hg' : g'.plain = .licensee z := hplain.trans hg
  exact ⟨b, rest, g', hunchecked, hb, show g'.plain.sign = _ from congrArg Feature.sign hg',
    show g'.plain.name = z from congrArg Feature.name hg'⟩

/-- One movement of a part of a rebuilt tree, if the licensor finds what waits for it. -/
theorem Spends.build_move {path : Address} (hlex : lex.WellFormed) (hs : s.IsNumbered)
    (htree : (RecordTree.unary r .left left).Projects) (hencodes : left.Encodes lex part)
    (hr : (Derivation.move part).phrase? lex = some p) (hq : part.phrase? lex = some q)
    (hfaithful : (Derivation.move part).isFaithful lex = true)
    (hb₁ : HasBuilt lex s (s.build path.left left).1 (s.build path.left left).2 part q o₁)
    (h₁ : Spends lex s (s.build path.left left).1 part q o₁)
    (hroot :
      (s.build path (.unary r .left left)).1.outline? (s.build path (.unary r .left left)).2.id =
      some root) :
    Spends lex s (s.build path (.unary r .left left)).1 (.move part) p root := by
  obtain ⟨q', f, features, m, hq', hqf, hsign, hm, hx, -⟩ := Derivation.exists_of_phrase?_move hr
  obtain rfl := Option.some.inj (hq.symm.trans hq')
  obtain ⟨node, hw⟩ := Derivation.exists_waiting hq hm
  obtain ⟨-, hfound⟩ := (Derivation.isFaithful_move_iff hx).mp hfaithful
  cases htree with
  | @unary _ _ _ f' hpart hfeatures =>
    obtain ⟨-, -, o, ho, hbears⟩ := build?_eq hs hpart path.left
    obtain rfl := Option.some.inj (hb₁.outline.symm.trans ho)
    obtain ⟨hname, hsign'⟩ := hencodes.first_eq hpart hq hqf (by rw [hsign]; decide) hfeatures
    rw [hfeatures] at hbears
    simp only [build_unary, Address.left] at *
    generalize s.build (path.child .left) left = t at *
    -- the mover that waits is attracted
    obtain ⟨ids, hids⟩ := hb₁.exists_carries ⟨f.name, hw, hm⟩
    obtain ⟨om, hom, rfl⟩ := hids.2
    obtain ⟨b, rest, g, hunchecked, hvalue, hlicensee, hg⟩ :=
      (h₁.leaves hids).exists_unchecked hlex hq hm
    have hattracted :=
      (hb₁.attracted?_eq hqf hsign).trans (congrArg (Option.map _) (hb₁.pending f.name))
    rw [hfound, hw, Option.map_some, Option.map_some] at hattracted
    have hchecks := checks_buildMove ho hbears (hsign'.trans hsign) hom hunchecked hvalue hlicensee
      (hname.trans hg.symm) r
    rw [hg] at hchecks
    have hunary : t.1.buildUnary r t.2.id t.2.pending =
        (t.1.buildMove r t.2.id ⟨s.nextConstituent + node⟩ f.name, t.2.pending.erase f.name) := by
      rw [buildUnary, hattracted]
    rw [hunary] at hroot ⊢
    obtain ⟨-, hnextFeature, hid⟩ := t.1.next_buildMove r t.2.id ⟨s.nextConstituent + node⟩ f.name
    have hlt : s.nextConstituent + node < t.1.nextConstituent := by
      have hlt := Derivation.lt_of_waiting hq hw
      rw [hb₁.grows.next]
      omega
    have hnode (id : ConstituentId) := (outline?_finishNode _
      (t.1.buildMove r t.2.id ⟨s.nextConstituent + node⟩ f.name).2 id path
        (t.2.pending.erase f.name)).trans (outline?_buildMove_eq t.1 r id t.2.id _ f.name hom hlt)
    obtain rfl := Option.some.inj (((hnode _).trans (if_pos hid)).symm.trans hroot)
    refine h₁.move hb₁ hq hr hx hids hw hnode ?_ ?_ hnextFeature
    · rw [projected_eq, ho, Option.elim_some]
    · rw [hunchecked]
      exact hchecks.congr fun _ => rfl

/-- In the rebuilt tree of a faithful derivation, features are left at the root, have been spent, or
are at movers. -/
theorem spends_build {d : Derivation} (hlex : lex.WellFormed) (h : tree.Encodes lex d)
    (htree : tree.Projects) (hp : d.phrase? lex = some p) (hd : d.isFaithful lex = true)
    (hs : s.IsNumbered) (path : Address) :
    ∃ root, HasBuilt lex s (s.build path tree).1 (s.build path tree).2 d p root ∧
      Spends lex s (s.build path tree).1 d p root := by
  obtain ⟨root, hb⟩ := (build_spec h hp s path).2 hd
  refine ⟨root, hb, ?_⟩
  induction h generalizing p s path root with
  | word hnames => exact spends_leaf hs path _ hb.outline
  | @move r left part hinner hpart ih =>
    obtain ⟨q, f, features, m, hq, -, -, -, hx, -⟩ := Derivation.exists_of_phrase?_move hp
    -- each part of a faithful derivation is faithful, so its tree has the root that `build_spec`
    -- gives
    obtain ⟨hdPart, -⟩ := (Derivation.isFaithful_move_iff hx).mp hd
    obtain ⟨o₁, hb₁⟩ := (build_spec hpart hq s path.left).2 hdPart
    have hleft := htree.part
    exact Spends.build_move hlex hs htree hpart hp hq hd hb₁
      (ih hleft hq hdPart hs path.left o₁ hb₁) hb.outline
  | @merge r left right selector selected hinner hselector hselected ih₁ ih₂ =>
    obtain ⟨p₁, p₂, -, -, -, -, -, hp₁, hp₂, -⟩ := Derivation.exists_of_phrase?_merge hp
    obtain ⟨hd₁, hd₂⟩ := Derivation.isFaithful_merge_iff.mp hd
    obtain ⟨o₁, hb₁⟩ := (build_spec hselector hp₁ s path.left).2 hd₁
    obtain ⟨o₂, hb₂⟩ := (build_spec hselected hp₂ (s.build path.left left).1 path.right).2 hd₂
    obtain ⟨hleft, hright⟩ := htree.parts
    have hs₁ := (standsAlone_build hs path.left left).separate.toIsNumbered
    exact Spends.build_merge hs htree hp hp₁ hp₂ hb₁ (ih₁ hleft hp₁ hd₁ hs path.left o₁ hb₁) hb₂
      (ih₂ hright hp₂ hd₂ hs₁ path.right o₂ hb₂) hb.outline

end build

end Store
end MinimalistGrammar
