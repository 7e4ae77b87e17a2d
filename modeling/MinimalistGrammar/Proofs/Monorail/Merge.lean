import MinimalistGrammar.Monorail.Merge
import MinimalistGrammar.Proofs.Tree.Landing

/-!
# What a merge on top changes

A merge on top of a tree adds one node and checks features of its two parts. So it is kept apart
from everything else if the parts are, and of the nodes that there were the same is seen as before.

## Main results

* `Store.Separate.mergeOnTop` — a merge of added nodes is kept apart.
* `Store.lands_mergeOnTop` — nothing lands by a merge.
* `Store.Separate.added_of_nextEdge` — a node that may be raised is part of the same tree.
-/

namespace MinimalistGrammar
namespace Store

variable {s s' : Store} {used : IdentSet .feature} {left right id : ConstituentId}
  {f : FeatureId × Feature}

section separate

variable (h : s.Separate s')

include h

theorem Separate.added_of_mem_openFeatures (hid : s.Added s' (.constituent id))
    (hf : f ∈ s'.openFeatures used id) : s.Added s' (.feature f.1) := by
  rw [openFeatures] at hf
  obtain ⟨g, hg, heq⟩ := List.mem_filterMap.mp hf
  obtain ⟨occurrence, -, rfl⟩ := Option.map_eq_some_iff.mp heq
  cases hc : s'.constituent? id with
  | none => exact absurd hg (by simp [hc])
  | some c =>
    rw [hc] at hg
    exact h.added_of_mem_features hid (outline?_eq hc) (List.mem_filter.mp hg).1

/-- Two added nodes check added features of theirs. -/
theorem Separate.added_of_checkingPair? (hleft : s.Added s' (.constituent left))
    (hright : s.Added s' (.constituent right)) {pair : FeatureId × FeatureId}
    (hpair : s'.checkingPair? used left right = some pair) :
    s.Added s' (.feature pair.1) ∧ s.Added s' (.feature pair.2) := by
  obtain ⟨goal, hgoal, heq⟩ := List.exists_of_findSome?_eq_some hpair
  obtain ⟨probe, hprobe, rfl⟩ := Option.map_eq_some_iff.mp heq
  exact ⟨h.added_of_mem_openFeatures hleft (List.mem_of_find?_eq_some hprobe),
    h.added_of_mem_openFeatures hright (List.mem_filter.mp hgoal).1⟩

end separate

/-- A node projects from one of the two that are merged. -/
theorem projectionOf_cases (s : Store) (left right : ConstituentId)
    (pair : Option (FeatureId × FeatureId)) :
    (s.projectionOf left right pair).1 = left ∨ (s.projectionOf left right pair).1 = right := by
  unfold projectionOf
  split
  · split
    · exact Or.inl rfl
    · exact Or.inr rfl
    · exact Or.inr rfl
  · split
    · exact Or.inl rfl
    · exact Or.inr rfl

theorem mem_unrepeated {l : List (FeatureId × Feature)} (h : f ∈ unrepeated l) : f ∈ l := by
  induction l with
  | nil => exact h
  | cons g l ih =>
    rw [unrepeated] at h
    rcases List.mem_cons.mp h with rfl | h
    · exact List.mem_cons_self ..
    · exact List.mem_cons_of_mem _ (ih (List.mem_filter.mp h).1)

theorem constituent?_setHead_of_ne {id' : ConstituentId} (s : Store) (hne : id' ≠ id)
    (head : Head) : (s.setHead id head).constituent? id' = s.constituent? id' := by
  rw [setHead, updateLexicalHeads]
  split
  · rw [constituent?_modifyConstituent, if_neg hne]
  · rw [constituent?_modifyConstituent, if_neg hne, constituent?_modifyConstituent, if_neg hne]

/-- The links of a check are not seen. -/
theorem map_feature_feature?_link (s : Store) (probe goal fid : FeatureId) :
    ((s.link probe goal).feature? fid).map (·.feature) = (s.feature? fid).map (·.feature) := by
  rw [link, feature?_modifyFeature, feature?_modifyFeature]
  split
  · split
    · rw [Option.map_map, Option.map_map]
      rfl
    · rw [Option.map_map]
      rfl
  · split
    · rw [Option.map_map]
      rfl
    · rfl

section mergeOnTop

variable (s : Store) (used : IdentSet .feature) (left right : ConstituentId)

/-- The store after the check of a merge, if there is one. -/
def checked (s : Store) (used : IdentSet .feature) (left right : ConstituentId) : Store :=
  (s.checkingPair? used left right).elim s fun pair => s.link pair.1 pair.2

theorem checked_cases : s.checked used left right = s ∨ ∃ pair,
    s.checkingPair? used left right = some pair ∧
    s.checked used left right = s.link pair.1 pair.2 := by
  unfold checked
  cases s.checkingPair? used left right with
  | none => exact Or.inl rfl
  | some pair => exact Or.inr ⟨pair, rfl, rfl⟩

theorem next_checked : (s.checked used left right).nextConstituent = s.nextConstituent ∧
    (s.checked used left right).nextFeature = s.nextFeature := by
  rcases s.checked_cases used left right with heq | ⟨pair, -, heq⟩
  · rw [heq]
    exact ⟨rfl, rfl⟩
  · rw [heq]
    exact ⟨rfl, rfl⟩

/-- A merge adds a node with both phrases as its parts after the check. It projects from one of
them, and has the features of this one that are left. -/
theorem exists_mergeOnTop : ∃ head label features, (head = left ∨ head = right) ∧
    (∀ fid ∈ features, ∃ used' f,
      f ∈ (s.checked used left right).openFeatures used' head ∧ f.1 = fid) ∧
    (s.mergeOnTop used left right).1 = ((s.checked used left right).addNode
      { label, parts := [left, right], features }).1.setHead ⟨s.nextConstituent⟩ (.single head) ∧
    (s.mergeOnTop used left right).2.2 = ⟨s.nextConstituent⟩ := by
  rw [← (s.next_checked used left right).1]
  refine ⟨_, _, _, s.projectionOf_cases left right (s.checkingPair? used left right),
    fun fid hfid => ?_, rfl, rfl⟩
  obtain ⟨f, hf, rfl⟩ := List.mem_map.mp hfid
  exact ⟨_, f, mem_unrepeated hf, rfl⟩

theorem next_mergeOnTop :
    (s.mergeOnTop used left right).1.nextConstituent = s.nextConstituent + 1 ∧
      (s.mergeOnTop used left right).1.nextFeature = s.nextFeature := by
  obtain ⟨head, label, features, -, -, heq, -⟩ := s.exists_mergeOnTop used left right
  obtain ⟨hconstituent, hfeature⟩ := s.next_checked used left right
  rw [heq, (next_setHead ..).1, (next_setHead ..).2, ← hconstituent, ← hfeature]
  exact ⟨rfl, rfl⟩

/-- The node on top has the two nodes as its parts. -/
theorem exists_outline?_mergeOnTop : ∃ o,
    (s.mergeOnTop used left right).1.outline? ⟨s.nextConstituent⟩ = some o ∧
      o.parts = [left, right] := by
  obtain ⟨head, label, features, -, -, heq, -⟩ := s.exists_mergeOnTop used left right
  refine ⟨⟨label, [left, right], features, none⟩, ?_, rfl⟩
  rw [heq, outline?_setHead, outline?_addNode, if_pos]
  · rfl
  · rw [(s.next_checked used left right).1]

/-- A merge leaves the features what they are. -/
theorem map_feature_feature?_mergeOnTop (fid : FeatureId) :
    ((s.mergeOnTop used left right).1.feature? fid).map (·.feature) =
      (s.feature? fid).map (·.feature) := by
  obtain ⟨head, label, features, -, -, heq, -⟩ := s.exists_mergeOnTop used left right
  have hsame : (s.mergeOnTop used left right).1.feature? fid =
      (s.checked used left right).feature? fid := by
    rw [heq, feature?, features_setHead]
    rfl
  rw [hsame]
  rcases s.checked_cases used left right with hnone | ⟨pair, -, hpair⟩
  · rw [hnone]
  · rw [hpair, map_feature_feature?_link]

/-- Nothing lands by a merge. -/
theorem lands_mergeOnTop : s.Lands (s.mergeOnTop used left right).1 [] := by
  obtain ⟨head, label, features, -, -, heq, -⟩ := s.exists_mergeOnTop used left right
  have hnext := (s.next_mergeOnTop used left right).1
  refine .of_constituent? (by rw [hnext]; exact Nat.le_succ _) (fun id hid => ?_)
    (s.map_feature_feature?_mergeOnTop used left right)
  have hne : id ≠ ⟨s.nextConstituent⟩ := ne_next_of_lt hid
  rw [heq, constituent?_setHead_of_ne _ hne, constituent?_addNode,
    (s.next_checked used left right).1, if_neg hne]
  rcases s.checked_cases used left right with hnone | ⟨pair, -, hpair⟩
  · rw [hnone]
  · rw [hpair]
    rfl

end mergeOnTop

/-- A merge of added nodes is kept apart. -/
theorem Separate.mergeOnTop (h : s.Separate s') (hleft : s.Added s' (.constituent left))
    (hright : s.Added s' (.constituent right)) (used : IdentSet .feature) :
    s.Separate (s'.mergeOnTop used left right).1 ∧
      s.Added (s'.mergeOnTop used left right).1 (.constituent ⟨s'.nextConstituent⟩) := by
  obtain ⟨head, label, features, hhead, hfeatures, heq, -⟩ := s'.exists_mergeOnTop used left right
  obtain ⟨hconstituent, hfeature⟩ := s'.next_checked used left right
  have hadded {l : Link} (hl : s.Added s' l) : s.Added (s'.checked used left right) l :=
    hl.mono (Nat.le_of_eq hconstituent.symm) (Nat.le_of_eq hfeature.symm)
  -- both features of a check have been added, as they belong to added nodes
  have hchecked : s.Separate (s'.checked used left right) := by
    rcases s'.checked_cases used left right with hnone | ⟨pair, hpair, hlink⟩
    · rw [hnone]
      exact h
    · rw [hlink]
      obtain ⟨hprobe, hgoal⟩ := h.added_of_checkingPair? hleft hright hpair
      exact h.link hprobe hgoal
  have hproject : s.Added (s'.checked used left right) (.constituent head) := by
    rcases hhead with rfl | rfl
    · exact hadded hleft
    · exact hadded hright
  have hnode : s.Separate ((s'.checked used left right).addNode
      { label, parts := [left, right], features }).1 := by
    refine hchecked.addNode
      (Constituent.forall_links_iff.mpr ⟨fun fid hfid => ?_, ?_, ?_, ?_, ?_, ?_, ?_⟩)
    · obtain ⟨used', f, hf, rfl⟩ := hfeatures fid hfid
      exact hchecked.added_of_mem_openFeatures hproject hf
    · simpa using ⟨hadded hleft, hadded hright⟩
    all_goals exact fun _ hmem => absurd hmem List.not_mem_nil
  have hid := hchecked.added_addNode { label, parts := [left, right], features }
  rw [hconstituent] at hid
  refine ⟨?_, Nat.not_lt.mpr h.nextConstituent, ?_⟩
  · rw [heq]
    refine hnode.setHead hid fun a ha => ?_
    rw [List.mem_singleton.mp ha]
    exact hproject.mono (Nat.le_succ _) (Nat.le_refl _)
  · show s'.nextConstituent < _
    rw [(s'.next_mergeOnTop used left right).1]
    exact Nat.lt_succ_self _

/-- The parts of an added node are added ones. -/
theorem Separate.added_of_mem_parts (h : s.Separate s') (hid : s.Added s' (.constituent id))
    {parts : List ConstituentId} (hparts : (s'.constituent? id).map (·.parts) = some parts)
    {part : ConstituentId} (hpart : part ∈ parts) : s.Added s' (.constituent part) := by
  obtain ⟨c, hc, rfl⟩ := Option.map_eq_some_iff.mp hparts
  exact (Constituent.forall_links_iff.mp (h.links_constituent hid hc)).2.1 part hpart

/-- The node that may be raised next is part of the same tree. -/
theorem Separate.added_of_nextEdge (h : s.Separate s') {edges : IdentSet .constituent}
    {node : ConstituentId} (hid : s.Added s' (.constituent id))
    (hnode : (s'.nextEdge edges id).1 = some node) : s.Added s' (.constituent node) := by
  fun_induction s'.nextEdge edges id with
  | case1 id left right hparts hedge hlt ih =>
    exact ih (h.added_of_mem_parts hid hparts (List.mem_cons_self ..)) hnode
  | case2 id left right hparts hedge hlt => exact absurd hnode (by simp)
  | case3 id left right hparts hedge =>
    rw [← Option.some.inj hnode]
    exact h.added_of_mem_parts hid hparts (List.mem_cons_of_mem _ (List.mem_singleton_self _))
  | case4 id _ => exact absurd hnode (by simp)

end Store
end MinimalistGrammar
