import MinimalistGrammar.Proofs.Beam.Ways
import MinimalistGrammar.Proofs.Tree.Losing

/-!
# The layout of merges

When the tree of a derivation is built, a node for which one part takes the other gets a label and
an order of its parts. Both are read off the part that takes: an adjunct is marked as such, a word
stands on the left of what it takes, and a phrase on the right. What is built later changes none of
this, so the merges of a whole tree are laid out by the records of their left parts.

## Main definitions

* `Store.head?` — what a node projects from.
* `Store.Retains` — the older nodes have the label, the parts, the head and the features that they
  had.
* `Store.HasFeatures` — what the features that are left at a node are.
* `NodeRecord.layout` — the layout of a merge by the record of the part that takes the other one.
* `Store.ShowsMerge` — the nodes of a merge and its parts, laid out in some way.

## Main results

* `Store.retains_build` — building a tree retains what there was.
* `Store.hasFeatures_build` — the root of a tree has the features of its record.
* `Store.showsMerge_build` — the merges of a tree are laid out by the records of their left parts.
-/

namespace MinimalistGrammar
namespace Store

/-- What a node projects from. -/
def head? (s : Store) (id : ConstituentId) : Option Head := (s.constituent? id).bind (·.head)

variable {s s' s'' : Store} {id : ConstituentId} {fid : FeatureId}

/-! ### Heads -/

section head

variable (s id) (id' : ConstituentId)

theorem head?_modifyConstituent {f : Constituent → Constituent} (hf : ∀ c, (f c).head = c.head) :
    (s.modifyConstituent id f).head? id' = s.head? id' := by
  rw [head?, constituent?_modifyConstituent, head?]
  split
  · cases s.constituent? id' with
    | none => rfl
    | some c => exact hf c
  · rfl

theorem head?_setHead (head : Head) : (s.setHead id head).head? id' =
    if id' = id then (s.constituent? id').map fun _ => head else s.head? id' := by
  have hset : (s.modifyConstituent id fun c => { c with head := some head }).head? id' =
      if id' = id then (s.constituent? id').map fun _ => head else s.head? id' := by
    rw [head?, constituent?_modifyConstituent]
    split
    · cases s.constituent? id' <;> rfl
    · rfl
  rw [setHead, updateLexicalHeads]
  split
  · exact hset
  · rw [head?_modifyConstituent _ _ _ (by exact fun _ => rfl), hset]

theorem head?_addProjection (head : ConstituentId) (label : String) (parts : List ConstituentId)
    (lexKey : String) : (s.addProjection head label parts lexKey).1.head? id =
      if id = ⟨s.nextConstituent⟩ then some (.single head) else s.head? id := by
  refine (head?_setHead ..).trans ?_
  by_cases hid : id = ⟨s.nextConstituent⟩
  · rw [if_pos hid, if_pos hid]
    exact congrArg (Option.map _) ((constituent?_addNode ..).trans (if_pos hid))
  · rw [if_neg hid, if_neg hid]
    exact congrArg (Option.bind · (·.head)) ((constituent?_addNode ..).trans (if_neg hid))

theorem head?_check (probe goal : FeatureId) : (s.check probe goal).head? id = s.head? id := by
  rw [check]
  split <;> rfl

theorem head?_checkActive (selector selected : ConstituentId) :
    (s.checkActive selector selected).head? id = s.head? id := by
  rw [checkActive]
  split
  · exact head?_check ..
  · rfl

theorem head?_checkLicensee (part mover : ConstituentId) (name : String) :
    (s.checkLicensee part mover name).head? id = s.head? id := by
  rw [checkLicensee]
  split
  · exact head?_check ..
  · rfl

theorem head?_buildMerge (r : NodeRecord) (isLexical : Bool) (selector selected : ConstituentId) :
    (s.buildMerge r isLexical selector selected).1.head? id =
      if id = ⟨s.nextConstituent⟩ then some (.single selector) else s.head? id := by
  rw [buildMerge, head?_addProjection, (s.next_checkActive selector selected).1, head?_checkActive]

theorem head?_buildUnary (r : NodeRecord) (part : ConstituentId) (pending : PendingMovers) :
    (s.buildUnary r part pending).1.1.head? id =
      if id = ⟨s.nextConstituent⟩ then some (.single part) else s.head? id := by
  rw [buildUnary]
  split
  · next name mover _ =>
    -- that the mover lands at the new node leaves its head
    refine (head?_modifyConstituent _ _ _ (by exact fun _ => rfl)).trans
      ((head?_addProjection ..).trans ?_)
    rw [(s.next_checkLicensee part mover name).1, head?_checkLicensee]
  · exact head?_addProjection ..

theorem head?_finishNode (path : Address) (pending : PendingMovers) :
    (s.finishNode path id pending).1.head? id' = s.head? id' :=
  head?_modifyConstituent _ _ _ (by exact fun _ => rfl)

theorem head?_buildLeaf (r : NodeRecord) (hid : id ≠ ⟨s.nextConstituent⟩) :
    (s.buildLeaf r).1.head? id = s.head? id := by
  have hnodes :=
    ((s.addNode { label := r.label.getD "" }).1.addFeatures_spec ⟨s.nextConstituent⟩
      r.features).2.2.2.2.2
  have hconstituent : (s.buildLeaf r).1.constituent? id = s.constituent? id := by
    refine (constituent?_modifyConstituent ..).trans ((if_neg hid).trans ?_)
    refine (constituent?_modifyConstituent ..).trans ((if_neg hid).trans ?_)
    exact (hnodes id).trans ((constituent?_addNode ..).trans (if_neg hid))
  rw [head?, hconstituent, head?]

end head

/-! ### What is retained -/

/-- The nodes that there were have the label, the parts, the head and the features that they had,
and the features are what they were. -/
structure Retains (s s' : Store) : Prop where
  nextConstituent : s.nextConstituent ≤ s'.nextConstituent
  nextFeature : s.nextFeature ≤ s'.nextFeature
  body? {id : ConstituentId} : id.index < s.nextConstituent → s'.body? id = s.body? id
  head? {id : ConstituentId} : id.index < s.nextConstituent → s'.head? id = s.head? id
  featuresAt {id : ConstituentId} :
    id.index < s.nextConstituent → s'.featuresAt id = s.featuresAt id
  value? {fid : FeatureId} : fid.index < s.nextFeature → s'.value? fid = s.value? fid

theorem Retains.refl (s : Store) : s.Retains s where
  nextConstituent := Nat.le_refl _
  nextFeature := Nat.le_refl _
  body? _ := rfl
  head? _ := rfl
  featuresAt _ := rfl
  value? _ := rfl

theorem Retains.trans (h : s.Retains s') (h' : s'.Retains s'') : s.Retains s'' where
  nextConstituent := Nat.le_trans h.nextConstituent h'.nextConstituent
  nextFeature := Nat.le_trans h.nextFeature h'.nextFeature
  body? hid := (h'.body? (Nat.lt_of_lt_of_le hid h.nextConstituent)).trans (h.body? hid)
  head? hid := (h'.head? (Nat.lt_of_lt_of_le hid h.nextConstituent)).trans (h.head? hid)
  featuresAt hid :=
    (h'.featuresAt (Nat.lt_of_lt_of_le hid h.nextConstituent)).trans (h.featuresAt hid)
  value? hfid := (h'.value? (Nat.lt_of_lt_of_le hfid h.nextFeature)).trans (h.value? hfid)

section node

variable (s) (r : NodeRecord)

theorem retains_finishNode (path : Address) (id : ConstituentId) (pending : PendingMovers) :
    s.Retains (s.finishNode path id pending).1 where
  nextConstituent := Nat.le_refl _
  nextFeature := Nat.le_refl _
  body? {id'} _ := body?_congr id' (outline?_finishNode ..)
  head? _ := head?_finishNode ..
  featuresAt _ := featuresAt_congr (outline?_finishNode ..)
  value? _ := rfl

theorem retains_buildMerge (isLexical : Bool) (selector selected : ConstituentId) :
    s.Retains (s.buildMerge r isLexical selector selected).1 where
  nextConstituent := by
    rw [(s.next_buildMerge r isLexical selector selected).1]
    exact Nat.le_succ _
  nextFeature := Nat.le_of_eq (s.next_buildMerge r isLexical selector selected).2.1.symm
  body? {id} hid := body?_congr id (by rw [outline?_buildMerge, if_neg (ne_next_of_lt hid)])
  head? hid := by rw [head?_buildMerge, if_neg (ne_next_of_lt hid)]
  featuresAt hid := by rw [featuresAt_buildMerge, if_neg (ne_next_of_lt hid)]
  value? _ := (s.touches_buildMerge r isLexical selector selected).value? _

theorem retains_buildUnary (part : ConstituentId) (pending : PendingMovers) :
    s.Retains (s.buildUnary r part pending).1.1 where
  nextConstituent := by
    rw [(s.next_buildUnary r part pending).1]
    exact Nat.le_succ _
  nextFeature := Nat.le_of_eq (s.nextFeature_buildUnary r part pending).symm
  body? hid := by rw [body?_buildUnary, if_neg (ne_next_of_lt hid)]
  head? hid := by rw [head?_buildUnary, if_neg (ne_next_of_lt hid)]
  featuresAt hid := by rw [featuresAt_buildUnary, if_neg (ne_next_of_lt hid)]
  value? {fid} _ := by
    obtain ⟨goals, htouches, -⟩ := s.touches_buildUnary r part pending
    exact htouches.value? fid

theorem value?_buildLeaf (hfid : fid.index < s.nextFeature) :
    (s.buildLeaf r).1.value? fid = s.value? fid := by
  obtain ⟨-, -, hold⟩ :=
    (s.addNode { label := r.label.getD "" }).1.addFeatures_occurrences ⟨s.nextConstituent⟩
      r.features
  exact congrArg (Option.map (·.feature)) (hold fid hfid)

theorem retains_buildLeaf : s.Retains (s.buildLeaf r).1 := by
  obtain ⟨ids, houtline, -, -, -, hfeature, hnext, -⟩ := s.buildLeaf_spec r
  have hother {id : ConstituentId} (hid : id.index < s.nextConstituent) :
      (s.buildLeaf r).1.outline? id = s.outline? id := by rw [houtline, if_neg (ne_next_of_lt hid)]
  exact {
    nextConstituent := by
      rw [hnext]
      exact Nat.le_succ _
    nextFeature := hfeature
    body? := fun {id} hid => body?_congr id (hother hid)
    head? := fun hid => head?_buildLeaf _ _ _ (ne_next_of_lt hid)
    featuresAt := fun hid => featuresAt_congr (hother hid)
    value? := fun hfid => s.value?_buildLeaf r hfid }

end node

/-- Building a tree retains what there was. -/
theorem retains_build (s : Store) (path : Address) (tree : RecordTree) :
    s.Retains (s.build path tree).1 := by
  induction tree generalizing s path with
  | leaf r => exact (s.retains_buildLeaf r).trans (retains_finishNode ..)
  | unary r side part ih =>
    simp only [build_unary]
    exact ((ih s _).trans (retains_buildUnary ..)).trans (retains_finishNode ..)
  | binary r left right ih₁ ih₂ =>
    simp only [build_binary]
    exact (((ih₁ s _).trans (ih₂ _ _)).trans (retains_buildMerge ..)).trans (retains_finishNode ..)

/-! ### The features of a node -/

/-- A node that has been added has some features, all of which have been added. -/
structure HasFeatures (s : Store) (id : ConstituentId) (features : List Feature) : Prop where
  node : id.index < s.nextConstituent
  issued {fid : FeatureId} : fid ∈ s.featuresAt id → fid.index < s.nextFeature
  values : (s.featuresAt id).map s.value? = features.map some

section features

variable {features : List Feature} {part : ConstituentId} {f : Feature}

/-- The features of a node are retained. -/
theorem HasFeatures.retains (h : s.HasFeatures id features) (hs : s.Retains s') :
    s'.HasFeatures id features where
  node := Nat.lt_of_lt_of_le h.node hs.nextConstituent
  issued hfid := Nat.lt_of_lt_of_le (h.issued (hs.featuresAt h.node ▸ hfid)) hs.nextFeature
  values := by
    rw [hs.featuresAt h.node, ← h.values]
    exact List.map_congr_left fun fid hfid => hs.value? (h.issued hfid)

/-- A node that projects from a part has all features of the part but for the first one. -/
theorem HasFeatures.project (h : s.HasFeatures part (f :: features)) (hs : s.Retains s')
    (hid : id.index < s'.nextConstituent) (heq : s'.featuresAt id = s.projected part) :
    s'.HasFeatures id features where
  node := hid
  issued {fid} hfid := by
    rw [heq, projected_eq_drop] at hfid
    exact Nat.lt_of_lt_of_le (h.issued (List.mem_of_mem_drop hfid)) hs.nextFeature
  values := by
    have hvalues := (h.retains hs).values
    rw [hs.featuresAt h.node] at hvalues
    rw [heq, projected_eq_drop, List.map_drop, hvalues]
    rfl

/-- The sign of the active feature of a node. -/
theorem HasFeatures.sign?_active (h : s.HasFeatures id features) :
    (s.active? id).bind s.sign? = features.head?.map (·.sign) := by
  have hhead := congrArg List.head? h.values
  rw [List.head?_map, List.head?_map, ← active?_eq_head?] at hhead
  cases hactive : s.active? id with
  | none =>
    rw [hactive] at hhead
    cases features with
    | nil => rfl
    | cons f features => exact absurd hhead (by simp)
  | some fid =>
    rw [hactive] at hhead
    cases features with
    | nil => exact absurd hhead (by simp)
    | cons f features =>
      have hvalue : s.value? fid = some f := Option.some.inj hhead
      obtain ⟨occurrence, hoccurrence, rfl⟩ := Option.map_eq_some_iff.mp hvalue
      exact congrArg (Option.map (·.feature.sign)) hoccurrence

end features

/-- A leaf has the features of its record. -/
theorem hasFeatures_buildLeaf (s : Store) (r : NodeRecord) :
    (s.buildLeaf r).1.HasFeatures (s.buildLeaf r).2 r.features := by
  obtain ⟨ids, houtline, hopen, hrange, -, -, hnext, hid⟩ := s.buildLeaf_spec r
  have hfeatures : (s.buildLeaf r).1.featuresAt (s.buildLeaf r).2 = ids := by
    rw [featuresAt, houtline, if_pos hid, Option.elim_some]
  refine ⟨?_, fun {fid} hfid => ?_, ?_⟩
  · rw [hnext, hid]
    exact Nat.lt_succ_self _
  · rw [hfeatures] at hfid
    exact (hrange fid hfid).2
  · rw [hfeatures, ← hopen]
    refine List.map_congr_left fun fid hfid => ?_
    -- an open feature is what it is
    obtain ⟨f, -, hf⟩ := List.mem_map.mp (hopen ▸ List.mem_map_of_mem hfid)
    obtain ⟨occurrence, hoccurrence, rfl⟩ := Option.map_eq_some_iff.mp hf.symm
    rw [value?, (Option.filter_eq_some_iff.mp hoccurrence).1, ← hf, Option.map_some]

/-- The root of a tree has the features of its record. -/
theorem hasFeatures_build {tree : RecordTree} (htree : tree.Projects) (s : Store) (path : Address) :
    (s.build path tree).1.HasFeatures (s.build path tree).2.id tree.record.features := by
  induction htree generalizing s path with
  | leaf r => exact (s.hasFeatures_buildLeaf r).retains (retains_finishNode ..)
  | @unary r side part f _ hfeatures ih =>
    simp only [build_unary]
    have h := ih s (path.child side)
    rw [hfeatures] at h
    generalize s.build (path.child side) part = t at h
    obtain ⟨hnext, hid⟩ := t.1.next_buildUnary r t.2.id t.2.pending
    refine (h.project (retains_buildUnary ..) ?_ ?_).retains (retains_finishNode ..)
    · rw [hnext, hid]
      exact Nat.lt_succ_self _
    · rw [featuresAt_buildUnary, if_pos hid]
  | @binary r left right f _ _ hfeatures _ ih₁ ih₂ =>
    simp only [build_binary]
    -- the head is built first, and what is built for the other part retains its features
    have h := (ih₁ s path.left).retains (retains_build (s.build path.left left).1 path.right right)
    rw [hfeatures] at h
    generalize s.build path.left left = t at h
    generalize t.1.build path.right right = u at h
    obtain ⟨hnext, -, hid⟩ := u.1.next_buildMerge r left.record.isLexical t.2.id u.2.id
    refine (h.project (retains_buildMerge ..) ?_ ?_).retains (retains_finishNode ..)
    · rw [hnext, hid]
      exact Nat.lt_succ_self _
    · rw [featuresAt_buildMerge, if_pos hid]

end Store

/-! ### Merges -/

/-- The label and the parts of a node for which the first of two phrases takes the second one, by
the record of the first. -/
def NodeRecord.layout (r : NodeRecord) (selector selected : ConstituentId) :
    String × List ConstituentId :=
  if r.features.head?.map (·.sign) = some .adjunct then (adjunction, [selector, selected])
  else if r.isLexical then (headLeft, [selector, selected])
  else (headRight, [selected, selector])

namespace Store

variable {s s' : Store} {path : Address} {tree left right : RecordTree} {r : NodeRecord}
  {way : List Branch} {nodes nodes' : List (Address × ConstituentId)}
  {layout : ConstituentId → ConstituentId → String × List ConstituentId}

/-- There are a node and two parts of it, each under its address, and the node is laid out in some
way and projects from the left part. -/
def ShowsMerge (s : Store) (nodes : List (Address × ConstituentId)) (path : Address)
    (layout : ConstituentId → ConstituentId → String × List ConstituentId) : Prop :=
  ∃ id selector selected, (path, id) ∈ nodes ∧ (path.left, selector) ∈ nodes ∧
    (path.right, selected) ∈ nodes ∧
    id.index < s.nextConstituent ∧ s.body? id = some (layout selector selected) ∧
      s.head? id = some (.single selector)

/-- What is added later leaves a merge as it is laid out. -/
theorem ShowsMerge.retains (h : s.ShowsMerge nodes path layout) (hs : s.Retains s')
    (hnodes : nodes ⊆ nodes') : s'.ShowsMerge nodes' path layout := by
  obtain ⟨id, selector, selected, hnode, hselector, hselected, hid, hbody, hhead⟩ := h
  refine ⟨id, selector, selected, hnodes hnode, hnodes hselector, hnodes hselected, ?_, ?_, ?_⟩
  · exact Nat.lt_of_lt_of_le hid hs.nextConstituent
  · rw [hs.body? hid, hbody]
  · rw [hs.head? hid, hhead]

theorem root_mem_nodes_build (s : Store) (path : Address) (tree : RecordTree) :
    (path, (s.build path tree).2.id) ∈ (s.build path tree).2.nodes := by
  cases tree <;> exact List.mem_cons_self ..

/-- The root of a tree is laid out by the record of its left part. -/
theorem showsMerge_root (hleft : left.Projects) (s : Store) (path : Address) (r : NodeRecord)
    (right : RecordTree) : (s.build path (.binary r left right)).1.ShowsMerge
      (s.build path (.binary r left right)).2.nodes path left.record.layout := by
  have hfeatures := (hasFeatures_build hleft s path.left).retains
    (retains_build (s.build path.left left).1 path.right right)
  have hselector := root_mem_nodes_build s path.left left
  have hselected := root_mem_nodes_build (s.build path.left left).1 path.right right
  simp only [build_binary]
  generalize s.build path.left left = t at hfeatures hselector hselected
  generalize t.1.build path.right right = u at hfeatures hselected
  obtain ⟨hnext, -, hid⟩ := u.1.next_buildMerge r left.record.isLexical t.2.id u.2.id
  refine ShowsMerge.retains ⟨_, t.2.id, u.2.id, List.mem_cons_self .., ?_, ?_, ?_, ?_, ?_⟩
    (retains_finishNode ..) (List.Subset.refl _)
  · exact List.mem_cons_of_mem _ (List.mem_append_left _ hselector)
  · exact List.mem_cons_of_mem _ (List.mem_append_right _ hselected)
  · rw [hnext, hid]
    exact Nat.lt_succ_self _
  · rw [body?, outline?_buildMerge, if_pos hid, Option.map_some]
    exact congrArg some (by rw [mergeParts, hfeatures.sign?_active]; rfl)
  · rw [head?_buildMerge, if_pos hid]

/-- The merges of a tree are laid out by the records of their left parts. -/
theorem showsMerge_build (htree : tree.Projects) (hway : tree.at? way = some (.binary r left right))
    (s : Store) (path : Address) : (s.build path tree).1.ShowsMerge (s.build path tree).2.nodes
      (path.along way) left.record.layout := by
  -- the way leads into one of the parts, and what is built after this part retains the merge
  induction htree generalizing s path way with
  | leaf r' =>
    cases way with
    | nil => exact absurd (Option.some.inj hway) (by simp)
    | cons b way => exact absurd hway (by simp [RecordTree.at?])
  | @unary r' side part f _ _ ih =>
    cases way with
    | nil => exact absurd (Option.some.inj hway) (by simp)
    | cons b way =>
      by_cases hb : b = side
      · subst hb
        rw [RecordTree.at?, if_pos rfl] at hway
        have h := ih hway s (path.child b)
        rw [Address.along_child] at h
        simp only [build_unary]
        exact h.retains ((retains_buildUnary ..).trans (retains_finishNode ..))
          (List.subset_cons_self ..)
      · exact absurd hway (by simp [RecordTree.at?, hb])
  | @binary r' left' right' f hleft _ _ _ ih₁ ih₂ =>
    have hsecond := retains_build (s.build path.left left').1 path.right right'
    cases way with
    | nil =>
      obtain ⟨rfl, rfl, rfl⟩ := RecordTree.binary.inj (Option.some.inj hway)
      rw [Address.along_nil]
      exact showsMerge_root hleft s path _ _
    | cons b way =>
      simp only [build_binary]
      cases b with
      | left =>
        have h := ih₁ hway s path.left
        rw [Address.left, Address.along_child] at h
        exact h.retains ((hsecond.trans (retains_buildMerge ..)).trans (retains_finishNode ..))
          (List.Subset.trans (List.subset_append_left ..) (List.subset_cons_self ..))
      | right =>
        have h := ih₂ hway (s.build path.left left').1 path.right
        rw [Address.right, Address.along_child] at h
        exact h.retains ((retains_buildMerge ..).trans (retains_finishNode ..))
          (List.Subset.trans (List.subset_append_right ..) (List.subset_cons_self ..))

end Store
end MinimalistGrammar
