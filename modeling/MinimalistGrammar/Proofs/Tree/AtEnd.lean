import MinimalistGrammar.Proofs.Tree.Losing

/-!
# Trees at the end of a derivation

The features of a rebuilt tree sit on its leaves, and the nodes above only hand them on. At the end
of a derivation the root has the start category as its only feature, and nothing is left to move.
But what is on the leaves has been checked only if every licensor has found the mover that waited
for it: otherwise a feature has been lost, and it is still on its leaf.

## Main definitions

* `Store.Hosts` — all new features sit on new leaves.
* `Store.IsAtEnd` — the root of a tree has nothing but the start category.
* `Store.IsChecked` — nothing is left on the leaves of a tree.

## Main results

* `Store.hosts_build` — the features of a rebuilt tree sit on its leaves.
* `Store.isAtEnd_build`, `Store.isChecked_build_iff` — the tree at the end of a derivation.
-/

namespace MinimalistGrammar
namespace Store

/-- A node is a leaf and has a feature. -/
def OnLeaf (s : Store) (leaf : ConstituentId) (fid : FeatureId) : Prop :=
  s.isLeaf leaf = true ∧ fid ∈ s.featuresAt leaf

/-- Each feature that was added on top of `s` is on a leaf that was added as well, and every such
leaf hosts the features that it has. -/
structure Hosts (s s' : Store) : Prop where
  exists_leaf {fid : FeatureId} : s.Added s' (.feature fid) →
    ∃ leaf, s.Added s' (.constituent leaf) ∧ s'.OnLeaf leaf fid
  host? {leaf : ConstituentId} {fid : FeatureId} : s.Added s' (.constituent leaf) →
    s'.OnLeaf leaf fid →
    s'.host? fid = some leaf

/-- The only feature of the root of a tree is the start category, and nothing is left to move. The
features on the leaves below the root are hosted there. -/
structure IsAtEnd (s : Store) (root : ConstituentId) (start : String) : Prop where
  features : ∃ fid, s.featuresAt root = [fid] ∧ s.value? fid = some (.categorial start)
  movers : (s.constituent? root).map (·.movers) = some ∅
  host? {leaf : ConstituentId} {fid : FeatureId} : s.Hangs root (.constituent leaf) →
    s.OnLeaf leaf fid →
    s.host? fid = some leaf

/-- Every feature on a leaf of the tree below `root` is one that the root has, or it has been spent.
None of them has checked a feature on the same leaf. -/
structure IsChecked (s : Store) (root : ConstituentId) : Prop where
  spent {leaf : ConstituentId} {fid : FeatureId} : s.Hangs root (.constituent leaf) →
    s.OnLeaf leaf fid →
    fid ∉ s.featuresAt root → s.IsSpent fid
  apart {leaf : ConstituentId} {a b : FeatureId} : s.Hangs root (.constituent leaf) →
    s.OnLeaf leaf a →
    s.checks? a = some b → ¬s.SameLeaf a b

variable {lex : Lexicon} {s s' t u : Store} {d : Derivation} {p : Phrase} {tree : RecordTree}
  {id leaf root : ConstituentId} {fid : FeatureId} {l : Link}

/-! ### Leaves -/

theorem isLeaf_eq (s : Store) (id : ConstituentId) :
    s.isLeaf id = (s.body? id).any fun b => b.2.isEmpty := by
  rw [isLeaf, body?, outline?]
  cases s.constituent? id <;> rfl

theorem onLeaf_congr (hbody : t.body? leaf = s.body? leaf)
    (hat : t.featuresAt leaf = s.featuresAt leaf) : t.OnLeaf leaf fid ↔ s.OnLeaf leaf fid := by
  rw [OnLeaf, isLeaf_eq, hbody, hat, OnLeaf, isLeaf_eq]

/-! ### One more node -/

/-- A node with parts brings no features. -/
theorem Hosts.succ (h : s.Hosts u) (hconstituent : t.nextConstituent = u.nextConstituent + 1)
    (hfeature : t.nextFeature = u.nextFeature) (hnew : t.isLeaf ⟨u.nextConstituent⟩ = false)
    (hold : ∀ id,
      id ≠ ⟨u.nextConstituent⟩ → t.body? id = u.body? id ∧ t.featuresAt id = u.featuresAt id)
    (hhost : ∀ fid, t.host? fid = u.host? fid) : s.Hosts t where
  exists_leaf {fid} hfid := by
    obtain ⟨leaf, hleaf, hmem⟩ := h.exists_leaf ⟨hfid.1, Nat.lt_of_lt_of_eq hfid.2 hfeature⟩
    obtain ⟨hbody, hat⟩ := hold leaf (ne_next_of_lt hleaf.2)
    refine ⟨leaf,
      hleaf.mono (by rw [hconstituent]; exact Nat.le_succ _) (Nat.le_of_eq hfeature.symm), ?_⟩
    exact (onLeaf_congr hbody hat).mpr hmem
  host? {leaf fid} hleaf hmem := by
    rw [hhost]
    rcases hleaf.cases_succ hconstituent hfeature with heq | hadded
    · obtain rfl := Link.constituent.inj heq
      exact absurd hmem.1 (by simp [hnew])
    · obtain ⟨hbody, hat⟩ := hold leaf (ne_next_of_lt hadded.2)
      exact h.host? hadded ((onLeaf_congr hbody hat).mp hmem)

theorem Hosts.finishNode (h : s.Hosts u) (path : Address) (id : ConstituentId)
    (pending : PendingMovers) : s.Hosts (u.finishNode path id pending).1 := by
  have hsame {leaf : ConstituentId} {fid : FeatureId} :
      (u.finishNode path id pending).1.OnLeaf leaf fid ↔ u.OnLeaf leaf fid :=
    onLeaf_congr (body?_congr leaf (outline?_finishNode ..))
      (featuresAt_congr (outline?_finishNode ..))
  refine ⟨fun hfid => ?_, fun hleaf hmem => h.host? hleaf (hsame.mp hmem)⟩
  obtain ⟨leaf, hleaf, hmem⟩ := h.exists_leaf hfid
  exact ⟨leaf, hleaf, hsame.mpr hmem⟩

/-- The features of two trees that are built one after the other sit on the leaves of both. -/
theorem Hosts.trans (h : s.Hosts u) (h' : u.Hosts t) (hseparate : s.Separate u)
    (hseparate' : u.Separate t) : s.Hosts t := by
  have hsame {leaf : ConstituentId} {fid : FeatureId} (hleaf : u.Issued (.constituent leaf)) :
      t.OnLeaf leaf fid ↔ u.OnLeaf leaf fid := by
    have hnode : t.outline? leaf = u.outline? leaf := by
      rw [outline?, constituent?_of_linked? (hseparate'.old hleaf), outline?]
    exact onLeaf_congr (body?_congr leaf hnode) (featuresAt_congr hnode)
  refine ⟨fun {fid} hfid => ?_, fun {leaf fid} hleaf hmem => ?_⟩
  · by_cases hissued : u.Issued (.feature fid)
    · obtain ⟨leaf, hleaf, hmem⟩ := h.exists_leaf ⟨hfid.1, hissued⟩
      exact ⟨leaf, hleaf.left hseparate', (hsame hleaf.2).mpr hmem⟩
    · obtain ⟨leaf, hleaf, hmem⟩ := h'.exists_leaf ⟨hissued, hfid.2⟩
      exact ⟨leaf, hleaf.right hseparate, hmem⟩
  · by_cases hissued : u.Issued (.constituent leaf)
    · have hmem := (hsame hissued).mp hmem
      have hadded := hseparate.added_of_mem_featuresAt ⟨hleaf.1, hissued⟩ hmem.2
      rw [hseparate'.host?_eq hadded.2]
      exact h.host? ⟨hleaf.1, hissued⟩ hmem
    · exact h'.host? ⟨hissued, hleaf.2⟩ hmem

/-! ### Whole trees -/

/-- A new leaf hosts its features. -/
theorem host?_buildLeaf (s : Store) (r : NodeRecord)
    (hfid : fid ∈ (s.buildLeaf r).1.featuresAt ⟨s.nextConstituent⟩) :
    (s.buildLeaf r).1.host? fid = some ⟨s.nextConstituent⟩ := by
  rw [featuresAt_eq (s.outline?_buildLeaf r)] at hfid
  obtain ⟨hoccurrences, -, -⟩ :=
    (s.addNode { label := r.label.getD "" }).1.addFeatures_occurrences ⟨s.nextConstituent⟩
      r.features
  obtain ⟨f, -, hf⟩ := List.mem_map.mp (hoccurrences ▸ List.mem_map_of_mem hfid)
  have hstored :
      (s.buildLeaf r).1.feature? fid = some { feature := f, host := some ⟨s.nextConstituent⟩ } :=
    hf.symm
  rw [Store.host?, hstored, Option.bind_some]

theorem hosts_leaf (hs : s.IsNumbered) (path : Address) (r : NodeRecord) :
    s.Hosts (s.build path (.leaf r)).1 := by
  have halone := standsAlone_build hs path (.leaf r)
  obtain ⟨-, -, o, ho, -⟩ := build?_eq hs (.leaf r) path
  refine ⟨fun {fid} hfid => ?_, fun {leaf fid} hleaf hmem => ?_⟩
  · obtain ⟨hparts, hfeatures⟩ := mem_features_of_added_leaf hs path r ho hfid
    refine ⟨_, halone.root, ?_, featuresAt_eq ho ▸ hfeatures⟩
    rw [isLeaf_eq, body?, ho, Option.map_some, Option.any_some, hparts]
    rfl
  · -- there is only one new node
    obtain ⟨-, -, -, -, -, -, hnext, -⟩ := s.buildLeaf_spec r
    have hlt : leaf.index < s.nextConstituent + 1 := hnext ▸ hleaf.2
    obtain rfl : leaf = ⟨s.nextConstituent⟩ :=
      congrArg Ident.mk (Nat.le_antisymm (Nat.le_of_lt_succ hlt) (Nat.not_lt.mp hleaf.1))
    rw [OnLeaf, build_leaf, featuresAt_congr (outline?_finishNode ..)] at hmem
    exact s.host?_buildLeaf r hmem.2

/-- The features of a rebuilt tree sit on its leaves. -/
theorem hosts_build (hs : s.IsNumbered) (path : Address) (tree : RecordTree) :
    s.Hosts (s.build path tree).1 := by
  induction tree generalizing s path with
  | leaf r => exact hosts_leaf hs path r
  | unary r side part ih =>
    have hpart := ih hs (path.child side)
    simp only [build_unary]
    generalize s.build (path.child side) part = t at hpart
    obtain ⟨goals, htouches, -⟩ := t.1.touches_buildUnary r t.2.id t.2.pending
    obtain ⟨hnext, -⟩ := t.1.next_buildUnary r t.2.id t.2.pending
    refine Hosts.finishNode (hpart.succ hnext (t.1.nextFeature_buildUnary r t.2.id t.2.pending) ?_
      (fun id hne => ⟨?_, ?_⟩) htouches.host?) ..
    · -- the part is below the new node, whether a mover lands there or not
      rw [isLeaf_eq, body?_buildUnary, if_pos rfl]
      cases t.1.attracted? t.2.id t.2.pending <;> rfl
    · rw [body?_buildUnary, if_neg hne]
    · rw [featuresAt_buildUnary, if_neg hne]
  | binary r left right ih₁ ih₂ =>
    have halone₁ := standsAlone_build hs path.left left
    have hs₁ := halone₁.separate.toIsNumbered
    have halone₂ := standsAlone_build hs₁ path.right right
    -- what is selected is built on top of the selector, and this stays as it is
    have hparts := (ih₁ hs path.left).trans (ih₂ hs₁ path.right) halone₁.separate halone₂.separate
    simp only [build_binary]
    generalize s.build path.left left = t at *
    generalize t.1.build path.right right = u at *
    obtain ⟨hnext, hfeature, -⟩ := u.1.next_buildMerge r left.record.isLexical t.2.id u.2.id
    refine Hosts.finishNode (hparts.succ hnext hfeature ?_ (fun id hne => ⟨body?_congr id ?_, ?_⟩)
      (u.1.touches_buildMerge r left.record.isLexical t.2.id u.2.id).host?) ..
    · rw [isLeaf_eq, body?, outline?_buildMerge, if_pos rfl, Option.map_some, Option.any_some,
        List.isEmpty_eq_false_iff]
      exact List.ne_nil_of_mem (u.1.mem_mergeParts left.record.isLexical t.2.id u.2.id).1
    · rw [outline?_buildMerge, if_neg hne]
    · rw [featuresAt_buildMerge, if_neg hne]

/-! ### What is left on the leaves -/

/-- All that hangs below an added node was added. -/
theorem Separate.added_of_hangs (h : s.Separate s') (hroot : s.Added s' (.constituent root))
    (hl : s'.Hangs root l) : s.Added s' l := by
  induction hl with
  | node => exact hroot
  | feature ho hf => exact h.added_of_mem_features hroot ho hf
  | part ho hpart _ ih => exact ih (h.links hroot.1 ((mem_linksOf_of_outline? ho).2 _ hpart))

section congr

variable (hnode : ∀ id, t.constituent? id = s.constituent? id) (hfeature : ∀ fid,
  t.feature? fid = s.feature? fid)

include hnode

theorem outline?_congr (id : ConstituentId) : t.outline? id = s.outline? id := by
  rw [outline?, hnode, outline?]

/-- What is on a leaf of a tree depends on nothing but nodes. -/
theorem hangs_onLeaf_congr (hhangs : t.Hangs root (.constituent leaf)) (hmem : t.OnLeaf leaf fid) :
    s.Hangs root (.constituent leaf) ∧ s.OnLeaf leaf fid := by
  have hsame := outline?_congr hnode
  refine ⟨hhangs.mono (.of_outline? fun id o ho => hsame id ▸ ho), ?_⟩
  exact (onLeaf_congr (body?_congr leaf (hsame leaf)) (featuresAt_congr (hsame leaf))).mp hmem

include hfeature

theorem IsAtEnd.congr {start : String} (h : s.IsAtEnd root start) : t.IsAtEnd root start where
  features := by
    obtain ⟨fid, hroot, hvalue⟩ := h.features
    refine ⟨fid, (featuresAt_congr (outline?_congr hnode root)).trans hroot, ?_⟩
    rw [value?, hfeature, ← value?, hvalue]
  movers := by rw [hnode, h.movers]
  host? hhangs hmem := by
    obtain ⟨hhangs, hmem⟩ := hangs_onLeaf_congr hnode hhangs hmem
    rw [Store.host?, hfeature, ← Store.host?, h.host? hhangs hmem]

theorem IsChecked.congr (h : s.IsChecked root) : t.IsChecked root := by
  have hsame := Touches.of_feature? hfeature [] []
  refine ⟨fun hhangs hmem hnot => ?_, fun hhangs hmem hlink => ?_⟩
  · obtain ⟨hhangs, hmem⟩ := hangs_onLeaf_congr hnode hhangs hmem
    rw [hsame.isSpent_iff List.not_mem_nil List.not_mem_nil]
    exact h.spent hhangs hmem (featuresAt_congr (outline?_congr hnode root) ▸ hnot)
  · obtain ⟨hhangs, hmem⟩ := hangs_onLeaf_congr hnode hhangs hmem
    rw [hsame.sameLeaf_iff]
    exact h.apart hhangs hmem ((hsame.checks? List.not_mem_nil).symm.trans hlink)

end congr

/-- What is left to move is kept at the root. -/
theorem movers_build (s : Store) (path : Address) (tree : RecordTree) :
    ((s.build path tree).1.constituent? (s.build path tree).2.id).map (·.movers) =
      ((s.build path tree).1.constituent? (s.build path tree).2.id).map
        fun _ => (s.build path tree).2.pending := by
  have hfinish (u : Store) (id : ConstituentId) (pending : PendingMovers) :
      ((u.finishNode path id pending).1.constituent? id).map (·.movers) =
        ((u.finishNode path id pending).1.constituent? id).map fun _ =>
          (u.finishNode path id pending).2 := by
    rw [Store.finishNode, constituent?_modifyConstituent, if_pos rfl]
    cases u.constituent? id <;> rfl
  cases tree with
  | leaf r => exact hfinish ..
  | unary r side part => exact hfinish ..
  | binary r left right => exact hfinish ..

/-- At the end of a derivation, the root of the rebuilt tree has nothing but the start category. -/
theorem isAtEnd_build {start : String} (hlex : lex.WellFormed) (h : tree.Encodes lex d)
    (htree : tree.Projects) (hp : d.phrase? lex = some p)
    (hfeatures : p.features.map Feature.plain = [.categorial start]) (hmovers : p.movers = ∅)
    (hrecord : tree.record.features = [.categorial start]) (hs : s.IsNumbered) (path : Address) :
    (s.build path tree).1.IsAtEnd (s.build path tree).2.id start := by
  have halone := standsAlone_build hs path tree
  obtain ⟨-, -, o, ho, hbears⟩ := build?_eq hs htree path
  refine ⟨?_, ?_, fun hhangs hmem => ?_⟩
  · have hvalues := hbears.values
    rw [hrecord, List.map_singleton, List.map_eq_singleton_iff] at hvalues
    obtain ⟨fid, hroot, hvalue⟩ := hvalues
    exact ⟨fid, (featuresAt_eq ho).trans hroot, hvalue⟩
  · -- nothing is owed, so nothing is filed
    have hpending : (s.build path tree).2.pending = ∅ := Dict.ext_get? fun z => by
      by_contra hz
      rcases owes_of_pending hlex h htree hp hs path hz with hz | ⟨y, m, hm, -⟩
      · have hnames : licenseeNames p.features = licenseeNames [.categorial start] :=
          licenseeNames_congr hfeatures
        rw [hnames] at hz
        exact absurd hz List.not_mem_nil
      · rw [hmovers] at hm
        exact absurd hm (by simp)
    obtain ⟨c, hc, -⟩ := Option.map_eq_some_iff.mp ho
    rw [movers_build, hc, hpending, Option.map_some]
  · exact (hosts_build hs path tree).host? (halone.separate.added_of_hangs halone.root hhangs) hmem

/-- At the end of a derivation, the rebuilt tree is checked if and only if every licensor has found
the mover that waited for it. -/
theorem isChecked_build_iff (hlex : lex.WellFormed) (h : tree.Encodes lex d) (htree : tree.Projects)
    (hp : d.phrase? lex = some p) (hmovers : p.movers = ∅) (hs : s.IsNumbered) (path : Address) :
    (s.build path tree).1.IsChecked (s.build path tree).2.id ↔ d.isFaithful lex = true := by
  have halone := standsAlone_build hs path tree
  constructor
  · intro hchecked
    by_contra hd
    -- what is lost is on a leaf still
    obtain ⟨fid, hlost⟩ := exists_lost hlex h htree hp hd hs path
    obtain ⟨leaf, hleaf, hmem⟩ := (hosts_build hs path tree).exists_leaf hlost.added
    exact hlost.unspent (hchecked.spent (halone.hangs hleaf) hmem hlost.notMem)
  · intro hd
    obtain ⟨root, hb, hspends⟩ := spends_build hlex h htree hp hd hs path
    have hadded {leaf : ConstituentId} {fid : FeatureId}
        (hhangs : (s.build path tree).1.Hangs (s.build path tree).2.id (.constituent leaf))
        (hmem : (s.build path tree).1.OnLeaf leaf fid) :
        s.Added (s.build path tree).1 (.feature fid) :=
      halone.separate.added_of_mem_featuresAt (halone.separate.added_of_hangs halone.root hhangs)
        hmem.2
    refine ⟨fun hhangs hmem hnot => ?_,
      fun hhangs hmem hlink => hspends.links (hadded hhangs hmem) hlink⟩
    rcases hspends.spent (hadded hhangs hmem) with hroot | hspent | ⟨n, m, ids, ⟨⟨z, -, hm⟩, -⟩, -⟩
    · exact absurd (featuresAt_eq hb.outline ▸ hroot) hnot
    · exact hspent
    · -- nothing waits any more
      rw [hmovers] at hm
      exact absurd hm (by simp)

end Store
end MinimalistGrammar
