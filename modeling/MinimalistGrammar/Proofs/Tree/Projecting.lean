import MinimalistGrammar.Proofs.Beam.Success
import MinimalistGrammar.Proofs.Tree.AtEnd
import MinimalistGrammar.Proofs.Tree.Layout

/-!
# What nodes project from

When the tree of a derivation is built, a node takes its features and its lexical heads from the one
part that it projects from, and says which part this is. Each of the three is read off that part
alone, at the moment at which the node is made. Nothing that is built later changes them at older
nodes, so along the heads one comes to a leaf, and what a node has is what is left of this leaf.
None of this needs the records to be those of a derivation.

## Main definitions

* `Store.HeadWay` — so many heads down from a node is another.
* `Store.Stands` — a node is a leaf with its features, or takes them from its head.
* `Store.Sustains` — `Store.Retains`, with lexical heads and hosts.
* `Store.IsProjected` — all nodes of a tree have what is left of the leaf below their heads.

## Main results

* `Store.sustains_build` — building a tree sustains what there was.
* `Store.isProjected_build` — all nodes of a tree have what is left of a leaf.
* `SurfaceTree.exists_build_isProjected` — **records with one for the root make such a tree**.
-/

namespace MinimalistGrammar
namespace Store

variable {s s' s'' t u : Store} {id id' leaf part : ConstituentId} {fid : FeatureId} {n : Nat}

/-! ### Lexical heads -/

section lexicalHeads

variable (s id id')

theorem lexicalHeads_congr (h : s'.constituent? id = s.constituent? id) :
    s'.lexicalHeads id = s.lexicalHeads id := by
  rw [lexicalHeads, h, lexicalHeads]

theorem lexicalHeads_modifyConstituent {f : Constituent → Constituent}
    (hf : ∀ c, (f c).lexicalHeads = c.lexicalHeads) :
    (s.modifyConstituent id f).lexicalHeads id' = s.lexicalHeads id' := by
  rw [lexicalHeads, constituent?_modifyConstituent, lexicalHeads]
  split
  · cases s.constituent? id' with
    | none => rfl
    | some c => exact hf c
  · rfl

theorem lexicalHeads_check (probe goal : FeatureId) :
    (s.check probe goal).lexicalHeads id = s.lexicalHeads id := by
  rw [check]
  split <;> rfl

theorem lexicalHeads_checkActive (selector selected : ConstituentId) :
    (s.checkActive selector selected).lexicalHeads id = s.lexicalHeads id := by
  rw [checkActive]
  split
  · exact lexicalHeads_check ..
  · rfl

theorem lexicalHeads_checkLicensee (part mover : ConstituentId) (name : String) :
    (s.checkLicensee part mover name).lexicalHeads id = s.lexicalHeads id := by
  rw [checkLicensee]
  split
  · exact lexicalHeads_check ..
  · rfl

theorem headLeaves_of_single {c : Constituent} {head : ConstituentId}
    (hc : c.head = some (.single head)) :
    s.headLeaves id c = (s.lexicalHeads head).foldl addNew [] := by
  rw [headLeaves, hc]
  show ([head].flatMap s.lexicalHeads).foldl addNew [] = _
  rw [List.flatMap_singleton]

/-- A projection is a node with all of this from the start, and nothing else has changed. -/
theorem constituent?_addProjection {head : ConstituentId} (hhead : head.index < s.nextConstituent)
    (label : String) (parts : List ConstituentId) (lexKey : String) :
    (s.addProjection head label parts lexKey).1.constituent? id =
      if id = ⟨s.nextConstituent⟩ then
        some
          { label, parts
            features := s.projected head
            lexKey := some lexKey
            head := some (.single head)
            lexicalHeads := (s.lexicalHeads head).foldl addNew [] }
      else s.constituent? id := by
  set c : Constituent := { label, parts, features := s.projected head, lexKey := some lexKey }
  have hset (id : ConstituentId) : ((s.addNode c).1.modifyConstituent ⟨s.nextConstituent⟩ fun c =>
      { c with head := some (.single head) }).constituent? id =
        if id = ⟨s.nextConstituent⟩ then some { c with head := some (.single head) }
        else s.constituent? id := by
    rw [constituent?_modifyConstituent, constituent?_addNode]
    split <;> rfl
  have hheads : ((s.addNode c).1.modifyConstituent ⟨s.nextConstituent⟩ fun c =>
      { c with head := some (.single head) }).lexicalHeads head = s.lexicalHeads head :=
    lexicalHeads_congr _ _ ((hset head).trans (if_neg (ne_next_of_lt hhead)))
  show (setHead (s.addNode c).1 ⟨s.nextConstituent⟩ (.single head)).constituent? id = _
  rw [setHead, updateLexicalHeads, hset, if_pos rfl]
  show (modifyConstituent _ _ _).constituent? id = _
  rw [constituent?_modifyConstituent, hset]
  split
  · rw [headLeaves_of_single _ _ rfl, hheads]
    rfl
  · rfl

theorem lexicalHeads_addProjection {head : ConstituentId} (hhead : head.index < s.nextConstituent)
    (label : String) (parts : List ConstituentId) (lexKey : String) :
    (s.addProjection head label parts lexKey).1.lexicalHeads id =
      if id = ⟨s.nextConstituent⟩ then (s.lexicalHeads head).foldl addNew []
      else s.lexicalHeads id := by
  rw [lexicalHeads, constituent?_addProjection _ _ hhead]
  split <;> rfl

theorem lexicalHeads_buildMerge (r : NodeRecord) (isLexical : Bool) {selector : ConstituentId}
    (selected : ConstituentId) (hselector : selector.index < s.nextConstituent) :
    (s.buildMerge r isLexical selector selected).1.lexicalHeads id =
      if id = ⟨s.nextConstituent⟩ then (s.lexicalHeads selector).foldl addNew []
      else s.lexicalHeads id := by
  have hnext := (s.next_checkActive selector selected).1
  rw [buildMerge, lexicalHeads_addProjection _ _ (hnext ▸ hselector), hnext,
    lexicalHeads_checkActive, lexicalHeads_checkActive]

theorem lexicalHeads_buildUnary (r : NodeRecord) {part : ConstituentId} (pending : PendingMovers)
    (hpart : part.index < s.nextConstituent) :
    (s.buildUnary r part pending).1.1.lexicalHeads id =
      if id = ⟨s.nextConstituent⟩ then (s.lexicalHeads part).foldl addNew []
      else s.lexicalHeads id := by
  rw [buildUnary]
  split
  · next name mover _ =>
    have hnext := (s.next_checkLicensee part mover name).1
    -- that the mover lands at the new node leaves the lexical heads
    refine (lexicalHeads_modifyConstituent _ _ _ (by exact fun _ => rfl)).trans
      ((lexicalHeads_addProjection _ _ (hnext ▸ hpart) ..).trans ?_)
    rw [hnext, lexicalHeads_checkLicensee, lexicalHeads_checkLicensee]
  · exact lexicalHeads_addProjection _ _ hpart ..

theorem lexicalHeads_finishNode (path : Address) (pending : PendingMovers) :
    (s.finishNode path id pending).1.lexicalHeads id' = s.lexicalHeads id' :=
  lexicalHeads_modifyConstituent _ _ _ (by exact fun _ => rfl)

theorem constituent?_buildLeaf (r : NodeRecord) : (s.buildLeaf r).1.constituent? id =
    if id = ⟨s.nextConstituent⟩ then
      some
        { label := r.label.getD ""
          features := ((s.addNode { label := r.label.getD "" }).1.addFeatures ⟨s.nextConstituent⟩
            r.features).2
          lexKey := some r.lexKey
          parentLexKey := r.parentLexKey
          lexicalHeads := [⟨s.nextConstituent⟩] }
    else s.constituent? id := by
  have hnodes :=
    ((s.addNode { label := r.label.getD "" }).1.addFeatures_spec ⟨s.nextConstituent⟩
      r.features).2.2.2.2.2
  have heq : (s.buildLeaf r).1 =
      (((s.addNode { label := r.label.getD "" }).1.addFeatures ⟨s.nextConstituent⟩
        r.features).1.modifyConstituent ⟨s.nextConstituent⟩ fun c => { c with
          features := ((s.addNode { label := r.label.getD "" }).1.addFeatures
            ⟨s.nextConstituent⟩ r.features).2
          lexicalHeads := [⟨s.nextConstituent⟩] }).modifyConstituent ⟨s.nextConstituent⟩
            fun c => { c with lexKey := some r.lexKey, parentLexKey := r.parentLexKey } := rfl
  rw [heq, constituent?_modifyConstituent, constituent?_modifyConstituent, hnodes,
    constituent?_addNode]
  split <;> rfl

end lexicalHeads

/-! ### What is sustained -/

/-- What is retained, and the nodes that there were have the lexical heads that they had, and the
features their hosts. -/
structure Sustains (s s' : Store) : Prop extends s.Retains s' where
  lexicalHeads {id : ConstituentId} :
    id.index < s.nextConstituent → s'.lexicalHeads id = s.lexicalHeads id
  host? {fid : FeatureId} : fid.index < s.nextFeature → s'.host? fid = s.host? fid

theorem Sustains.trans (h : s.Sustains s') (h' : s'.Sustains s'') : s.Sustains s'' where
  toRetains := h.toRetains.trans h'.toRetains
  lexicalHeads hid :=
    (h'.lexicalHeads (Nat.lt_of_lt_of_le hid h.nextConstituent)).trans (h.lexicalHeads hid)
  host? hfid := (h'.host? (Nat.lt_of_lt_of_le hfid h.nextFeature)).trans (h.host? hfid)

section node

variable (s) (r : NodeRecord)

theorem sustains_finishNode (path : Address) (id : ConstituentId) (pending : PendingMovers) :
    s.Sustains (s.finishNode path id pending).1 where
  toRetains := s.retains_finishNode path id pending
  lexicalHeads _ := lexicalHeads_finishNode ..
  host? _ := rfl

theorem sustains_buildMerge (isLexical : Bool) {selector : ConstituentId} (selected : ConstituentId)
    (hselector : selector.index < s.nextConstituent) :
    s.Sustains (s.buildMerge r isLexical selector selected).1 where
  toRetains := s.retains_buildMerge r isLexical selector selected
  lexicalHeads hid := by
    rw [lexicalHeads_buildMerge _ _ _ _ _ hselector, if_neg (ne_next_of_lt hid)]
  host? {fid} _ := (s.touches_buildMerge r isLexical selector selected).host? fid

theorem sustains_buildUnary {part : ConstituentId} (pending : PendingMovers)
    (hpart : part.index < s.nextConstituent) :
    s.Sustains (s.buildUnary r part pending).1.1 where
  toRetains := s.retains_buildUnary r part pending
  lexicalHeads hid := by rw [lexicalHeads_buildUnary _ _ _ _ hpart, if_neg (ne_next_of_lt hid)]
  host? {fid} _ := by
    obtain ⟨goals, htouches, -⟩ := s.touches_buildUnary r part pending
    exact htouches.host? fid

theorem sustains_buildLeaf : s.Sustains (s.buildLeaf r).1 where
  toRetains := s.retains_buildLeaf r
  lexicalHeads hid :=
    lexicalHeads_congr _ _ ((constituent?_buildLeaf ..).trans (if_neg (ne_next_of_lt hid)))
  host? {fid} hfid := by
    obtain ⟨-, -, hold⟩ :=
      (s.addNode { label := r.label.getD "" }).1.addFeatures_occurrences ⟨s.nextConstituent⟩
        r.features
    exact congrArg (Option.bind · (·.host)) (hold fid hfid)

end node

/-- The root of a tree that was built is a new node. -/
theorem added_build (s : Store) (path : Address) (tree : RecordTree) :
    s.Added (s.build path tree).1 (.constituent (s.build path tree).2.id) := by
  have hgrows := s.grows_build path tree
  have hpos : 0 < tree.size := by cases tree <;> exact Nat.succ_pos _
  have hroot := hgrows.root
  have hnext := hgrows.next
  refine ⟨?_, ?_⟩ <;> rw [Issued] <;> omega

/-- Building a tree sustains what there was. -/
theorem sustains_build (s : Store) (path : Address) (tree : RecordTree) :
    s.Sustains (s.build path tree).1 := by
  induction tree generalizing s path with
  | leaf r => exact (s.sustains_buildLeaf r).trans (sustains_finishNode ..)
  | unary r side part ih =>
    simp only [build_unary]
    have hpart := (s.added_build (path.child side) part).2
    exact ((ih s _).trans (sustains_buildUnary _ _ _ hpart)).trans (sustains_finishNode ..)
  | binary r left right ih₁ ih₂ =>
    simp only [build_binary]
    have hright := ih₂ (s.build path.left left).1 path.right
    have hleft := Nat.lt_of_lt_of_le (s.added_build path.left left).2 hright.nextConstituent
    exact (((ih₁ s _).trans hright).trans (sustains_buildMerge _ _ _ _ hleft)).trans
      (sustains_finishNode ..)

/-! ### One more node -/

/-- A node is a leaf that hosts its features, or it has from an older node what this hands on. -/
inductive Stands (s s' : Store) (id : ConstituentId) : Prop
  | leaf (hhead : s'.head? id = none) (hleaf : s'.isLeaf id = true)
      (hheads : s'.lexicalHeads id = [id])
      (hhosts : ∀ fid ∈ s'.featuresAt id, s.Added s' (.feature fid) ∧ s'.host? fid = some id)
  | projection {part : ConstituentId} (hhead : s'.head? id = some (.single part))
      (hpart : s.Added s' (.constituent part)) (holder : part.index < id.index)
      (hheads : s'.lexicalHeads id = (s'.lexicalHeads part).foldl addNew [])
      (hfeatures : s'.featuresAt id = (s'.featuresAt part).drop 1)

/-- Every node that was added stands, and every feature that was added is on such a leaf. -/
structure IsStanding (s s' : Store) : Prop where
  node {id : ConstituentId} : s.Added s' (.constituent id) → s.Stands s' id
  feature {fid : FeatureId} : s.Added s' (.feature fid) →
    ∃ leaf, s.Added s' (.constituent leaf) ∧ s'.OnLeaf leaf fid ∧ s'.host? fid = some leaf

/-- A node stands as long as what it stands on is sustained. -/
theorem Stands.sustains (h : s.Stands u id) (hid : id.index < u.nextConstituent)
    (hu : u.Sustains t) : s.Stands t id := by
  have hmono {l : Link} (hl : s.Added u l) :
      s.Added t l := hl.mono hu.nextConstituent hu.nextFeature
  cases h with
  | leaf hhead hleaf hheads hhosts =>
    refine .leaf ((hu.head? hid).trans hhead) ?_ ((hu.lexicalHeads hid).trans hheads)
      fun fid hfid => ?_
    · rw [isLeaf_eq, hu.body? hid, ← isLeaf_eq, hleaf]
    · rw [hu.featuresAt hid] at hfid
      obtain ⟨hadded, hhost⟩ := hhosts fid hfid
      exact ⟨hmono hadded, (hu.host? hadded.2).trans hhost⟩
  | projection hhead hpart holder hheads hfeatures =>
    refine .projection ((hu.head? hid).trans hhead) (hmono hpart) holder ?_ ?_
    · rw [hu.lexicalHeads hid, hu.lexicalHeads hpart.2, hheads]
    · rw [hu.featuresAt hid, hu.featuresAt hpart.2, hfeatures]

/-- What stands on top of a part of the new nodes stands on top of all of them. -/
theorem Stands.mono (h : u.Stands t id) (hu : s.Sustains u) : s.Stands t id := by
  have hmono {l : Link} (hl : u.Added t l) : s.Added t l :=
    ⟨fun hissued => hl.1 (hissued.mono hu.nextConstituent hu.nextFeature), hl.2⟩
  cases h with
  | leaf hhead hleaf hheads hhosts =>
    exact .leaf hhead hleaf hheads fun fid hfid => (hhosts fid hfid).imp_left hmono
  | projection hhead hpart holder hheads hfeatures =>
    exact .projection hhead (hmono hpart) holder hheads hfeatures

theorem IsStanding.trans (h : s.IsStanding u) (h' : u.IsStanding t) (hs : s.Sustains u)
    (hu : u.Sustains t) : s.IsStanding t := by
  refine ⟨fun {id} hid => ?_, fun {fid} hfid => ?_⟩
  · by_cases hissued : u.Issued (.constituent id)
    · exact (h.node ⟨hid.1, hissued⟩).sustains hissued hu
    · exact (h'.node ⟨hissued, hid.2⟩).mono hs
  · by_cases hissued : u.Issued (.feature fid)
    · obtain ⟨leaf, hleaf, hmem, hhost⟩ := h.feature ⟨hfid.1, hissued⟩
      refine ⟨leaf, hleaf.mono hu.nextConstituent hu.nextFeature, ?_,
        (hu.host? hissued).trans hhost⟩
      exact (onLeaf_congr (hu.body? hleaf.2) (hu.featuresAt hleaf.2)).mpr hmem
    · obtain ⟨leaf, hleaf, hon⟩ := h'.feature ⟨hissued, hfid.2⟩
      refine ⟨leaf, ⟨fun hold => hleaf.1 ?_, hleaf.2⟩, hon⟩
      exact hold.mono hs.nextConstituent hs.nextFeature

/-- One more node brings no features. -/
theorem IsStanding.succ (h : s.IsStanding u) (hu : u.Sustains t)
    (hconstituent : t.nextConstituent = u.nextConstituent + 1)
    (hfeature : t.nextFeature = u.nextFeature)
    (hnew : s.Stands t ⟨u.nextConstituent⟩) : s.IsStanding t := by
  refine ⟨fun {id} hid => ?_, fun {fid} hfid => ?_⟩
  · rcases hid.cases_succ hconstituent hfeature with heq | hadded
    · obtain rfl := Link.constituent.inj heq
      exact hnew
    · exact (h.node hadded).sustains hadded.2 hu
  · have hold : fid.index < u.nextFeature := hfeature ▸ hfid.2
    obtain ⟨leaf, hleaf, hmem, hhost⟩ := h.feature ⟨hfid.1, hold⟩
    refine ⟨leaf, hleaf.mono hu.nextConstituent hu.nextFeature, ?_, (hu.host? hold).trans hhost⟩
    exact (onLeaf_congr (hu.body? hleaf.2) (hu.featuresAt hleaf.2)).mpr hmem

theorem IsStanding.finishNode (h : s.IsStanding u) (path : Address) (id : ConstituentId)
    (pending : PendingMovers) : s.IsStanding (u.finishNode path id pending).1 := by
  have hu := u.sustains_finishNode path id pending
  refine ⟨fun hid => (h.node hid).sustains hid.2 hu, fun hfid => ?_⟩
  obtain ⟨leaf, hleaf, hmem, hhost⟩ := h.feature hfid
  refine ⟨leaf, hleaf, ?_, (hu.host? hfid.2).trans hhost⟩
  exact (onLeaf_congr (hu.body? hleaf.2) (hu.featuresAt hleaf.2)).mpr hmem

theorem isStanding_buildLeaf (s : Store) (r : NodeRecord) : s.IsStanding (s.buildLeaf r).1 := by
  obtain ⟨-, -, -, -, -, -, hnext, -⟩ := s.buildLeaf_spec r
  have hnew := s.constituent?_buildLeaf ⟨s.nextConstituent⟩ r
  rw [if_pos rfl] at hnew
  have hleaf : (s.buildLeaf r).1.isLeaf ⟨s.nextConstituent⟩ = true := by
    rw [isLeaf, hnew]
    rfl
  have hadded (fid : FeatureId) : fid ∈ (s.buildLeaf r).1.featuresAt ⟨s.nextConstituent⟩ ↔
      s.Added (s.buildLeaf r).1 (.feature fid) := by
    rw [featuresAt_eq (s.outline?_buildLeaf r)]
    exact (mem_addFeatures_iff ..).trans (and_congr_left' Nat.not_lt.symm)
  refine ⟨fun {id} hid => ?_, fun {fid} hfid => ?_⟩
  · -- there is only one new node
    have hlt : id.index < s.nextConstituent + 1 := hnext ▸ hid.2
    obtain rfl : id = ⟨s.nextConstituent⟩ :=
      congrArg Ident.mk (Nat.le_antisymm (Nat.le_of_lt_succ hlt) (Nat.not_lt.mp hid.1))
    refine .leaf ?_ hleaf ?_ fun fid hfid => ⟨(hadded fid).mp hfid, s.host?_buildLeaf r hfid⟩
    · rw [head?, hnew, Option.bind_some]
    · rw [lexicalHeads, hnew, Option.elim_some]
  · have hmem := (hadded fid).mpr hfid
    refine ⟨⟨s.nextConstituent⟩, ⟨Nat.lt_irrefl _, ?_⟩, ⟨hleaf, hmem⟩, s.host?_buildLeaf r hmem⟩
    show s.nextConstituent < (s.buildLeaf r).1.nextConstituent
    rw [hnext]
    exact Nat.lt_succ_self _

/-- All that is added when a tree is built stands. -/
theorem isStanding_build (s : Store) (path : Address) (tree : RecordTree) :
    s.IsStanding (s.build path tree).1 := by
  induction tree generalizing s path with
  | leaf r => exact (s.isStanding_buildLeaf r).finishNode ..
  | unary r side part ih =>
    have hpart := s.added_build (path.child side) part
    have hstanding := ih s (path.child side)
    simp only [build_unary]
    generalize s.build (path.child side) part = b at hpart hstanding
    have hsustains := b.1.sustains_buildUnary r b.2.pending hpart.2
    obtain ⟨hnext, -⟩ := b.1.next_buildUnary r b.2.id b.2.pending
    refine (hstanding.succ hsustains hnext (b.1.nextFeature_buildUnary r b.2.id b.2.pending)
      ?_).finishNode ..
    -- a movement projects from its part
    refine .projection ?_ (hpart.mono hsustains.nextConstituent hsustains.nextFeature) hpart.2 ?_ ?_
    · rw [head?_buildUnary, if_pos rfl]
    · rw [lexicalHeads_buildUnary _ _ _ _ hpart.2, if_pos rfl, hsustains.lexicalHeads hpart.2]
    · rw [featuresAt_buildUnary, if_pos rfl, projected_eq_drop, hsustains.featuresAt hpart.2]
  | binary r left right ih₁ ih₂ =>
    have hselector := s.added_build path.left left
    have hleft := ih₁ s path.left
    have hs := s.sustains_build path.left left
    simp only [build_binary]
    generalize s.build path.left left = b at hselector hleft hs
    have hright := ih₂ b.1 path.right
    have hb := b.1.sustains_build path.right right
    generalize b.1.build path.right right = u at hright hb
    have hselector := hselector.mono hb.nextConstituent hb.nextFeature
    have hsustains := u.1.sustains_buildMerge r left.record.isLexical u.2.id hselector.2
    obtain ⟨hnext, hfeature, -⟩ := u.1.next_buildMerge r left.record.isLexical b.2.id u.2.id
    refine ((hleft.trans hright hs hb).succ hsustains hnext hfeature ?_).finishNode ..
    -- a merge projects from the selector, whatever is built after it
    refine .projection ?_ (hselector.mono hsustains.nextConstituent hsustains.nextFeature)
      hselector.2 ?_ ?_
    · rw [head?_buildMerge, if_pos rfl]
    · rw [lexicalHeads_buildMerge _ _ _ _ _ hselector.2, if_pos rfl,
        hsustains.lexicalHeads hselector.2]
    · rw [featuresAt_buildMerge, if_pos rfl, projected_eq_drop, hsustains.featuresAt hselector.2]

/-! ### Whole trees -/

/-- From a node one comes to another by going to the head so many times. -/
inductive HeadWay (s : Store) : ConstituentId → ConstituentId → Nat → Prop
  | here (id : ConstituentId) : HeadWay s id id 0
  | head {id part leaf : ConstituentId} {n : Nat} (hhead : s.head? id = some (.single part))
      (hway : HeadWay s part leaf n) : HeadWay s id leaf (n + 1)

/-- A node is so many heads above a leaf, and it has what is left of this leaf. -/
structure ProjectsFrom (s : Store) (id leaf : ConstituentId) (n : Nat) : Prop where
  way : s.HeadWay id leaf n
  isLeaf : s.isLeaf leaf = true
  head? : s.head? leaf = none
  lexicalHeads : s.lexicalHeads id = [leaf]
  featuresAt : s.featuresAt id = (s.featuresAt leaf).drop n
  host? {fid : FeatureId} : fid ∈ s.featuresAt id → s.host? fid = some leaf

/-- Every node that was added projects from a leaf that was, and every feature that was added is on
the leaf that hosts it. -/
structure IsProjected (s s' : Store) : Prop where
  node {id : ConstituentId} : s.Added s' (.constituent id) →
    ∃ leaf n, s.Added s' (.constituent leaf) ∧ s'.ProjectsFrom id leaf n
  feature {fid : FeatureId} : s.Added s' (.feature fid) →
    ∃ leaf, s.Added s' (.constituent leaf) ∧ s'.OnLeaf leaf fid ∧ s'.host? fid = some leaf

theorem IsStanding.isProjected (h : s.IsStanding s') : s.IsProjected s' := by
  refine ⟨fun {id} hid => ?_, h.feature⟩
  -- the head is older than the node
  induction hn : id.index using Nat.strongRecOn generalizing id with
  | _ n ih =>
    cases h.node hid with
    | leaf hhead hleaf hheads hhosts =>
      exact ⟨id, 0, hid, .here id, hleaf, hhead, hheads, rfl, fun hfid => (hhosts _ hfid).2⟩
    | @projection part hhead hpart holder hheads hfeatures =>
      obtain ⟨leaf, k, hleaf, hprojects⟩ := ih _ (hn ▸ holder) hpart rfl
      refine ⟨leaf, k + 1, hleaf, .head hhead hprojects.way, hprojects.isLeaf, hprojects.head?,
        ?_, ?_, ?_⟩
      · rw [hheads, hprojects.lexicalHeads]
        rfl
      · rw [hfeatures, hprojects.featuresAt, List.drop_drop]
      · intro fid hfid
        rw [hfeatures] at hfid
        exact hprojects.host? (List.mem_of_mem_drop hfid)

/-- All nodes of a tree that is built have what is left of a leaf. -/
theorem isProjected_build (s : Store) (path : Address) (tree : RecordTree) :
    s.IsProjected (s.build path tree).1 := (s.isStanding_build path tree).isProjected

theorem added_succ_iff (hs : s.nextConstituent ≤ u.nextConstituent)
    (hnext : t.nextConstituent = u.nextConstituent + 1) :
    s.Added t (.constituent id) ↔ id = ⟨u.nextConstituent⟩ ∨ s.Added u (.constituent id) := by
  have hid : id = ⟨u.nextConstituent⟩ ↔ id.index = u.nextConstituent :=
    ⟨congrArg Ident.index, congrArg Ident.mk⟩
  rw [hid, Added, Added, Issued, Issued, Issued]
  omega

theorem added_trans_iff (hs : s.nextConstituent ≤ u.nextConstituent)
    (hu : u.nextConstituent ≤ t.nextConstituent) :
    s.Added t (.constituent id) ↔ s.Added u (.constituent id) ∨ u.Added t (.constituent id) := by
  rw [Added, Added, Added, Issued, Issued, Issued]
  omega

/-- The nodes that are listed for a tree are those that were added. -/
theorem exists_mem_nodes_build_iff (s : Store) (path : Address) (tree : RecordTree) :
    (∃ address, (address, id) ∈ (s.build path tree).2.nodes) ↔
      s.Added (s.build path tree).1 (.constituent id) := by
  -- each constructor adds one node to those of its parts, and lists it with them
  induction tree generalizing s path with
  | leaf r =>
    obtain ⟨-, -, -, -, -, -, hnext, hid⟩ := s.buildLeaf_spec r
    have hnone : ¬s.Added s (.constituent id) := fun h => h.1 h.2
    rw [build_leaf]
    refine Iff.trans ?_ (added_succ_iff (Nat.le_refl _) hnext).symm
    simp [hid, hnone]
  | unary r side part ih =>
    have hs := (s.sustains_build (path.child side) part).nextConstituent
    have hpart := ih s (path.child side)
    simp only [build_unary]
    generalize s.build (path.child side) part = b at hs hpart
    obtain ⟨hnext, hid⟩ := b.1.next_buildUnary r b.2.id b.2.pending
    refine Iff.trans ?_ (added_succ_iff hs hnext).symm
    simp only [List.mem_cons, Prod.mk.injEq, exists_or, hpart, hid, exists_and_right, exists_eq,
      true_and]
  | binary r left right ih₁ ih₂ =>
    have hs := (s.sustains_build path.left left).nextConstituent
    have hleft := ih₁ s path.left
    simp only [build_binary]
    generalize s.build path.left left = b at hs hleft
    have hb := (b.1.sustains_build path.right right).nextConstituent
    have hright := ih₂ b.1 path.right
    generalize b.1.build path.right right = u at hb hright
    obtain ⟨hnext, -, hid⟩ := u.1.next_buildMerge r left.record.isLexical b.2.id u.2.id
    refine Iff.trans ?_ (added_succ_iff (Nat.le_trans hs hb) hnext).symm
    simp only [List.mem_cons, List.mem_append, Prod.mk.injEq, exists_or, hleft, hright, hid,
      exists_and_right, exists_eq, true_and, added_trans_iff hs hb]

end Store

namespace SurfaceTree

/-- **Whenever some records have one for the root, a tree is built**, and the nodes that are listed
for it are those that were added. Each of them projects from a leaf: along the heads one comes to
this leaf, which is the only lexical head of the node and hosts its features, and these are the
features of the leaf but for as many as there are heads on the way. And every feature that was added
is on the leaf that hosts it. -/
theorem exists_build_isProjected (s : Store) {records : List NodeRecord}
    (h : ∃ r ∈ records, r.path = .root) :
    ∃ s' t, SurfaceTree.build s records = some (s', t) ∧
      (∀ id, (∃ address, (address, id) ∈ t.nodes) ↔ s.Added s' (.constituent id)) ∧
      s.IsProjected s' := by
  obtain ⟨r, hr, hpath⟩ := h
  have hplaced : ([], r) ∈ records.map fun r => (r.path.branches, r) :=
    List.mem_map.mpr ⟨r, hr, by rw [hpath]; rfl⟩
  obtain ⟨tree, htree⟩ := Option.ne_none_iff_exists'.mp (RecordTree.ofPlaced_ne_none hplaced)
  refine ⟨_, _, BeamParser.surfaceTree_build_eq htree s, fun id => ?_,
    s.isProjected_build .root tree⟩
  exact s.exists_mem_nodes_build_iff .root tree

/-- Two nodes above a leaf with one feature, as in no derivation. -/
theorem exists_build_isProjected_chain :
    let above (way : List Branch) : NodeRecord :=
      { path := ⟨way⟩, label := none, features := [], movers := [], lexKey := "",
        parentLexKey := none
        isLexical := false }
    let records :=
      [{ above [.left, .left] with label := some "a", features := [.categorial "C"] },
        above [.left], above []]
    (∃ r ∈ records, r.path = .root) ∧ ∃ s t, SurfaceTree.build {} records = some (s, t) ∧
      (∀ id, (∃ address, (address, id) ∈ t.nodes) ↔ Store.Added {} s (.constituent id)) ∧
      Store.IsProjected {} s := by
  intro above records
  have hroot : ∃ r ∈ records, r.path = .root := ⟨above [], by simp [records], rfl⟩
  exact ⟨hroot, exists_build_isProjected {} hroot⟩

end SurfaceTree
end MinimalistGrammar
