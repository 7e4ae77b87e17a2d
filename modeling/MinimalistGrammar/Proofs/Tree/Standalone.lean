import MinimalistGrammar.Proofs.Tree.Growth
import MinimalistGrammar.Proofs.Tree.Separation

/-!
# Trees that stand alone

The tree of a derivation is built apart from everything else in the store, and it holds together:
all that was added for it hangs below its root.

## Main definitions

* `Store.Keeps` — all nodes are as they were, but for where they are pronounced.
* `Store.Hangs` — an object is part of the tree below a node.
* `Store.StandsAlone` — a tree has been built apart, and everything that was added is part of it.

## Main results

* `Store.standsAlone_build` — the tree of a derivation stands alone.
* `Store.SameGroups.build` — building a tree makes no groups.
-/

namespace MinimalistGrammar
namespace Store

variable {s s' s'' t : Store} {l : Link} {id : ConstituentId} {o : Outline}

/-! ### Hanging below a node -/

/-- Every node is as it was, but for where it is pronounced. -/
structure Keeps (s s' : Store) : Prop where
  outline? {id : ConstituentId} {o : Outline} : s.outline? id = some o →
    ∃ landing, s'.outline? id = some { o with landing }

theorem Keeps.of_outline? (h : ∀ id o, s.outline? id = some o → s'.outline? id = some o) :
    s.Keeps s' := ⟨fun {id o} ho => ⟨o.landing, h id o ho⟩⟩

theorem Keeps.trans (h : s.Keeps s') (h' : s'.Keeps s'') : s.Keeps s'' := by
  refine ⟨fun {id o} ho => ?_⟩
  obtain ⟨landing, ho'⟩ := h.outline? ho
  obtain ⟨landing', ho''⟩ := h'.outline? ho'
  exact ⟨landing', ho''⟩

/-- What is part of the tree below a node: the node, its features, and what is part of the trees
below its parts. -/
inductive Hangs (s : Store) : ConstituentId → Link → Prop
  | node (id : ConstituentId) : Hangs s id (.constituent id)
  | feature {id : ConstituentId} {o : Outline} {f : FeatureId} (ho : s.outline? id = some o)
      (hf : f ∈ o.features) : Hangs s id (.feature f)
  | part {id part : ConstituentId} {o : Outline} {l : Link} (ho : s.outline? id = some o)
      (hpart : part ∈ o.parts) (hl : Hangs s part l) : Hangs s id l

theorem Hangs.mono (h : s.Hangs id l) (hkeeps : s.Keeps s') : s'.Hangs id l := by
  induction h with
  | node id => exact .node id
  | feature ho hf =>
    obtain ⟨landing, ho'⟩ := hkeeps.outline? ho
    exact .feature ho' hf
  | part ho hpart _ ih =>
    obtain ⟨landing, ho'⟩ := hkeeps.outline? ho
    exact .part ho' hpart ih

/-- A node is linked to its features and to its parts. -/
theorem mem_linksOf_of_outline? (ho : s.outline? id = some o) :
    (∀ f ∈ o.features, .feature f ∈ s.linksOf (.constituent id)) ∧
      ∀ part ∈ o.parts, .constituent part ∈ s.linksOf (.constituent id) := by
  obtain ⟨c, hc, rfl⟩ := Option.map_eq_some_iff.mp ho
  obtain ⟨hfeatures, hparts, -⟩ :=
    Constituent.forall_links_iff.mp fun l (hl : l ∈ c.links) => (linksOf_constituent hc ▸ hl :)
  exact ⟨hfeatures, hparts⟩

/-- What is part of a tree can be reached from its root. -/
theorem Hangs.reaches (h : s.Hangs id l) (hl : s.linked? l ≠ none) :
    s.Reaches [.constituent id] l := by
  have hroot {id : ConstituentId} {o : Outline} (ho : s.outline? id = some o) :
      s.Reaches [.constituent id] (.constituent id) := by
    obtain ⟨c, hc, rfl⟩ := Option.map_eq_some_iff.mp ho
    exact .start (List.mem_singleton_self _) (by rw [linked?, hc]; simp)
  induction h with
  | node id => exact .start (List.mem_singleton_self _) hl
  | feature ho hf => exact (hroot ho).step ((mem_linksOf_of_outline? ho).1 _ hf) hl
  | part ho hpart _ ih =>
    refine (ih hl).trans fun l hmem hstored => ?_
    rw [List.mem_singleton.mp hmem] at hstored ⊢
    exact (hroot ho).step ((mem_linksOf_of_outline? ho).2 _ hpart) hstored

/-! ### One more node -/

/-- A merge has both phrases as its parts, and no others. -/
theorem mem_mergeParts_iff {part selector selected : ConstituentId} {isLexical : Bool} :
    part ∈ (s.mergeParts isLexical selector selected).2 ↔ part = selector ∨ part = selected := by
  rw [mergeParts]
  split
  · simp
  · split
    · simp
    · simp [or_comm]

theorem mem_mergeParts (s : Store) (isLexical : Bool) (selector selected : ConstituentId) :
    selector ∈ (s.mergeParts isLexical selector selected).2 ∧
      selected ∈ (s.mergeParts isLexical selector selected).2 :=
  ⟨mem_mergeParts_iff.mpr (Or.inl rfl), mem_mergeParts_iff.mpr (Or.inr rfl)⟩

section pending

variable {pending : PendingMovers} {name : String} {mover : ConstituentId}

/-- A mover that is attracted is one of those that were left to move. -/
theorem get?_of_attracted? (h : s.attracted? id pending = some (name, mover)) :
    pending.get? name = some mover := by
  obtain ⟨probe, -, hif⟩ := Option.bind_eq_some_iff.mp h
  split at hif
  · obtain ⟨m, hm, hif⟩ := Option.bind_eq_some_iff.mp hif
    obtain ⟨rfl, rfl⟩ := Prod.mk.inj (Option.some.inj hif)
    exact hm
  · exact absurd hif (by simp)

/-- What is left to move above a node with one part was left before. -/
theorem get?_of_buildUnary {r : NodeRecord}
    (h : (s.buildUnary r id pending).2.get? name = some mover) :
    pending.get? name = some mover := by
  rw [Store.buildUnary] at h
  split at h
  · exact (Dict.get?_erase_eq_some_iff.mp h).2
  · exact h

/-- What is left to move below a finished node is the node itself or was left before. -/
theorem eq_or_get?_of_finishNode (path : Address)
    (h : (s.finishNode path id pending).2.get? name = some mover) :
    mover = id ∨ pending.get? name = some mover := by
  rw [Store.finishNode, Dict.get?_insertAll] at h
  split at h
  · exact Or.inl (Option.some.inj h).symm
  · exact Or.inr h

end pending

/-- A node with one part brings no features. -/
theorem nextFeature_buildUnary (s : Store) (r : NodeRecord) (part : ConstituentId)
    (pending : PendingMovers) : (s.buildUnary r part pending).1.1.nextFeature = s.nextFeature := by
  rw [Store.buildUnary]
  split
  · exact (s.next_buildMove ..).2.1
  · exact nextFeature_addProjection ..

section node

variable (h : s.Separate s')

include h

theorem Separate.added_of_mem_projected (hid : s.Added s' (.constituent id)) {f : FeatureId}
    (hf : f ∈ s'.projected id) : s.Added s' (.feature f) := by
  rw [projected_eq] at hf
  cases ho : s'.outline? id with
  | none => exact absurd hf (by simp [ho])
  | some o =>
    rw [ho] at hf
    exact h.added_of_mem_features hid ho (List.mem_of_mem_drop hf)

theorem Separate.added_of_active? (hid : s.Added s' (.constituent id)) {f : FeatureId}
    (hf : s'.active? id = some f) : s.Added s' (.feature f) := by
  rw [active?_eq] at hf
  obtain ⟨o, ho, hf⟩ := Option.bind_eq_some_iff.mp hf
  exact h.added_of_mem_features hid ho (List.mem_of_head? hf)

/-- A check between two added nodes is kept apart. -/
theorem Separate.checkActive {selector selected : ConstituentId}
    (hselector : s.Added s' (.constituent selector))
    (hselected : s.Added s' (.constituent selected)) :
    s.Separate (s'.checkActive selector selected) := by
  rw [Store.checkActive]
  split
  · next probe goal hprobe hgoal =>
    exact h.check (h.added_of_active? hselector hprobe) (h.added_of_active? hselected hgoal)
  · exact h

theorem Separate.checkLicensee {mover : ConstituentId} (hid : s.Added s' (.constituent id))
    (hmover : s.Added s' (.constituent mover)) (name : String) :
    s.Separate (s'.checkLicensee id mover name) := by
  rw [Store.checkLicensee]
  split
  · next probe goal hprobe hgoal =>
    obtain ⟨before, after, heq, -⟩ := List.lookup_eq_some_iff.mp hgoal
    obtain ⟨o, ho, hmem⟩ := s'.mem_pendingLicensees mover goal
      (heq ▸ List.mem_append_right _ (List.mem_cons_self ..))
    exact h.check (h.added_of_active? hid hprobe) (h.added_of_mem_features hmover ho hmem)
  · exact h

/-- A projection of an added node with added parts is kept apart. -/
theorem Separate.addProjection {head : ConstituentId} (hhead : s.Added s' (.constituent head))
    {parts : List ConstituentId} (hparts : ∀ part ∈ parts, s.Added s' (.constituent part))
    (label lexKey : String) : s.Separate (s'.addProjection head label parts lexKey).1 ∧
      s.Added (s'.addProjection head label parts lexKey).1 (.constituent ⟨s'.nextConstituent⟩) := by
  have hnode : s.Separate
      (s'.addNode { label, parts, features := s'.projected head, lexKey := some lexKey }).1 := by
    refine h.addNode (Constituent.forall_links_iff.mpr
      ⟨fun f hf => h.added_of_mem_projected hhead hf, hparts, ?_, ?_, ?_, ?_, ?_⟩)
    all_goals exact fun _ hmem => absurd hmem List.not_mem_nil
  have hid := h.added_addNode { label, parts, features := s'.projected head, lexKey := some lexKey }
  refine ⟨hnode.setHead hid fun a ha => ?_, hid.1, ?_⟩
  · rw [List.mem_singleton.mp ha]
    exact hhead.mono (Nat.le_succ _) (Nat.le_refl _)
  · show s'.nextConstituent < _
    rw [nextConstituent_addProjection]
    exact Nat.lt_succ_self _

theorem Separate.buildLeaf (r : NodeRecord) : s.Separate (s'.buildLeaf r).1 ∧
    s.Added (s'.buildLeaf r).1 (.constituent (s'.buildLeaf r).2) := by
  obtain ⟨hleaf, hid⟩ := h.addLeaf (r.label.getD "") r.features
  refine ⟨hleaf.modifyConstituent hid fun c hc => ?_, hid⟩
  have hlinks := hleaf.links_constituent hid hc
  exact hlinks

theorem Separate.buildMerge {selector selected : ConstituentId}
    (hselector : s.Added s' (.constituent selector))
    (hselected : s.Added s' (.constituent selected)) (r : NodeRecord) (isLexical : Bool) :
    s.Separate (s'.buildMerge r isLexical selector selected).1 ∧
      s.Added (s'.buildMerge r isLexical selector selected).1
        (.constituent ⟨s'.nextConstituent⟩) := by
  obtain ⟨hconstituent, hfeature⟩ := s'.next_checkActive selector selected
  have hadded {l : Link} (hl : s.Added s' l) : s.Added (s'.checkActive selector selected) l :=
    hl.mono (Nat.le_of_eq hconstituent.symm) (Nat.le_of_eq hfeature.symm)
  have hparts (part : ConstituentId)
      (hpart : part ∈ (s'.mergeParts isLexical selector selected).2) :
      s.Added (s'.checkActive selector selected) (.constituent part) := by
    rcases mem_mergeParts_iff.mp hpart with rfl | rfl
    · exact hadded hselector
    · exact hadded hselected
  rw [← hconstituent]
  exact (h.checkActive hselector hselected).addProjection (hadded hselector) hparts _ _

theorem Separate.buildMove {part mover : ConstituentId} (hpart : s.Added s' (.constituent part))
    (hmover : s.Added s' (.constituent mover)) (r : NodeRecord) (name : String) :
    s.Separate (s'.buildMove r part mover name).1 ∧
      s.Added (s'.buildMove r part mover name).1 (.constituent ⟨s'.nextConstituent⟩) := by
  obtain ⟨hconstituent, hfeature⟩ := s'.next_checkLicensee part mover name
  have hadded {l : Link} (hl : s.Added s' l) : s.Added (s'.checkLicensee part mover name) l :=
    hl.mono (Nat.le_of_eq hconstituent.symm) (Nat.le_of_eq hfeature.symm)
  have hparts :
      ∀ a ∈ [mover, part], s.Added (s'.checkLicensee part mover name) (.constituent a) := by
    simpa using ⟨hadded hmover, hadded hpart⟩
  obtain ⟨hnode, hid⟩ :=
    (h.checkLicensee hpart hmover name).addProjection (hadded hpart) hparts headRight
    r.lexKey
  rw [hconstituent] at hid
  have hmover' :
      s.Added ((s'.checkLicensee part mover name).addProjection part headRight [mover, part]
        r.lexKey).1 (.constituent mover) := by
    refine (hadded hmover).mono ?_ (Nat.le_of_eq (nextFeature_addProjection ..).symm)
    rw [nextConstituent_addProjection]
    exact Nat.le_succ _
  refine ⟨hnode.modifyConstituent hmover' fun c hc => ?_, hid⟩
  obtain ⟨hfeatures, hparts, hmovers, hhead, hheads, -, hattributes⟩ :=
    Constituent.forall_links_iff.mp (hnode.links_constituent hmover' hc)
  refine Constituent.forall_links_iff.mpr
    ⟨hfeatures, hparts, hmovers, hhead, hheads, fun a ha => ?_, hattributes⟩
  rw [List.mem_singleton.mp ha, hconstituent]
  exact hid

/-- A node on top of an added node, and of a mover that was left to move, is kept apart. -/
theorem Separate.buildUnary {part : ConstituentId} {pending : PendingMovers}
    (hpart : s.Added s' (.constituent part))
    (hpending : ∀ {z m}, pending.get? z = some m → s.Added s' (.constituent m)) (r : NodeRecord) :
    s.Separate (s'.buildUnary r part pending).1.1 ∧
      s.Added (s'.buildUnary r part pending).1.1 (.constituent ⟨s'.nextConstituent⟩) := by
  rw [Store.buildUnary]
  split
  · next name mover heq => exact h.buildMove hpart (hpending (get?_of_attracted? heq)) r name
  · have hparts : ∀ a ∈ [part], s.Added s' (.constituent a) := by simpa using hpart
    exact h.addProjection hpart hparts unary r.lexKey

/-- What is left to move below a finished node has been added as well. -/
theorem Separate.finishNode {pending : PendingMovers} (hid : s.Added s' (.constituent id))
    (hpending : ∀ {z m}, pending.get? z = some m → s.Added s' (.constituent m)) (path : Address) :
    s.Separate (s'.finishNode path id pending).1 ∧
      ∀ {z m}, (s'.finishNode path id pending).2.get? z = some m → s.Added s' (.constituent m) := by
  have hleft {z : String} {m : ConstituentId}
      (hz : (s'.finishNode path id pending).2.get? z = some m) :
      s.Added s' (.constituent m) := by
    rcases eq_or_get?_of_finishNode path hz with rfl | hz
    · exact hid
    · exact hpending hz
  refine ⟨h.modifyConstituent hid fun c hc => ?_, hleft⟩
  obtain ⟨hfeatures, hparts, -, hrest⟩ :=
    Constituent.forall_links_iff.mp (h.links_constituent hid hc)
  refine Constituent.forall_links_iff.mpr ⟨hfeatures, hparts, fun m hm => ?_, hrest⟩
  obtain ⟨z, hz⟩ := Dict.mem_values_iff.mp hm
  exact hleft hz

end node

/-! ### What is kept -/

/-- What there was is kept when something is added apart. -/
theorem Separate.keeps (h : s.Separate s') (hs : s.IsNumbered) : s.Keeps s' := by
  refine .of_outline? fun id o ho => ?_
  obtain ⟨c, hc, rfl⟩ := Option.map_eq_some_iff.mp ho
  have hissued : s.Issued (.constituent id) := hs.issued (by rw [linked?, hc]; simp)
  rw [outline?, constituent?_of_linked? (h.old hissued), hc]
  rfl

theorem IsNumbered.ne_next (hs : s.IsNumbered) (ho : s.outline? id = some o) :
    id ≠ ⟨s.nextConstituent⟩ := by
  obtain ⟨c, hc, rfl⟩ := Option.map_eq_some_iff.mp ho
  have hissued : s.Issued (.constituent id) := hs.issued (by rw [linked?, hc]; simp)
  exact ne_next_of_lt hissued

theorem keeps_buildUnary (hs : s.IsNumbered) (r : NodeRecord) (part : ConstituentId)
    (pending : PendingMovers) : s.Keeps (s.buildUnary r part pending).1.1 := by
  refine ⟨fun {id o} ho => ?_⟩
  have hne := hs.ne_next ho
  rw [Store.buildUnary]
  split
  · next name mover _ =>
    simp only [outline?_buildMove, if_neg hne, ho, Option.map_some]
    split
    · exact ⟨_, rfl⟩
    · exact ⟨o.landing, rfl⟩
  · simp only [outline?_addProjection, if_neg hne, ho]
    exact ⟨o.landing, rfl⟩

theorem keeps_buildMerge (hs : s.IsNumbered) (r : NodeRecord) (isLexical : Bool)
    (selector selected : ConstituentId) :
    s.Keeps (s.buildMerge r isLexical selector selected).1 := by
  refine .of_outline? fun id o ho => ?_
  rw [outline?_buildMerge, if_neg (hs.ne_next ho), ho]

theorem keeps_finishNode (s : Store) (path : Address) (id : ConstituentId)
    (pending : PendingMovers) : s.Keeps (s.finishNode path id pending).1 := by
  refine .of_outline? fun id' o ho => ?_
  rw [outline?_finishNode, ho]

/-- What is added with one more node is the node, or was added before. -/
theorem Added.cases_succ (h : s.Added s'' l)
    (hconstituent : s''.nextConstituent = s'.nextConstituent + 1)
    (hfeature : s''.nextFeature = s'.nextFeature) :
    l = .constituent ⟨s'.nextConstituent⟩ ∨ s.Added s' l := by
  obtain ⟨hnew, hissued⟩ := h
  cases l with
  | constituent id =>
    rw [Issued, hconstituent] at hissued
    rcases Nat.lt_succ_iff_lt_or_eq.mp hissued with hlt | heq
    · exact Or.inr ⟨hnew, hlt⟩
    · exact Or.inl (congrArg Link.constituent (congrArg Ident.mk heq))
  | feature id =>
    rw [Issued, hfeature] at hissued
    exact Or.inr ⟨hnew, hissued⟩

/-! ### A new leaf -/

theorem outline?_addLeaf (s : Store) (label : String) (features : List Feature)
    (id : ConstituentId) :
    (s.addLeaf label features).1.outline? id = if id = ⟨s.nextConstituent⟩ then
      some ⟨label, [], ((s.addNode { label }).1.addFeatures ⟨s.nextConstituent⟩ features).2, none⟩
    else s.outline? id := by
  have hnodes := ((s.addNode { label }).1.addFeatures_spec ⟨s.nextConstituent⟩ features).2.2.2.2.2
  have heq : (s.addLeaf label features).1 =
      ((s.addNode { label }).1.addFeatures ⟨s.nextConstituent⟩ features).1.modifyConstituent
        ⟨s.nextConstituent⟩ fun c => { c with
          features := ((s.addNode { label }).1.addFeatures ⟨s.nextConstituent⟩ features).2
          lexicalHeads := [⟨s.nextConstituent⟩] } := rfl
  rw [heq, outline?, constituent?_modifyConstituent, hnodes, constituent?_addNode]
  split <;> rfl

/-- A leaf for a record has no parts, and it has new occurrences of the features of the record. -/
theorem outline?_buildLeaf (s : Store) (r : NodeRecord) :
    (s.buildLeaf r).1.outline? ⟨s.nextConstituent⟩ =
      some ⟨r.label.getD "", [],
        ((s.addNode { label := r.label.getD "" }).1.addFeatures ⟨s.nextConstituent⟩ r.features).2,
        none⟩ := by
  have hleaf := s.outline?_addLeaf (r.label.getD "") r.features ⟨s.nextConstituent⟩
  rw [if_pos rfl] at hleaf
  exact (outline?_modifyConstituent (s.addLeaf (r.label.getD "") r.features).1 _ _
    (by exact fun _ => rfl)).trans hleaf

/-- What is added with a leaf is part of it. -/
theorem hangs_buildLeaf (r : NodeRecord) (hl : s.Added (s.buildLeaf r).1 l) :
    (s.buildLeaf r).1.Hangs (s.buildLeaf r).2 l := by
  cases l with
  | constituent id =>
    obtain ⟨-, -, -, -, -, -, hnext, hid⟩ := s.buildLeaf_spec r
    obtain ⟨hnew, hissued⟩ := hl
    rw [Issued, hnext] at hissued
    have heq : id = (s.buildLeaf r).2 := by
      rw [hid]
      exact congrArg Ident.mk (Nat.le_antisymm (Nat.le_of_lt_succ hissued) (Nat.not_lt.mp hnew))
    rw [heq]
    exact .node _
  | feature fid =>
    exact .feature (s.outline?_buildLeaf r)
      ((mem_addFeatures_iff ..).mpr ⟨Nat.not_lt.mp hl.1, hl.2⟩)

/-! ### Building a tree -/

/-- A tree has been built apart from everything else, and all that was added is part of it. -/
structure StandsAlone (s s' : Store) (b : BuiltNode) : Prop where
  separate : s.Separate s'
  root : s.Added s' (.constituent b.id)
  pending {z : String} {m : ConstituentId} : b.pending.get? z = some m → s.Added s' (.constituent m)
  nodes {x : Address × ConstituentId} : x ∈ b.nodes → s.Added s' (.constituent x.2)
  hangs {l : Link} : s.Added s' l → s'.Hangs b.id l

/-- A leaf stands alone. -/
theorem standsAlone_leaf (hs : s.IsNumbered) (path : Address) (r : NodeRecord) :
    s.StandsAlone (s.build path (.leaf r)).1 (s.build path (.leaf r)).2 := by
  obtain ⟨hleaf, hid⟩ := (Separate.refl hs).buildLeaf r
  obtain ⟨hfinish, hpending⟩ := hleaf.finishNode hid
    (fun {z m} (hz : (∅ : PendingMovers).get? z = some m) => absurd hz (by simp)) path
  rw [build_leaf]
  refine ⟨hfinish, hid, hpending, fun hx => ?_, fun hl => ?_⟩
  · rw [List.mem_singleton.mp hx]
    exact hid
  · exact (hangs_buildLeaf r hl).mono (keeps_finishNode ..)

/-- A node on top of a tree that stands alone, or of the tree and a part of it, stands alone. -/
theorem standsAlone_unary (path : Address) (r : NodeRecord) (side : Branch) (part : RecordTree)
    (h : s.StandsAlone (s.build (path.child side) part).1 (s.build (path.child side) part).2) :
    s.StandsAlone (s.build path (.unary r side part)).1 (s.build path (.unary r side part)).2 := by
  simp only [build_unary]
  generalize s.build (path.child side) part = t at h
  obtain ⟨hconstituent, hid⟩ := t.1.next_buildUnary r t.2.id t.2.pending
  have hfeature := t.1.nextFeature_buildUnary r t.2.id t.2.pending
  obtain ⟨hunary, hroot⟩ := h.separate.buildUnary h.root h.pending r
  rw [← hid] at hroot
  have hadded {l : Link} (hl : s.Added t.1 l) :
      s.Added (t.1.buildUnary r t.2.id t.2.pending).1.1 l :=
    hl.mono (by rw [hconstituent]; exact Nat.le_succ _) (Nat.le_of_eq hfeature.symm)
  obtain ⟨hfinish, hpending⟩ := hunary.finishNode hroot
    (fun hz => hadded (h.pending (get?_of_buildUnary hz))) path
  refine ⟨hfinish, hroot, hpending, fun hx => ?_, fun {l} hl => ?_⟩
  · rcases List.mem_cons.mp hx with rfl | hx
    · exact hroot
    · exact hadded (h.nodes hx)
  · have hhangs : (t.1.buildUnary r t.2.id t.2.pending).1.1.Hangs
        (t.1.buildUnary r t.2.id t.2.pending).1.2 l := by
      rcases Added.cases_succ hl hconstituent hfeature with rfl | hl
      · rw [hid]
        exact .node _
      · -- the part is the last part of the node, whether a mover lands there or not
        obtain ⟨o, ho, hparts⟩ : ∃ o, (t.1.buildUnary r t.2.id t.2.pending).1.1.outline?
            (t.1.buildUnary r t.2.id t.2.pending).1.2 = some o ∧ t.2.id ∈ o.parts := by
          have hbody := t.1.body?_buildUnary r (t.1.buildUnary r t.2.id t.2.pending).1.2 t.2.id
            t.2.pending
          rw [if_pos hid] at hbody
          obtain ⟨o, ho, hpair⟩ := Option.map_eq_some_iff.mp hbody
          refine ⟨o, ho, ?_⟩
          rw [show o.parts = _ from congrArg Prod.snd hpair]
          cases t.1.attracted? t.2.id t.2.pending with
          | none => exact List.mem_singleton_self _
          | some x => exact List.mem_cons_of_mem _ (List.mem_singleton_self _)
        exact .part ho hparts
          ((h.hangs hl).mono (keeps_buildUnary h.separate.toIsNumbered r t.2.id t.2.pending))
    exact hhangs.mono (keeps_finishNode ..)

/-- A merge of two trees that stand alone stands alone. -/
theorem standsAlone_binary (path : Address) (r : NodeRecord) (left right : RecordTree)
    (h₁ : s.StandsAlone (s.build path.left left).1 (s.build path.left left).2)
    (h₂ : (s.build path.left left).1.StandsAlone
      ((s.build path.left left).1.build path.right right).1
      ((s.build path.left left).1.build path.right right).2) :
    s.StandsAlone (s.build path (.binary r left right)).1
      (s.build path (.binary r left right)).2 := by
  simp only [build_binary]
  generalize s.build path.left left = t at h₁ h₂
  generalize t.1.build path.right right = u at h₂
  generalize left.record.isLexical = isLexical
  obtain ⟨hconstituent, hfeature, hid⟩ := u.1.next_buildMerge r isLexical t.2.id u.2.id
  have hboth := h₁.separate.trans h₂.separate
  have hleft {l : Link} (hl : s.Added t.1 l) : s.Added u.1 l := hl.left h₂.separate
  have hright {l : Link} (hl : t.1.Added u.1 l) : s.Added u.1 l := hl.right h₁.separate
  obtain ⟨hmerge, hroot⟩ := hboth.buildMerge (hleft h₁.root) (hright h₂.root) r isLexical
  rw [← hid] at hroot
  have hadded {l : Link} (hl : s.Added u.1 l) :
      s.Added (u.1.buildMerge r isLexical t.2.id u.2.id).1 l :=
    hl.mono (by rw [hconstituent]; exact Nat.le_succ _) (Nat.le_of_eq hfeature.symm)
  -- what waits has been filed for one of the two parts
  obtain ⟨hfinish, hpending⟩ := hmerge.finishNode hroot (fun {z m} hz => by
    rw [Dict.get?_unite] at hz
    rcases Option.or_eq_some_iff.mp hz with hz | ⟨-, hz⟩
    · exact hadded (hleft (h₁.pending hz))
    · exact hadded (hright (h₂.pending hz))) path
  refine ⟨hfinish, hroot, hpending, fun hx => ?_, fun {l} hl => ?_⟩
  · rcases List.mem_cons.mp hx with rfl | hx
    · exact hroot
    · rcases List.mem_append.mp hx with hx | hx
      · exact hadded (hleft (h₁.nodes hx))
      · exact hadded (hright (h₂.nodes hx))
  · have hkeeps := keeps_buildMerge hboth.toIsNumbered r isLexical t.2.id u.2.id
    have hhangs : (u.1.buildMerge r isLexical t.2.id u.2.id).1.Hangs
        (u.1.buildMerge r isLexical t.2.id u.2.id).2 l := by
      have ho :=
        u.1.outline?_buildMerge r (u.1.buildMerge r isLexical t.2.id u.2.id).2 isLexical t.2.id
        u.2.id
      rw [if_pos hid] at ho
      obtain ⟨hmem₁, hmem₂⟩ := u.1.mem_mergeParts isLexical t.2.id u.2.id
      rcases Added.cases_succ hl hconstituent hfeature with rfl | hl
      · rw [hid]
        exact .node _
      -- what was there when the second part was begun hangs below the first one
      · by_cases hissued : t.1.Issued l
        · exact .part ho hmem₁ (((h₁.hangs ⟨hl.1, hissued⟩).mono
            (h₂.separate.keeps h₁.separate.toIsNumbered)).mono hkeeps)
        · exact .part ho hmem₂ ((h₂.hangs ⟨hissued, hl.2⟩).mono hkeeps)
    exact hhangs.mono (keeps_finishNode ..)

/-- The tree of a derivation stands alone. -/
theorem standsAlone_build (hs : s.IsNumbered) (path : Address) (tree : RecordTree) :
    s.StandsAlone (s.build path tree).1 (s.build path tree).2 := by
  induction tree generalizing s path with
  | leaf r => exact standsAlone_leaf hs path r
  | unary r side part ih => exact standsAlone_unary path r side part (ih hs _)
  | binary r left right ih₁ ih₂ =>
    have h₁ := ih₁ hs path.left
    exact standsAlone_binary path r left right h₁ (ih₂ h₁.separate.toIsNumbered _)

/-! ### Groups -/

/-- The groups are as they were. -/
structure SameGroups (s s' : Store) : Prop where
  groups : s'.groups = s.groups
  nextGroup : s'.nextGroup = s.nextGroup

namespace SameGroups

theorem refl (s : Store) : s.SameGroups s := ⟨rfl, rfl⟩

theorem trans (h : s.SameGroups s') (h' : s'.SameGroups s'') : s.SameGroups s'' :=
  ⟨h'.groups.trans h.groups, h'.nextGroup.trans h.nextGroup⟩

theorem group? (h : s.SameGroups s') (g : GroupId) : s'.group? g = s.group? g := by
  rw [Store.group?, h.groups, Store.group?]

theorem addFeatures (s : Store) (host : ConstituentId) (features : List Feature) :
    s.SameGroups (s.addFeatures host features).1 := by
  induction features generalizing s with
  | nil => exact .refl s
  | cons f features ih =>
    have hadd : s.SameGroups (s.addFeature f (some host)).1 := ⟨rfl, rfl⟩
    exact hadd.trans (ih _)

theorem check (s : Store) (probe goal : FeatureId) : s.SameGroups (s.check probe goal) := by
  rw [Store.check]
  split
  · exact ⟨rfl, rfl⟩
  · exact .refl s

theorem setHead (s : Store) (id : ConstituentId) (head : Head) :
    s.SameGroups (s.setHead id head) := by
  rw [Store.setHead, updateLexicalHeads]
  split
  · exact ⟨rfl, rfl⟩
  · exact ⟨rfl, rfl⟩

theorem addProjection (s : Store) (head : ConstituentId) (label : String)
    (parts : List ConstituentId) (lexKey : String) :
    s.SameGroups (s.addProjection head label parts lexKey).1 := by
  have hnode (c : Constituent) : s.SameGroups (s.addNode c).1 := ⟨rfl, rfl⟩
  exact (hnode _).trans (setHead ..)

theorem buildLeaf (s : Store) (r : NodeRecord) : s.SameGroups (s.buildLeaf r).1 := by
  have hnode : s.SameGroups (s.addNode { label := r.label.getD "" }).1 := ⟨rfl, rfl⟩
  have hfeatures := hnode.trans (addFeatures _ ⟨s.nextConstituent⟩ r.features)
  exact ⟨hfeatures.groups, hfeatures.nextGroup⟩

theorem buildUnary (s : Store) (r : NodeRecord) (part : ConstituentId) (pending : PendingMovers) :
    s.SameGroups (s.buildUnary r part pending).1.1 := by
  rw [Store.buildUnary]
  split
  · next name mover _ =>
    have hcheck : s.SameGroups (s.checkLicensee part mover name) := by
      rw [checkLicensee]
      split
      · exact check ..
      · exact .refl s
    have hnode := hcheck.trans (addProjection _ part headRight [mover, part] r.lexKey)
    exact ⟨hnode.groups, hnode.nextGroup⟩
  · exact addProjection ..

theorem buildMerge (s : Store) (r : NodeRecord) (isLexical : Bool)
    (selector selected : ConstituentId) :
    s.SameGroups (s.buildMerge r isLexical selector selected).1 := by
  have hcheck : s.SameGroups (s.checkActive selector selected) := by
    rw [checkActive]
    split
    · exact check ..
    · exact .refl s
  exact hcheck.trans (addProjection ..)

theorem finishNode (s : Store) (path : Address) (id : ConstituentId) (pending : PendingMovers) :
    s.SameGroups (s.finishNode path id pending).1 := ⟨rfl, rfl⟩

/-- Building a tree makes no groups. -/
theorem build (s : Store) (path : Address) (tree : RecordTree) :
    s.SameGroups (s.build path tree).1 := by
  induction tree generalizing s path with
  | leaf r => exact (buildLeaf s r).trans (finishNode ..)
  | unary r side part ih =>
    simp only [build_unary]
    exact ((ih s _).trans (buildUnary ..)).trans (finishNode ..)
  | binary r left right ih₁ ih₂ =>
    simp only [build_binary]
    exact (((ih₁ s _).trans (ih₂ _ _)).trans (buildMerge ..)).trans (finishNode ..)

end SameGroups

end Store
end MinimalistGrammar
