import MinimalistGrammar.Proofs.Beam.Reading
import MinimalistGrammar.Proofs.Tree.Spelling

/-!
# How a tree grows

Every node of a derivation adds one node to the store, in the order in which the nodes are numbered,
and no node ever gets other parts. So what hangs below what is settled node by node.

## Main definitions

* `Store.Grows` — the nodes of a tree have been added.
* `Store.Follows` — the nodes of a tree hang together as the derivation says.

## Main results

* `Store.grows_build` — building a tree adds its nodes.
* `Store.follows_congr` — whether a tree follows a derivation is decided by its own nodes.
-/

namespace MinimalistGrammar
namespace Store

/-- The label and the parts of a node. -/
def body? (s : Store) (id : ConstituentId) : Option (String × List ConstituentId) :=
  (s.outline? id).map fun o => (o.label, o.parts)

/-- Some nodes have been added, the last one of them the root of a tree. -/
structure Grows (s s' : Store) (root : ConstituentId) (size : Nat) : Prop where
  next : s'.nextConstituent = s.nextConstituent + size
  root : root.index + 1 = s'.nextConstituent
  body? {id : ConstituentId} : id.index < s.nextConstituent → s'.body? id = s.body? id

/-! ### One more node -/

section node

variable (s : Store) (r : NodeRecord) (id : ConstituentId)

theorem body?_congr {s s' : Store} (h : s'.outline? id = s.outline? id) :
    s'.body? id = s.body? id := by
  rw [body?, h, body?]

theorem ne_next_of_lt {s : Store} {id : ConstituentId} (h : id.index < s.nextConstituent) :
    id ≠ ⟨s.nextConstituent⟩ := by
  rintro rfl
  exact Nat.lt_irrefl _ h

section merge

variable (isLexical : Bool) (selector selected : ConstituentId)

theorem outline?_buildMerge : (s.buildMerge r isLexical selector selected).1.outline? id =
    if id = ⟨s.nextConstituent⟩ then
      some ⟨(s.mergeParts isLexical selector selected).1,
        (s.mergeParts isLexical selector selected).2, s.projected selector, none⟩
    else s.outline? id := by
  rw [buildMerge, outline?_addProjection, (s.next_checkActive selector selected).1,
    outline?_checkActive, projected_eq, outline?_checkActive, ← projected_eq]

theorem next_buildMerge :
    (s.buildMerge r isLexical selector selected).1.nextConstituent = s.nextConstituent + 1 ∧
      (s.buildMerge r isLexical selector selected).1.nextFeature = s.nextFeature ∧
      (s.buildMerge r isLexical selector selected).2 = ⟨s.nextConstituent⟩ := by
  rw [buildMerge, nextConstituent_addProjection, nextFeature_addProjection, snd_addProjection,
    (s.next_checkActive selector selected).1, (s.next_checkActive selector selected).2]
  exact ⟨rfl, rfl, rfl⟩

/-- A merge checks a feature of the phrase that is taken, and none else. -/
theorem open?_buildMerge {fid : FeatureId}
    (h : ∀ o, s.outline? selected = some o → fid ∉ o.features) :
    (s.buildMerge r isLexical selector selected).1.open? fid = s.open? fid := by
  rw [buildMerge, open?_addProjection, open?_checkActive _ _ _ _ h]

end merge

section move

variable (part mover : ConstituentId) (name : String)

theorem outline?_buildMove : (s.buildMove r part mover name).1.outline? id =
    (if id = ⟨s.nextConstituent⟩ then some ⟨headRight, [mover, part], s.projected part, none⟩
      else s.outline? id).map fun o =>
        if id = mover then { o with landing := some ⟨s.nextConstituent⟩ } else o := by
  have hnode : ((s.checkLicensee part mover name).addProjection part headRight [mover, part]
      r.lexKey).1.outline? id =
        if id = ⟨s.nextConstituent⟩ then some ⟨headRight, [mover, part], s.projected part, none⟩
        else s.outline? id := by
    rw [outline?_addProjection, (s.next_checkLicensee part mover name).1, outline?_checkLicensee,
      projected_eq, outline?_checkLicensee, ← projected_eq]
  rw [buildMove, ← hnode, outline?, constituent?_modifyConstituent, snd_addProjection,
    (s.next_checkLicensee part mover name).1, outline?]
  split
  · rw [Option.map_map, Option.map_map]
    rfl
  · rw [Option.map_map]
    rfl

/-- A movement adds a node, and the mover has landed there. -/
theorem outline?_buildMove_eq {om : Outline} (hom : s.outline? mover = some om)
    (hmover : mover.index < s.nextConstituent) : (s.buildMove r part mover name).1.outline? id =
      if id = ⟨s.nextConstituent⟩ then some ⟨headRight, [mover, part], s.projected part, none⟩
      else if id = mover then some { om with landing := some ⟨s.nextConstituent⟩ }
      else s.outline? id := by
  rw [outline?_buildMove]
  by_cases hnew : id = ⟨s.nextConstituent⟩
  · have hne : id ≠ mover := hnew ▸ (ne_next_of_lt hmover).symm
    simp only [if_pos hnew, if_neg hne, Option.map_some]
  · by_cases hid : id = mover
    · subst hid
      simp only [if_neg hnew, if_true, hom, Option.map_some]
    · simp only [if_neg hnew, if_neg hid, Option.map_id']

theorem next_buildMove : (s.buildMove r part mover name).1.nextConstituent = s.nextConstituent + 1 ∧
    (s.buildMove r part mover name).1.nextFeature = s.nextFeature ∧
    (s.buildMove r part mover name).2 = ⟨s.nextConstituent⟩ := by
  refine ⟨?_, ?_, ?_⟩
  · exact (nextConstituent_addProjection ..).trans
      (congrArg (· + 1) (s.next_checkLicensee part mover name).1)
  · exact (nextFeature_addProjection ..).trans (s.next_checkLicensee part mover name).2
  · exact congrArg Ident.mk (s.next_checkLicensee part mover name).1

/-- A movement checks a feature of the mover, and none else. -/
theorem open?_buildMove {fid : FeatureId} (h : ∀ o, s.outline? mover = some o → fid ∉ o.features) :
    (s.buildMove r part mover name).1.open? fid = s.open? fid :=
  (open?_addProjection ..).trans (open?_checkLicensee _ _ _ _ _ h)

theorem body?_buildMove : (s.buildMove r part mover name).1.body? id =
    if id = ⟨s.nextConstituent⟩ then some (headRight, [mover, part]) else s.body? id := by
  -- the landing is no part of the body
  have hbody : ((fun o : Outline => (o.label, o.parts)) ∘ fun o =>
      if id = mover then { o with landing := some ⟨s.nextConstituent⟩ } else o) =
      fun o => (o.label, o.parts) := by
    funext o
    rw [Function.comp_apply]
    split <;> rfl
  rw [body?, outline?_buildMove, Option.map_map, hbody, body?]
  split <;> rfl

end move

/-- A node with one part, or with the part and a mover. -/
theorem body?_buildUnary (part : ConstituentId) (pending : PendingMovers) :
    (s.buildUnary r part pending).1.1.body? id =
      if id = ⟨s.nextConstituent⟩ then some
        ((s.attracted? part pending).elim (unary, [part]) fun x => (headRight, [x.2, part]))
      else s.body? id := by
  rw [buildUnary]
  split
  · next name mover heq =>
    rw [heq]
    exact body?_buildMove ..
  · next heq =>
    rw [heq, body?]
    simp only [outline?_addProjection]
    split <;> rfl

theorem next_buildUnary (part : ConstituentId) (pending : PendingMovers) :
    (s.buildUnary r part pending).1.1.nextConstituent = s.nextConstituent + 1 ∧
      (s.buildUnary r part pending).1.2 = ⟨s.nextConstituent⟩ := by
  rw [buildUnary]
  split
  · next name mover _ =>
    obtain ⟨hnext, -, hid⟩ := s.next_buildMove r part mover name
    exact ⟨hnext, hid⟩
  · exact ⟨nextConstituent_addProjection .., snd_addProjection ..⟩

end node

/-! ### The order of building -/

section build

variable (s : Store) (path : Address) (r : NodeRecord)

theorem build_leaf : s.build path (.leaf r) =
    (((s.buildLeaf r).1.finishNode path (s.buildLeaf r).2 ∅).1,
      { id := (s.buildLeaf r).2
        pending := ((s.buildLeaf r).1.finishNode path (s.buildLeaf r).2 ∅).2
        nodes := [(path, (s.buildLeaf r).2)] }) := rfl

theorem build_unary (side : Branch) (part : RecordTree) : s.build path (.unary r side part) =
    let t := s.build (path.child side) part
    let u := t.1.buildUnary r t.2.id t.2.pending
    let f := u.1.1.finishNode path u.1.2 u.2
    (f.1, { id := u.1.2, pending := f.2, nodes := (path, u.1.2) :: t.2.nodes }) := rfl

theorem build_binary (left right : RecordTree) : s.build path (.binary r left right) =
    let t := s.build path.left left
    let u := t.1.build path.right right
    let m := u.1.buildMerge r left.record.isLexical t.2.id u.2.id
    let f := m.1.finishNode path m.2 (t.2.pending.unite u.2.pending)
    (f.1, { id := m.2, pending := f.2, nodes := (path, m.2) :: (t.2.nodes ++ u.2.nodes) }) := rfl

end build

/-- A store with a new node on top of a tree has one more node. -/
theorem Grows.succ {s s₁ s' : Store} {root root' : ConstituentId} {n : Nat} (h : s.Grows s₁ root n)
    (hnext : s'.nextConstituent = s₁.nextConstituent + 1) (hroot : root' = ⟨s₁.nextConstituent⟩)
    (hbody : ∀ id, id ≠ ⟨s₁.nextConstituent⟩ → s'.body? id = s₁.body? id) :
    s.Grows s' root' (n + 1) where
  next := by rw [hnext, h.next, Nat.add_assoc]
  root := by rw [hroot, hnext]
  body? {id} hid := by
    have hlt : id.index < s₁.nextConstituent := by
      rw [h.next]
      exact Nat.lt_add_right n hid
    rw [hbody id (ne_next_of_lt hlt), h.body? hid]

/-- Two trees are built one after the other. -/
theorem Grows.trans {s s₁ s₂ : Store} {root root' : ConstituentId} {m n : Nat}
    (h : s.Grows s₁ root m) (h' : s₁.Grows s₂ root' n) : s.Grows s₂ root' (m + n) where
  next := by rw [h'.next, h.next, Nat.add_assoc]
  root := h'.root
  body? {id} hid := by
    have hlt : id.index < s₁.nextConstituent := by
      rw [h.next]
      exact Nat.lt_add_right m hid
    rw [h'.body? hlt, h.body? hid]

/-- Building a tree adds its nodes. -/
theorem grows_build (s : Store) (path : Address) (tree : RecordTree) :
    s.Grows (s.build path tree).1 (s.build path tree).2.id tree.size := by
  induction tree generalizing s path with
  | leaf r =>
    obtain ⟨ids, houtline, -, -, -, -, hnext, hid⟩ := s.buildLeaf_spec r
    rw [build_leaf, hid]
    refine ⟨hnext, hnext.symm, fun {id} hlt => body?_congr id ?_⟩
    rw [outline?_finishNode, houtline, if_neg (ne_next_of_lt hlt)]
  | unary r side part ih =>
    simp only [build_unary]
    have h := ih s (path.child side)
    generalize s.build (path.child side) part = t at h
    obtain ⟨hnext, hid⟩ := t.1.next_buildUnary r t.2.id t.2.pending
    refine h.succ hnext hid fun id hne => ?_
    rw [body?_congr id (outline?_finishNode ..), body?_buildUnary, if_neg hne]
  | binary r left right ih₁ ih₂ =>
    simp only [build_binary]
    have h₁ := ih₁ s path.left
    generalize s.build path.left left = t at h₁
    have h₂ := ih₂ t.1 path.right
    generalize t.1.build path.right right = u at h₂
    obtain ⟨hnext, -, hid⟩ := u.1.next_buildMerge r left.record.isLexical t.2.id u.2.id
    refine (h₁.trans h₂).succ hnext hid fun id hne => body?_congr id ?_
    simp only [outline?_finishNode, outline?_buildMerge, if_neg hne]

/-! ### Following a derivation -/

/-- The nodes of a tree, from the number `base` on, hang together as the derivation says: a leaf has
its word, a merge has the two phrases as its parts, and the mover hangs on the left where it is
attracted. -/
def Follows (s : Store) (lex : Lexicon) : Nat → Derivation → Prop
  | base, .word leaf => ∃ w, lex.word? leaf = some w ∧ s.body? ⟨base⟩ = some (w, [])
  | base, .move part => s.Follows lex base part ∧
    ∃ x m node, part.attracted? lex = some (x, m) ∧ (part.waiting lex).get? x = some node ∧
      s.body? ⟨base + part.size⟩ =
        some (headRight, [⟨base + node⟩, ⟨base + (part.size - 1)⟩])
  | base, .merge selector selected => s.Follows lex base selector ∧
    s.Follows lex (base + selector.size) selected ∧
    ∃ label parts, s.body? ⟨base + (selector.size + selected.size)⟩ = some (label, parts) ∧
      parts.Perm [⟨base + (selector.size - 1)⟩, ⟨base + (selector.size + (selected.size - 1))⟩]

/-- Whether a tree follows a derivation is decided by its own nodes. -/
theorem follows_congr {s s' : Store} {lex : Lexicon} {base : Nat} {d : Derivation}
    (h : ∀ n < d.size, s'.body? ⟨base + n⟩ = s.body? ⟨base + n⟩) :
    s'.Follows lex base d ↔ s.Follows lex base d := by
  induction d generalizing base with
  | word leaf =>
    rw [Follows, Follows, show (⟨base⟩ : ConstituentId) = ⟨base + 0⟩ from rfl, h 0 Nat.one_pos]
  | move part ih =>
    rw [Follows, Follows, ih fun n hn => h n (Nat.lt_succ_of_lt hn),
      h part.size (Nat.lt_succ_self _)]
  | merge selector selected ih₁ ih₂ =>
    rw [Follows, Follows, ih₁ fun n hn => h n (by rw [Derivation.size]; omega),
      ih₂ fun n hn => ?_, h (selector.size + selected.size) (Nat.lt_succ_self _)]
    rw [Nat.add_assoc]
    exact h (selector.size + n) (by rw [Derivation.size]; omega)

end Store
end MinimalistGrammar
