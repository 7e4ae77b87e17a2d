import MinimalistGrammar.Proofs.Tree.Accounting

/-!
# Features that are lost

Where a licensor does not find the mover that waits for it, the licensee for which this mover waits
is lost: nothing has checked it, it is not left at the root, and nothing that is filed under its
name has it. From then on no step of building can find it again. So the rebuilt tree of a derivation
in which a licensor finds anything else has a feature that is never checked.

## Main definitions

* `Store.Lost` — a feature that no step of building can find again.

## Main results

* `Store.Lost.buildUnary`, `Store.Lost.buildMerge` — what is lost stays lost.
* `Store.exists_lost` — a derivation that is not faithful loses a feature.
-/

namespace MinimalistGrammar
namespace Store

/-- A feature that was added on top of `s` has not been spent, it is not left at the root of the
tree, and none of the nodes that are filed has it as a licensee of the name under which they are. -/
structure Lost (s s' : Store) (b : BuiltNode) (fid : FeatureId) : Prop where
  added : s.Added s' (.feature fid)
  unspent : ¬s'.IsSpent fid
  notMem : fid ∉ s'.featuresAt b.id
  unfiled {z : String} {m : ConstituentId} :
    b.pending.get? z = some m → (z, fid) ∉ s'.pendingLicensees m

variable {lex : Lexicon} {s s₁ s₂ u t : Store} {b b₁ b₂ : BuiltNode} {d part : Derivation}
  {p q : Phrase} {root o : Outline} {id m : ConstituentId} {fid : FeatureId} {z : String}
  {probes goals : List FeatureId} {pending : PendingMovers} {tree : RecordTree} {path : Address}
  {r : NodeRecord}

/-! ### Losing a feature -/

/-- Where a mover waits and something else is filed under its name, the licensee for which it waits
is lost. -/
theorem exists_lost_of_filed_ne (hlex : lex.WellFormed) (hb : HasBuilt lex s s₁ b d p root)
    (h : Spends lex s s₁ d p root) (hp : d.phrase? lex = some p) (hd : d.isFaithful lex = true)
    {n : Nat} (hn : (d.waiting lex).get? z = some n) (hne : (d.filed lex).get? z ≠ some n) :
    ∃ fid, Lost s s₁ b fid := by
  obtain ⟨m, hm, hawaits⟩ := Derivation.exists_awaits hp hn
  obtain ⟨ids, hids⟩ := hb.exists_carries hawaits
  have hleaves := h.leaves hids
  obtain ⟨fid, rest, g, hunchecked, hvalue, hsign, hname⟩ := hleaves.exists_unchecked hlex hp hm
  obtain ⟨hmem, hfree⟩ :=
    List.mem_filter.mp (hunchecked ▸ List.mem_cons_self .. : fid ∈ s₁.unchecked ids)
  obtain ⟨hadded, hnotMem⟩ := hids.added hb hmem
  refine ⟨fid, hadded, ?_, ?_, fun {y node} hfiled hpending => ?_⟩
  · rintro (hchecks | hchecker | ⟨f, hf, hadjunct⟩)
    · exact hchecks (hleaves.checks? hmem)
    · rw [Option.isNone_iff_eq_none] at hfree
      exact hchecker hfree
    · obtain rfl := Option.some.inj (hvalue.symm.trans hf)
      exact absurd (hsign.symm.trans hadjunct) (by decide)
  · rwa [featuresAt_eq hb.outline]
  · -- what is filed under the name is the root or another mover
    obtain ⟨hat, -, f, hf, -, rfl⟩ := mem_pendingLicensees_iff.mp hpending
    obtain rfl := Option.some.inj (hvalue.symm.trans hf)
    rw [hname, hb.pending] at hfiled
    obtain ⟨k, hk, rfl⟩ := Option.map_eq_some_iff.mp hfiled
    rcases Derivation.filed_cases hlex hp hd hk with ⟨rfl, -⟩ | ⟨m', hm', -⟩
    · rw [← hb.id_eq, featuresAt_eq hb.outline] at hat
      exact hnotMem hat
    · obtain ⟨ids', hids'⟩ := hb.exists_carries hm'
      obtain ⟨-, o, ho, rfl⟩ := id hids'
      rw [featuresAt_eq ho] at hat
      refine h.different hids hids' ?_ hmem hat
      rintro rfl
      exact hne hk

/-! ### Lost for good -/

/-- A merge leaves the features at all nodes, and the new node has those of the selector but for the
first. -/
theorem featuresAt_buildMerge (s : Store) (r : NodeRecord) (isLexical : Bool)
    (selector selected id : ConstituentId) :
    (s.buildMerge r isLexical selector selected).1.featuresAt id =
      if id = ⟨s.nextConstituent⟩ then s.projected selector else s.featuresAt id := by
  rw [featuresAt, outline?_buildMerge]
  split <;> rfl

/-- So does a node with one part. -/
theorem featuresAt_buildUnary (s : Store) (r : NodeRecord) (part : ConstituentId)
    (pending : PendingMovers) (id : ConstituentId) :
    (s.buildUnary r part pending).1.1.featuresAt id =
      if id = ⟨s.nextConstituent⟩ then s.projected part else s.featuresAt id := by
  rw [buildUnary]
  split
  · next name mover _ =>
    have hlanding (o : Outline) :
        (if id = mover then { o with landing := some ⟨s.nextConstituent⟩ } else o).features =
          o.features := by
      split <;> rfl
    rw [featuresAt, outline?_buildMove]
    by_cases hid : id = ⟨s.nextConstituent⟩
    · rw [if_pos hid, if_pos hid, Option.map_some, Option.elim_some, hlanding]
    · rw [if_neg hid, if_neg hid, featuresAt]
      cases s.outline? id with
      | none => rfl
      | some o => exact hlanding o
  · rw [featuresAt]
    simp only [outline?_addProjection]
    split <;> rfl

theorem projected_eq_drop (s : Store) (id : ConstituentId) :
    s.projected id = (s.featuresAt id).drop 1 := by
  rw [projected_eq, featuresAt]
  cases s.outline? id <;> rfl

/-- What is lost before one more node is finished stays lost, if it is neither a probe nor a goal
and none of what is filed leads to it. -/
theorem Lost.of_touches (htouches : u.Touches t probes goals) (hadded : s.Added t (.feature fid))
    (hunspent : ¬u.IsSpent fid) (hprobe : fid ∉ probes) (hgoal : fid ∉ goals)
    (hroot : fid ∉ t.featuresAt id)
    (hunfiled : ∀ {z m}, pending.get? z = some m → (z, fid) ∉ u.pendingLicensees m ∧
      t.featuresAt m = u.featuresAt m)
    (path : Address) (nodes : List (Address × ConstituentId)) :
    Lost s (t.finishNode path id pending).1
      { id, pending := (t.finishNode path id pending).2, nodes } fid := by
  have hat (m : ConstituentId) : (t.finishNode path id pending).1.featuresAt m = t.featuresAt m :=
    featuresAt_congr (outline?_finishNode ..)
  have hsame (fid : FeatureId) :
      (t.finishNode path id pending).1.feature? fid = t.feature? fid := rfl
  have hfinish := htouches.trans (.of_feature? hsame probes goals)
  refine ⟨hadded,
    mt (hfinish.isSpent_iff hprobe hgoal).mp hunspent, by rwa [hat], fun {z m} hz hpending => ?_⟩
  rw [finishNode, Dict.get?_insertAll] at hz
  split at hz
  · rw [← Option.some.inj hz] at hpending
    exact hroot (hat id ▸ (mem_pendingLicensees_iff.mp hpending).1)
  · obtain ⟨hnot, hsame⟩ := hunfiled hz
    exact hnot ((hfinish.mem_pendingLicensees_iff hgoal ((hat m).trans hsame)).mp hpending)

/-- A node with one part finds nothing that is lost. -/
theorem Lost.buildUnary (h : Lost s s₁ b fid) (halone : s.StandsAlone s₁ b) (r : NodeRecord)
    (path : Address) (nodes : List (Address × ConstituentId)) :
    let v := s₁.buildUnary r b.id b.pending
    let f := v.1.1.finishNode path v.1.2 v.2
    Lost s f.1 { id := v.1.2, pending := f.2, nodes } fid := by
  obtain ⟨goals, htouches, hgoals⟩ := s₁.touches_buildUnary r b.id b.pending
  obtain ⟨hnext, hid⟩ := s₁.next_buildUnary r b.id b.pending
  have hfeature := s₁.nextFeature_buildUnary r b.id b.pending
  refine .of_touches htouches
    (h.added.mono (by rw [hnext]; exact Nat.le_succ _) (Nat.le_of_eq hfeature.symm)) h.unspent
    (fun hmem => h.notMem (List.mem_of_mem_take hmem)) (fun hgoal => ?_) ?_ (fun {z m} hz => ?_)
    path nodes
  · obtain ⟨z, m, hz, hmem⟩ := hgoals fid hgoal
    exact h.unfiled hz hmem
  · rw [featuresAt_buildUnary, if_pos hid, projected_eq_drop]
    exact fun hmem => h.notMem (List.mem_of_mem_drop hmem)
  · have hold := get?_of_buildUnary hz
    refine ⟨h.unfiled hold, ?_⟩
    rw [featuresAt_buildUnary, if_neg (ne_next_of_lt (halone.pending hold).2)]

section merge

variable (halone₁ : s.StandsAlone s₁ b₁) (halone₂ : s₁.StandsAlone s₂ b₂)

include halone₁ halone₂

/-- A merge finds nothing that no file of either part leads to. -/
theorem lost_buildMerge (hadded : s.Added s₂ (.feature fid)) (hunspent : ¬s₂.IsSpent fid)
    (hselector : fid ∉ s₂.featuresAt b₁.id) (hselected : fid ∉ s₂.featuresAt b₂.id)
    (hunfiled₁ : ∀ {z m}, b₁.pending.get? z = some m → (z, fid) ∉ s₂.pendingLicensees m)
    (hunfiled₂ : ∀ {z m}, b₂.pending.get? z = some m → (z, fid) ∉ s₂.pendingLicensees m)
    (r : NodeRecord) (isLexical : Bool) (path : Address) (nodes : List (Address × ConstituentId)) :
    let v := s₂.buildMerge r isLexical b₁.id b₂.id
    let f := v.1.finishNode path v.2 (b₁.pending.unite b₂.pending)
    Lost s f.1 { id := v.2, pending := f.2, nodes } fid := by
  obtain ⟨hnext, hfeature, hid⟩ := s₂.next_buildMerge r isLexical b₁.id b₂.id
  refine .of_touches (s₂.touches_buildMerge r isLexical b₁.id b₂.id)
    (hadded.mono (by rw [hnext]; exact Nat.le_succ _) (Nat.le_of_eq hfeature.symm)) hunspent
    (fun hmem => hselector (List.mem_of_mem_take hmem))
    (fun hmem => hselected (List.mem_of_mem_take hmem)) ?_ (fun {z m} hz => ?_) path nodes
  · rw [featuresAt_buildMerge, if_pos hid, projected_eq_drop]
    exact fun hmem => hselector (List.mem_of_mem_drop hmem)
  · have hissued : s₂.Issued (.constituent m) ∧ (z, fid) ∉ s₂.pendingLicensees m := by
      rw [Dict.get?_unite] at hz
      rcases Option.or_eq_some_iff.mp hz with hz | ⟨-, hz⟩
      · exact ⟨((halone₁.pending hz).left halone₂.separate).2, hunfiled₁ hz⟩
      · exact ⟨(halone₂.pending hz).2, hunfiled₂ hz⟩
    refine ⟨hissued.2, ?_⟩
    rw [featuresAt_buildMerge, if_neg (ne_next_of_lt hissued.1)]

/-- A merge finds nothing that is lost in the selector. -/
theorem Lost.buildMerge_left (h : Lost s s₁ b₁ fid) (r : NodeRecord) (isLexical : Bool)
    (path : Address) (nodes : List (Address × ConstituentId)) :
    let v := s₂.buildMerge r isLexical b₁.id b₂.id
    let f := v.1.finishNode path v.2 (b₁.pending.unite b₂.pending)
    Lost s f.1 { id := v.2, pending := f.2, nodes } fid := by
  have hseparate := halone₂.separate
  have hissued := h.added.2
  -- no node of what is selected has the feature
  have hnew {m : ConstituentId} (hm : s₁.Added s₂ (.constituent m)) : fid ∉ s₂.featuresAt m :=
    fun hmem => (hseparate.added_of_mem_featuresAt hm hmem).1 hissued
  refine lost_buildMerge halone₁ halone₂ (h.added.left hseparate)
    (mt (hseparate.isSpent_iff hissued).mp h.unspent) ?_ (hnew halone₂.root) (fun hz hpending => ?_)
    (fun hz hpending => hnew (halone₂.pending hz) (mem_pendingLicensees_iff.mp hpending).1) r
    isLexical path nodes
  · rw [hseparate.featuresAt_eq halone₁.root.2]
    exact h.notMem
  · refine h.unfiled hz (mem_pendingLicensees_iff.mpr ?_)
    have hpending := mem_pendingLicensees_iff.mp hpending
    rwa [hseparate.featuresAt_eq (halone₁.pending hz).2, hseparate.checker?_eq hissued,
      hseparate.value?_eq hissued] at hpending

/-- A merge finds nothing that is lost in what is selected. -/
theorem Lost.buildMerge_right (h : Lost s₁ s₂ b₂ fid) (r : NodeRecord) (isLexical : Bool)
    (path : Address) (nodes : List (Address × ConstituentId)) :
    let v := s₂.buildMerge r isLexical b₁.id b₂.id
    let f := v.1.finishNode path v.2 (b₁.pending.unite b₂.pending)
    Lost s f.1 { id := v.2, pending := f.2, nodes } fid := by
  -- no node of the selector has the feature
  have hold {m : ConstituentId} (hm : s.Added s₁ (.constituent m)) : fid ∉ s₂.featuresAt m := by
    rw [halone₂.separate.featuresAt_eq hm.2]
    exact fun hmem => h.added.1 (halone₁.separate.added_of_mem_featuresAt hm hmem).2
  exact lost_buildMerge halone₁ halone₂ (h.added.right halone₁.separate) h.unspent
    (hold halone₁.root) h.notMem
    (fun hz hpending => hold (halone₁.pending hz) (mem_pendingLicensees_iff.mp hpending).1)
    h.unfiled r isLexical path nodes

end merge

/-- The rebuilt tree of a derivation that is not faithful has lost a feature. -/
theorem exists_lost (hlex : lex.WellFormed) (h : tree.Encodes lex d) (htree : tree.Projects)
    (hp : d.phrase? lex = some p) (hd : d.isFaithful lex ≠ true) (hs : s.IsNumbered)
    (path : Address) : ∃ fid, Lost s (s.build path tree).1 (s.build path tree).2 fid := by
  induction h generalizing p s path with
  | word => exact absurd rfl hd
  | @move r left part hinner hpart ih =>
    obtain ⟨q, f, features, m, hq, -, -, hm, hx, -⟩ := Derivation.exists_of_phrase?_move hp
    have hleft := htree.part
    have halone := standsAlone_build hs (path.child .left) left
    obtain ⟨fid, hlost⟩ : ∃ fid, Lost s (s.build (path.child .left) left).1
        (s.build (path.child .left) left).2 fid := by
      by_cases hfaithful : part.isFaithful lex = true
      · -- this is where the licensor finds anything else
        obtain ⟨node, hw⟩ := Derivation.exists_waiting hq hm
        obtain ⟨root, hb, hspends⟩ :=
          spends_build hlex hpart hleft hq hfaithful hs (path.child .left)
        refine exists_lost_of_filed_ne hlex hb hspends hq hfaithful hw fun hfiled => hd ?_
        exact (Derivation.isFaithful_move_iff hx).mpr ⟨hfaithful, hfiled.trans hw.symm⟩
      · exact ih hleft hq hfaithful hs _
    exact ⟨fid, hlost.buildUnary halone r path _⟩
  | @merge r left right selector selected hinner hselector hselected ih₁ ih₂ =>
    obtain ⟨p₁, p₂, -, -, -, -, -, hp₁, hp₂, -⟩ := Derivation.exists_of_phrase?_merge hp
    obtain ⟨hleft, hright⟩ := htree.parts
    have halone₁ := standsAlone_build hs path.left left
    have hs₁ := halone₁.separate.toIsNumbered
    have halone₂ := standsAlone_build hs₁ path.right right
    by_cases hfaithful : selector.isFaithful lex = true
    · have hselected : selected.isFaithful lex ≠ true := fun hselected =>
        hd (Derivation.isFaithful_merge_iff.mpr ⟨hfaithful, hselected⟩)
      obtain ⟨fid, hlost⟩ := ih₂ hright hp₂ hselected hs₁ path.right
      exact ⟨fid, hlost.buildMerge_right halone₁ halone₂ r _ path _⟩
    · obtain ⟨fid, hlost⟩ := ih₁ hleft hp₁ hfaithful hs path.left
      exact ⟨fid, hlost.buildMerge_left halone₁ halone₂ r _ path _⟩

end Store
end MinimalistGrammar
