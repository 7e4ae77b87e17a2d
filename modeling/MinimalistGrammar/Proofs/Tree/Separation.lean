import MinimalistGrammar.Proofs.Tree.Outline
import MinimalistGrammar.Proofs.Tree.Reachable

/-!
# Additions that are kept apart

All trees live in one store. What is added for a new tree gets numbers that were not given out
before, so it can be told from what there was. It is kept apart from it: no object that there was is
changed, and no added object is linked to it.

## Main definitions

* `Store.Issued` — a number has been given out.
* `Store.Added` — a number has been given out since.
* `Store.Separate` — what has been added to a store is kept apart.
* `Store.IsClosed` — all that is linked has a number that was given out.

## Main results

* `Store.Separate.addNode`, `Store.Separate.addLeaf` — new objects are kept apart if their links
  are.
* `Store.Separate.modifyConstituent`, `Store.Separate.setHead`, `Store.Separate.link` — so are
  changes of added objects.
-/

namespace MinimalistGrammar

/-- All links of a node, one kind after the other. -/
theorem Constituent.forall_links_iff {c : Constituent} {P : Link → Prop} : (∀ l ∈ c.links, P l) ↔
    (∀ f ∈ c.features, P (.feature f)) ∧ (∀ id ∈ c.parts, P (.constituent id)) ∧
      (∀ id ∈ c.movers.values, P (.constituent id)) ∧
      (∀ id ∈ c.head.elim [] Head.parts, P (.constituent id)) ∧
      (∀ id ∈ c.lexicalHeads, P (.constituent id)) ∧
      (∀ id ∈ c.landing.toList, P (.constituent id)) ∧
      ∀ id ∈ c.attributes.values.flatMap Attribute.nodes, P (.constituent id) := by
  simp only [links, nodes, List.forall_mem_append, List.forall_mem_map, and_assoc]

/-- All links of a feature occurrence, one kind after the other. -/
theorem FeatureOccurrence.forall_links_iff {f : FeatureOccurrence} {P : Link → Prop} :
    (∀ l ∈ f.links, P l) ↔ (∀ g ∈ f.checks.toList, P (.feature g)) ∧
      (∀ g ∈ f.checkedBy.toList, P (.feature g)) ∧ ∀ id ∈ f.host.toList, P (.constituent id) := by
  simp only [links, List.forall_mem_append, List.forall_mem_map, and_assoc]

namespace Store

variable {s s' s'' : Store} {l l' : Link} {id : ConstituentId} {fid : FeatureId}

/-! ### What a change does to links -/

theorem linked?_addNode (s : Store) (c : Constituent) (l : Link) : (s.addNode c).1.linked? l =
    if l = .constituent ⟨s.nextConstituent⟩ then some (.inl c) else s.linked? l := by
  cases l with
  | constituent id =>
    rw [linked?, constituent?_addNode]
    simp only [Link.constituent.injEq]
    split <;> rfl
  | feature id => rfl

theorem linked?_modifyConstituent (s : Store) (id : ConstituentId) (f : Constituent → Constituent)
    (l : Link) : (s.modifyConstituent id f).linked? l =
      if l = .constituent id then (s.constituent? id).map (.inl ∘ f) else s.linked? l := by
  cases l with
  | constituent id' =>
    rw [linked?, constituent?_modifyConstituent]
    simp only [Link.constituent.injEq]
    split
    · next heq => rw [heq, Option.map_map]
    · rfl
  | feature id' => rfl

theorem linked?_addFeature (s : Store) (f : Feature) (host : Option ConstituentId) (l : Link) :
    (s.addFeature f host).1.linked? l =
      if l = .feature ⟨s.nextFeature⟩ then some (.inr { feature := f, host }) else s.linked? l := by
  cases l with
  | constituent id => rfl
  | feature id =>
    have hget : (s.addFeature f host).1.feature? id =
        if id = ⟨s.nextFeature⟩ then some { feature := f, host } else s.feature? id :=
      IdentMap.getElem?_insert ..
    rw [linked?, hget]
    simp only [Link.feature.injEq]
    split <;> rfl

theorem linked?_modifyFeature (s : Store) (fid : FeatureId)
    (f : FeatureOccurrence → FeatureOccurrence) (l : Link) : (s.modifyFeature fid f).linked? l =
      if l = .feature fid then (s.feature? fid).map (.inr ∘ f) else s.linked? l := by
  cases l with
  | constituent id => rfl
  | feature fid' =>
    rw [linked?, feature?_modifyFeature]
    simp only [Link.feature.injEq]
    split
    · next heq => rw [heq, Option.map_map]
    · rfl

/-! ### Numbers -/

/-- The number of what a link leads to has been given out. -/
def Issued (s : Store) : Link → Prop
  | .constituent id => id.index < s.nextConstituent
  | .feature id => id.index < s.nextFeature

theorem Issued.mono (h : s.Issued l) (hconstituent : s.nextConstituent ≤ s'.nextConstituent)
    (hfeature : s.nextFeature ≤ s'.nextFeature) : s'.Issued l := by
  cases l with
  | constituent id => exact Nat.lt_of_lt_of_le h hconstituent
  | feature id => exact Nat.lt_of_lt_of_le h hfeature

/-- The number of what a link leads to has been given out since the store was `s`. -/
def Added (s s' : Store) (l : Link) : Prop := ¬s.Issued l ∧ s'.Issued l

theorem Added.mono (h : s.Added s' l) (hconstituent : s'.nextConstituent ≤ s''.nextConstituent)
    (hfeature : s'.nextFeature ≤ s''.nextFeature) : s.Added s'' l :=
  ⟨h.1, h.2.mono hconstituent hfeature⟩

/-- Everything in a store has a number that was given out. -/
structure IsNumbered (s : Store) : Prop where
  issued {l : Link} : s.linked? l ≠ none → s.Issued l

theorem linked?_empty (l : Link) : Store.linked? {} l = none := by
  cases l with
  | constituent id => rw [linked?, constituent?]; simp
  | feature id => rw [linked?, feature?]; simp

theorem isNumbered_empty : IsNumbered {} where
  issued hl := absurd (linked?_empty _) hl

/-! ### Being kept apart -/

/-- What has been added to a store is linked among itself only, and what there was is as it was. -/
structure Separate (s s' : Store) : Prop extends IsNumbered s' where
  nextConstituent : s.nextConstituent ≤ s'.nextConstituent
  nextFeature : s.nextFeature ≤ s'.nextFeature
  old {l : Link} : s.Issued l → s'.linked? l = s.linked? l
  links {l l' : Link} : ¬s.Issued l → l' ∈ s'.linksOf l → s.Added s' l'

theorem Separate.refl (h : s.IsNumbered) : s.Separate s where
  nextConstituent := Nat.le_refl _
  nextFeature := Nat.le_refl _
  issued := h.issued
  old _ := rfl
  links {l l'} hl hl' := by
    have hnone : s.linked? l = none := Option.eq_none_iff_forall_ne_some.mpr fun x hx =>
      hl (h.issued (hx ▸ Option.some_ne_none x))
    rw [linksOf, hnone] at hl'
    exact absurd hl' (by simp)

theorem Separate.issued_of_issued (h : s.Separate s') (hl : s.Issued l) : s'.Issued l :=
  hl.mono h.nextConstituent h.nextFeature

/-- What was added before is still there. -/
theorem Added.left (h : s.Added s' l) (h' : s'.Separate s'') : s.Added s'' l :=
  ⟨h.1, h'.issued_of_issued h.2⟩

/-- What is added later was not there before. -/
theorem Added.right (h' : s'.Added s'' l) (h : s.Separate s') : s.Added s'' l :=
  ⟨fun hl => h'.1 (h.issued_of_issued hl), h'.2⟩

theorem Separate.trans (h : s.Separate s') (h' : s'.Separate s'') : s.Separate s'' where
  nextConstituent := Nat.le_trans h.nextConstituent h'.nextConstituent
  nextFeature := Nat.le_trans h.nextFeature h'.nextFeature
  issued := h'.issued
  old hl := (h'.old (h.issued_of_issued hl)).trans (h.old hl)
  links {l l'} hl hl' := by
    by_cases hadded : s'.Issued l
    · rw [linksOf_congr (h'.old hadded)] at hl'
      exact (h.links hl hl').left h'
    · exact (h'.links hadded hl').right h

/-- A change is kept apart if every object either is as it was, or was added and is linked to added
ones only. -/
theorem Separate.change (h : s.Separate s')
    (hconstituent : s'.nextConstituent ≤ s''.nextConstituent)
    (hfeature : s'.nextFeature ≤ s''.nextFeature) (hlinked : ∀ l, s''.linked? l = s'.linked? l ∨
      s.Added s'' l ∧ ∀ l' ∈ s''.linksOf l, s.Added s'' l') : s.Separate s'' where
  nextConstituent := Nat.le_trans h.nextConstituent hconstituent
  nextFeature := Nat.le_trans h.nextFeature hfeature
  issued {l} hl := by
    rcases hlinked l with heq | ⟨hadded, -⟩
    · rw [heq] at hl
      exact (h.issued hl).mono hconstituent hfeature
    · exact hadded.2
  old {l} hl := by
    rcases hlinked l with heq | ⟨hadded, -⟩
    · rw [heq, h.old hl]
    · exact absurd hl hadded.1
  links {l l'} hl hl' := by
    rcases hlinked l with heq | ⟨-, hlinks⟩
    · rw [linksOf_congr heq] at hl'
      exact (h.links hl hl').mono hconstituent hfeature
    · exact hlinks l' hl'

/-- The links of an added node lead to added objects. -/
theorem Separate.links_constituent (h : s.Separate s') (hid : s.Added s' (.constituent id))
    {c : Constituent} (hc : s'.constituent? id = some c) : ∀ l ∈ c.links, s.Added s' l := by
  rw [← linksOf_constituent hc]
  exact fun l hl => h.links hid.1 hl

/-- The links of an added feature lead to added objects. -/
theorem Separate.links_feature (h : s.Separate s') (hfid : s.Added s' (.feature fid))
    {f : FeatureOccurrence} (hf : s'.feature? fid = some f) : ∀ l ∈ f.links, s.Added s' l := by
  rw [← linksOf_feature hf]
  exact fun l hl => h.links hfid.1 hl

/-! ### New objects -/

section new

variable (h : s.Separate s')

include h

/-- The number of a new node is one that is added. -/
theorem Separate.added_addNode (c : Constituent) :
    s.Added (s'.addNode c).1 (.constituent ⟨s'.nextConstituent⟩) :=
  ⟨Nat.not_lt.mpr h.nextConstituent, Nat.lt_succ_self _⟩

theorem Separate.addNode {c : Constituent} (hc : ∀ l ∈ c.links, s.Added s' l) :
    s.Separate (s'.addNode c).1 := by
  refine h.change (Nat.le_succ _) (Nat.le_refl _) fun l => ?_
  rw [linked?_addNode]
  split
  · next heq =>
    subst heq
    refine Or.inr ⟨h.added_addNode c, fun l' hl' => ?_⟩
    rw [linksOf, linked?_addNode, if_pos rfl] at hl'
    exact (hc l' hl').mono (Nat.le_succ _) (Nat.le_refl _)
  · exact Or.inl rfl

theorem Separate.addFeature {host : ConstituentId} (hhost : s.Added s' (.constituent host))
    (f : Feature) : s.Separate (s'.addFeature f (some host)).1 := by
  refine h.change (Nat.le_refl _) (Nat.le_succ _) fun l => ?_
  rw [linked?_addFeature]
  split
  · next heq =>
    subst heq
    refine Or.inr ⟨⟨Nat.not_lt.mpr h.nextFeature, Nat.lt_succ_self _⟩, fun l' hl' => ?_⟩
    rw [linksOf, linked?_addFeature, if_pos rfl] at hl'
    obtain rfl : l' = .constituent host := by simpa [FeatureOccurrence.links] using hl'
    exact hhost.mono (Nat.le_refl _) (Nat.le_succ _)
  · exact Or.inl rfl

end new

/-- The features of a leaf get the next numbers. -/
theorem mem_addFeatures_iff (s : Store) (host : ConstituentId) (features : List Feature) :
    fid ∈ (s.addFeatures host features).2 ↔
      s.nextFeature ≤ fid.index ∧ fid.index < (s.addFeatures host features).1.nextFeature := by
  induction features generalizing s with
  | nil => simp
  | cons f features ih =>
    have hnext := ((s.addFeature f (some host)).1.addFeatures_spec host features).2.2.2.1
    have hnext' : (s.addFeature f (some host)).1.nextFeature = s.nextFeature + 1 := rfl
    rw [addFeatures_cons]
    simp only [List.mem_cons, ih, hnext']
    have hfid : fid = ⟨s.nextFeature⟩ ↔ fid.index = s.nextFeature :=
      ⟨fun heq => by rw [heq], fun heq => congrArg Ident.mk heq⟩
    rw [hfid]
    rw [hnext'] at hnext
    omega

theorem Separate.addFeatures (h : s.Separate s') {host : ConstituentId}
    (hhost : s.Added s' (.constituent host)) (features : List Feature) :
    s.Separate (s'.addFeatures host features).1 := by
  induction features generalizing s' with
  | nil => exact h
  | cons f features ih =>
    rw [addFeatures_cons]
    exact ih (h.addFeature hhost f) (hhost.mono (Nat.le_refl _) (Nat.le_succ _))

/-! ### Changes of added objects -/

section change

variable (h : s.Separate s')

include h

theorem Separate.modifyConstituent (hid : s.Added s' (.constituent id))
    {f : Constituent → Constituent}
    (hf : ∀ c, s'.constituent? id = some c → ∀ l ∈ (f c).links, s.Added s' l) :
    s.Separate (s'.modifyConstituent id f) := by
  refine h.change (Nat.le_refl _) (Nat.le_refl _) fun l => ?_
  by_cases hl : l = .constituent id
  · subst hl
    refine Or.inr ⟨hid, fun l' hl' => ?_⟩
    rw [linksOf, linked?_modifyConstituent, if_pos rfl] at hl'
    cases hc : s'.constituent? id with
    | none => exact absurd hl' (by simp [hc])
    | some c =>
      rw [hc] at hl'
      exact hf c hc l' hl'
  · rw [linked?_modifyConstituent, if_neg hl]
    exact Or.inl rfl

theorem Separate.modifyFeature (hfid : s.Added s' (.feature fid))
    {f : FeatureOccurrence → FeatureOccurrence}
    (hf : ∀ o, s'.feature? fid = some o → ∀ l ∈ (f o).links, s.Added s' l) :
    s.Separate (s'.modifyFeature fid f) := by
  refine h.change (Nat.le_refl _) (Nat.le_refl _) fun l => ?_
  by_cases hl : l = .feature fid
  · subst hl
    refine Or.inr ⟨hfid, fun l' hl' => ?_⟩
    rw [linksOf, linked?_modifyFeature, if_pos rfl] at hl'
    cases ho : s'.feature? fid with
    | none => exact absurd hl' (by simp [ho])
    | some o =>
      rw [ho] at hl'
      exact hf o ho l' hl'
  · rw [linked?_modifyFeature, if_neg hl]
    exact Or.inl rfl

/-- A check between two added features. -/
theorem Separate.link {probe goal : FeatureId} (hprobe : s.Added s' (.feature probe))
    (hgoal : s.Added s' (.feature goal)) : s.Separate (s'.link probe goal) := by
  have hfirst : s.Separate (s'.modifyFeature probe fun f => { f with checks := some goal }) := by
    refine h.modifyFeature hprobe fun o ho => ?_
    obtain ⟨-, hcheckedBy, hhost⟩ :=
      FeatureOccurrence.forall_links_iff.mp (h.links_feature hprobe ho)
    exact FeatureOccurrence.forall_links_iff.mpr ⟨by simpa using hgoal, hcheckedBy, hhost⟩
  refine hfirst.modifyFeature hgoal fun o ho => ?_
  obtain ⟨hchecks, -, hhost⟩ :=
    FeatureOccurrence.forall_links_iff.mp (hfirst.links_feature hgoal ho)
  refine FeatureOccurrence.forall_links_iff.mpr ⟨hchecks, fun f hf => ?_, hhost⟩
  rw [List.mem_singleton.mp hf]
  exact hprobe

theorem Separate.check {probe goal : FeatureId} (hprobe : s.Added s' (.feature probe))
    (hgoal : s.Added s' (.feature goal)) : s.Separate (s'.check probe goal) := by
  rw [Store.check]
  split
  · exact h.link hprobe hgoal
  · exact h

theorem Separate.added_of_mem_lexicalHeads (hid : s.Added s' (.constituent id)) {a : ConstituentId}
    (ha : a ∈ s'.lexicalHeads id) : s.Added s' (.constituent a) := by
  rw [lexicalHeads] at ha
  cases hc : s'.constituent? id with
  | none => exact absurd ha (by simp [hc])
  | some c =>
    rw [hc] at ha
    exact (Constituent.forall_links_iff.mp (h.links_constituent hid hc)).2.2.2.2.1 a ha

theorem Separate.added_of_mem_movers (hid : s.Added s' (.constituent id)) {a : ConstituentId}
    (ha : a ∈ (s'.constituent? id).elim [] (·.movers.values)) : s.Added s' (.constituent a) := by
  cases hc : s'.constituent? id with
  | none => exact absurd ha (by simp [hc])
  | some c =>
    rw [hc] at ha
    exact (Constituent.forall_links_iff.mp (h.links_constituent hid hc)).2.2.1 a ha

/-- The features of an added node are added ones. -/
theorem Separate.added_of_mem_features (hid : s.Added s' (.constituent id)) {o : Outline}
    (ho : s'.outline? id = some o) (hfid : fid ∈ o.features) : s.Added s' (.feature fid) := by
  obtain ⟨c, hc, rfl⟩ := Option.map_eq_some_iff.mp ho
  exact (Constituent.forall_links_iff.mp (h.links_constituent hid hc)).1 fid hfid

end change

theorem mem_foldl_addNew_iff {found l : List ConstituentId} {a : ConstituentId} :
    a ∈ l.foldl addNew found ↔ a ∈ found ∨ a ∈ l := by
  induction l generalizing found with
  | nil => simp
  | cons b l ih =>
    rw [List.foldl_cons, ih, addNew]
    split
    · next hb =>
      rw [List.contains_iff_mem] at hb
      constructor
      · rintro (ha | ha)
        · exact Or.inl ha
        · exact Or.inr (List.mem_cons_of_mem _ ha)
      · rintro (ha | ha)
        · exact Or.inl ha
        · rcases List.mem_cons.mp ha with rfl | ha
          · exact Or.inl hb
          · exact Or.inr ha
    · rw [List.mem_append, List.mem_singleton, List.mem_cons, or_assoc]

/-- An added node may project from added ones. -/
theorem Separate.setHead (h : s.Separate s') (hid : s.Added s' (.constituent id)) {head : Head}
    (hhead : ∀ a ∈ head.parts, s.Added s' (.constituent a)) : s.Separate (s'.setHead id head) := by
  have hfirst : s.Separate (s'.modifyConstituent id fun c => { c with head := some head }) := by
    refine h.modifyConstituent hid fun c hc => ?_
    obtain ⟨hfeatures, hparts, hmovers, -, hrest⟩ :=
      Constituent.forall_links_iff.mp (h.links_constituent hid hc)
    exact Constituent.forall_links_iff.mpr ⟨hfeatures, hparts, hmovers, hhead, hrest⟩
  rw [Store.setHead, updateLexicalHeads]
  split
  · exact hfirst
  · next c hc =>
    refine hfirst.modifyConstituent hid fun d hd => ?_
    obtain ⟨hfeatures, hparts, hmovers, hhead', -, hrest⟩ :=
      Constituent.forall_links_iff.mp (hfirst.links_constituent hid hd)
    refine Constituent.forall_links_iff.mpr ⟨hfeatures, hparts, hmovers, hhead',
      fun a ha => ?_, hrest⟩
    -- the leaves are those of the nodes that it projects from
    have hleaves : c.head = some head := by
      rw [constituent?_modifyConstituent, if_pos rfl] at hc
      obtain ⟨c', -, rfl⟩ := Option.map_eq_some_iff.mp hc
      rfl
    simp only [headLeaves, hleaves] at ha
    obtain ⟨b, hb, ha⟩ := List.mem_flatMap.mp ((mem_foldl_addNew_iff.mp ha).resolve_left (by simp))
    exact hfirst.added_of_mem_lexicalHeads (hhead b hb) ha

/-- A new leaf with new features. -/
theorem Separate.addLeaf (h : s.Separate s') (label : String) (features : List Feature) :
    s.Separate (s'.addLeaf label features).1 ∧
      s.Added (s'.addLeaf label features).1 (.constituent (s'.addLeaf label features).2) := by
  have hnode : s.Separate (s'.addNode { label }).1 := by
    refine h.addNode fun l hl => absurd hl ?_
    exact List.not_mem_nil
  have hid := h.added_addNode { label }
  have hfeatures := hnode.addFeatures hid features
  have hid' : s.Added ((s'.addNode { label }).1.addFeatures ⟨s'.nextConstituent⟩ features).1
      (.constituent ⟨s'.nextConstituent⟩) := by
    refine ⟨hid.1, ?_⟩
    show s'.nextConstituent < _
    rw [((s'.addNode { label }).1.addFeatures_spec ⟨s'.nextConstituent⟩ features).2.2.2.2.1]
    exact Nat.lt_succ_self _
  refine ⟨hfeatures.modifyConstituent hid' fun c hc => ?_, hid'⟩
  obtain ⟨-, hparts, hmovers, hhead, -, hrest⟩ :=
    Constituent.forall_links_iff.mp (hfeatures.links_constituent hid' hc)
  refine Constituent.forall_links_iff.mpr ⟨fun f hf => ?_, hparts, hmovers, hhead,
    fun a ha => ?_, hrest⟩
  · have hmem := (mem_addFeatures_iff ..).mp hf
    refine ⟨Nat.not_lt.mpr (Nat.le_trans hnode.nextFeature hmem.1), hmem.2⟩
  · rw [List.mem_singleton.mp ha]
    exact hid'

/-! ### Closed stores -/

/-- Everything in a store, and everything to which it is linked, has a number that was given out. -/
structure IsClosed (s : Store) : Prop extends s.IsNumbered where
  links {l l' : Link} : l' ∈ s.linksOf l → s.Issued l'

theorem isClosed_empty : IsClosed {} where
  toIsNumbered := isNumbered_empty
  links {l l'} hl' := by
    rw [linksOf, linked?_empty] at hl'
    exact absurd hl' List.not_mem_nil

theorem Separate.isClosed (h : s.Separate s') (hs : s.IsClosed) : s'.IsClosed where
  toIsNumbered := h.toIsNumbered
  links {l l'} hl' := by
    by_cases hl : s.Issued l
    · rw [linksOf_congr (h.old hl)] at hl'
      exact h.issued_of_issued (hs.links hl')
    · exact (h.links hl hl').2

end Store
end MinimalistGrammar
