import MinimalistGrammar.Beam.SurfaceTree
import MinimalistGrammar.Proofs.Grammar.Movers

/-!
# What building changes in a store

Of a node only the label, the parts, the features and the landing matter for the words of a tree,
and of a feature only what it is and that nothing has checked it. Each step of building adds a node,
changes one landing, or checks one feature, and leaves everything else as it is.

## Main definitions

* `Store.outline?` — what matters of a node.
* `Store.open?` — a feature that nothing has checked.
* `Store.Extends` — the older nodes and features are as they were.

## Main results

* `Store.outline?_addProjection`, `Store.outline?_buildLeaf` — the new node, and all others.
* `Store.open?_checkActive`, `Store.open?_checkLicensee` — a check touches features of one node.
* `Store.get?_finishNode` — what a finished node leaves to move.
-/

namespace MinimalistGrammar

/-- What of a node its words depend on. -/
structure Outline where
  label : String
  parts : List ConstituentId
  features : List FeatureId
  landing : Option ConstituentId
deriving DecidableEq

/-- What of a node its words depend on. -/
def Constituent.outline (c : Constituent) : Outline := ⟨c.label, c.parts, c.features, c.landing⟩

namespace Store

/-- The outline of the node with a given identifier. -/
def outline? (s : Store) (id : ConstituentId) : Option Outline :=
  (s.constituent? id).map Constituent.outline

theorem outline?_eq {s : Store} {id : ConstituentId} {c : Constituent}
    (hc : s.constituent? id = some c) : s.outline? id = some c.outline := by
  rw [outline?, hc, Option.map_some]

/-- The feature with a given identifier, if nothing has checked it. -/
def open? (s : Store) (id : FeatureId) : Option Feature :=
  ((s.feature? id).filter (·.checkedBy.isNone)).map (·.feature)

variable (s : Store) (id id' : ConstituentId) (fid fid' : FeatureId)

/-! ### Changes of one object -/

theorem constituent?_modifyConstituent (f : Constituent → Constituent) :
    (s.modifyConstituent id f).constituent? id' =
      if id' = id then (s.constituent? id').map f else s.constituent? id' :=
  IdentMap.getElem?_modify ..

theorem outline?_modifyConstituent {f : Constituent → Constituent}
    (hf : ∀ c, (f c).outline = c.outline) :
    (s.modifyConstituent id f).outline? id' = s.outline? id' := by
  rw [outline?, constituent?_modifyConstituent, outline?]
  split
  · rw [Option.map_map]
    exact congrArg (Option.map · _) (funext hf)
  · rfl

theorem feature?_modifyFeature (f : FeatureOccurrence → FeatureOccurrence) :
    (s.modifyFeature fid f).feature? fid' =
      if fid' = fid then (s.feature? fid').map f else s.feature? fid' :=
  IdentMap.getElem?_modify ..

theorem constituent?_addNode (c : Constituent) :
    (s.addNode c).1.constituent? id =
      if id = ⟨s.nextConstituent⟩ then some c else s.constituent? id :=
  IdentMap.getElem?_insert ..

theorem outline?_addNode (c : Constituent) :
    (s.addNode c).1.outline? id =
      if id = ⟨s.nextConstituent⟩ then some c.outline else s.outline? id := by
  rw [outline?, constituent?_addNode]
  split <;> rfl

/-! ### Heads -/

@[simp] theorem outline?_setHead (head : Head) :
    (s.setHead id head).outline? id' = s.outline? id' := by
  rw [setHead, updateLexicalHeads]
  split
  · exact outline?_modifyConstituent _ _ _ fun _ => rfl
  · rw [outline?_modifyConstituent]
    · exact outline?_modifyConstituent _ _ _ fun _ => rfl
    · exact fun _ => rfl

theorem next_setHead (head : Head) : (s.setHead id head).nextConstituent = s.nextConstituent ∧
    (s.setHead id head).nextFeature = s.nextFeature := by
  rw [setHead, updateLexicalHeads]
  split <;> exact ⟨rfl, rfl⟩

@[simp] theorem open?_setHead (head : Head) : (s.setHead id head).open? fid = s.open? fid := by
  rw [open?, feature?, features_setHead]
  rfl

/-! ### A new node -/

section addProjection

variable (head : ConstituentId) (label : String) (parts : List ConstituentId) (lexKey : String)

theorem outline?_addProjection : (s.addProjection head label parts lexKey).1.outline? id =
    if id = ⟨s.nextConstituent⟩ then some ⟨label, parts, s.projected head, none⟩
    else s.outline? id := by
  rw [addProjection]
  simp only [outline?_setHead]
  exact outline?_addNode ..

@[simp] theorem open?_addProjection :
    (s.addProjection head label parts lexKey).1.open? fid = s.open? fid :=
  open?_setHead ..

@[simp] theorem nextConstituent_addProjection :
    (s.addProjection head label parts lexKey).1.nextConstituent = s.nextConstituent + 1 :=
  (next_setHead ..).1

@[simp] theorem nextFeature_addProjection :
    (s.addProjection head label parts lexKey).1.nextFeature = s.nextFeature :=
  (next_setHead ..).2

@[simp] theorem snd_addProjection :
    (s.addProjection head label parts lexKey).2 = ⟨s.nextConstituent⟩ := rfl

end addProjection

theorem projected_eq : s.projected id = (s.outline? id).elim [] (·.features.drop 1) := by
  rw [projected, outline?]
  cases s.constituent? id <;> rfl

theorem active?_eq : s.active? id = (s.outline? id).bind (·.features.head?) := by
  rw [active?, outline?]
  cases s.constituent? id <;> rfl

/-! ### Checks -/

section check

variable (probe goal : FeatureId)

@[simp] theorem outline?_check : (s.check probe goal).outline? id = s.outline? id := by
  rw [check]
  split <;> rfl

theorem next_check : (s.check probe goal).nextConstituent = s.nextConstituent ∧
    (s.check probe goal).nextFeature = s.nextFeature := by
  rw [check]
  split <;> exact ⟨rfl, rfl⟩

/-- A check leaves all features but the goal open. -/
theorem open?_check (h : fid ≠ goal) : (s.check probe goal).open? fid = s.open? fid := by
  rw [check]
  split
  · rw [link, open?, feature?_modifyFeature, if_neg h, feature?_modifyFeature, open?]
    split
    · cases s.feature? fid with
      | none => rfl
      | some f => cases hf : f.checkedBy <;> simp [Option.filter, hf]
    · rfl
  · rfl

variable (selector selected mover : ConstituentId) (name : String)

@[simp] theorem outline?_checkActive :
    (s.checkActive selector selected).outline? id = s.outline? id := by
  rw [checkActive]
  split
  · exact outline?_check ..
  · rfl

theorem next_checkActive :
    (s.checkActive selector selected).nextConstituent = s.nextConstituent ∧
      (s.checkActive selector selected).nextFeature = s.nextFeature := by
  rw [checkActive]
  split
  · exact next_check ..
  · exact ⟨rfl, rfl⟩

/-- A merge checks a feature of the phrase that is taken. -/
theorem open?_checkActive (h : ∀ o, s.outline? selected = some o → fid ∉ o.features) :
    (s.checkActive selector selected).open? fid = s.open? fid := by
  rw [checkActive]
  split
  · next probe goal _ hgoal =>
    rw [active?_eq] at hgoal
    obtain ⟨o, ho, hhead⟩ := Option.bind_eq_some_iff.mp hgoal
    refine open?_check _ _ _ _ ?_
    rintro rfl
    exact h o ho (List.mem_of_head? hhead)
  · rfl

@[simp] theorem outline?_checkLicensee :
    (s.checkLicensee id' mover name).outline? id = s.outline? id := by
  rw [checkLicensee]
  split
  · exact outline?_check ..
  · rfl

theorem next_checkLicensee :
    (s.checkLicensee id mover name).nextConstituent = s.nextConstituent ∧
      (s.checkLicensee id mover name).nextFeature = s.nextFeature := by
  rw [checkLicensee]
  split
  · exact next_check ..
  · exact ⟨rfl, rfl⟩

theorem mem_pendingLicensees {name : String}
    (h : (name, fid) ∈ s.pendingLicensees id) : ∃ o, s.outline? id = some o ∧ fid ∈ o.features := by
  rw [pendingLicensees] at h
  obtain ⟨fid', hmem, heq⟩ := List.mem_filterMap.mp h
  obtain ⟨f, -, heq⟩ := Option.map_eq_some_iff.mp heq
  obtain ⟨-, rfl⟩ := Prod.mk.inj heq
  cases hc : s.constituent? id with
  | none => exact absurd hmem (by simp [hc])
  | some c => exact ⟨c.outline, by rw [outline?, hc]; rfl, by rwa [hc] at hmem⟩

/-- A movement checks a feature of the mover. -/
theorem open?_checkLicensee (h : ∀ o, s.outline? mover = some o → fid ∉ o.features) :
    (s.checkLicensee id mover name).open? fid = s.open? fid := by
  rw [checkLicensee]
  split
  · next probe goal _ hgoal =>
    obtain ⟨before, after, heq, -⟩ := List.lookup_eq_some_iff.mp hgoal
    obtain ⟨o, ho, hmem⟩ :=
      s.mem_pendingLicensees mover goal (heq ▸ List.mem_append_right _ (List.mem_cons_self ..))
    refine open?_check _ _ _ _ ?_
    rintro rfl
    exact h o ho hmem
  · rfl

end check

/-! ### A new leaf -/

theorem addFeatures_cons (host : ConstituentId) (f : Feature) (features : List Feature) :
    s.addFeatures host (f :: features) =
      (((s.addFeature f (some host)).1.addFeatures host features).1,
        ⟨s.nextFeature⟩ :: ((s.addFeature f (some host)).1.addFeatures host features).2) := rfl

/-- New occurrences of features are open, and have numbers that were not given out. -/
theorem addFeatures_spec (host : ConstituentId) (features : List Feature) :
    let r := s.addFeatures host features
    r.2.map r.1.open? = features.map some ∧
      (∀ fid ∈ r.2, s.nextFeature ≤ fid.index ∧ fid.index < r.1.nextFeature) ∧
      (∀ fid, fid.index < s.nextFeature → r.1.open? fid = s.open? fid) ∧
      s.nextFeature ≤ r.1.nextFeature ∧ r.1.nextConstituent = s.nextConstituent ∧
      ∀ id, r.1.constituent? id = s.constituent? id := by
  induction features generalizing s with
  | nil => exact ⟨rfl, by simp, fun _ _ => rfl, Nat.le_refl _, rfl, fun _ => rfl⟩
  | cons f features ih =>
    have hadd (fid : FeatureId) : (s.addFeature f (some host)).1.open? fid =
        if fid = ⟨s.nextFeature⟩ then some f else s.open? fid := by
      have hget : (s.addFeature f (some host)).1.feature? fid =
          if fid = ⟨s.nextFeature⟩ then some { feature := f, host := some host }
          else s.feature? fid := IdentMap.getElem?_insert ..
      rw [open?, hget]
      split <;> rfl
    obtain ⟨hopen, hrange, hframe, hnext, hconstituent, hnodes⟩ := ih (s.addFeature f (some host)).1
    have hnext' : s.nextFeature + 1 ≤
        ((s.addFeature f (some host)).1.addFeatures host features).1.nextFeature := hnext
    refine ⟨?_, fun fid hfid => ?_, fun fid hfid => ?_, Nat.le_of_succ_le hnext',
      hconstituent, hnodes⟩
    · rw [addFeatures_cons, List.map_cons, List.map_cons, hopen,
        hframe ⟨s.nextFeature⟩ (Nat.lt_succ_self _), hadd, if_pos rfl]
    · rcases List.mem_cons.mp hfid with rfl | hfid
      · exact ⟨Nat.le_refl _, hnext'⟩
      · exact ⟨Nat.le_of_succ_le (hrange fid hfid).1, (hrange fid hfid).2⟩
    · rw [addFeatures_cons, hframe fid (Nat.lt_succ_of_lt hfid), hadd, if_neg]
      rintro rfl
      exact Nat.lt_irrefl _ hfid

/-- A leaf has its label and open features, and nothing else has changed. -/
theorem buildLeaf_spec (r : NodeRecord) :
    let t := s.buildLeaf r
    ∃ ids, (∀ id, t.1.outline? id = if id = ⟨s.nextConstituent⟩ then
        some ⟨r.label.getD "", [], ids, none⟩ else s.outline? id) ∧
      ids.map t.1.open? = r.features.map some ∧
      (∀ fid ∈ ids, s.nextFeature ≤ fid.index ∧ fid.index < t.1.nextFeature) ∧
      (∀ fid, fid.index < s.nextFeature → t.1.open? fid = s.open? fid) ∧
      s.nextFeature ≤ t.1.nextFeature ∧ t.1.nextConstituent = s.nextConstituent + 1 ∧
      t.2 = ⟨s.nextConstituent⟩ := by
  obtain ⟨hopen, hrange, hframe, hnext, hconstituent, hnodes⟩ :=
    (s.addNode { label := r.label.getD "" }).1.addFeatures_spec ⟨s.nextConstituent⟩ r.features
  refine ⟨_, fun id => ?_, hopen, hrange, hframe, hnext, hconstituent, rfl⟩
  have heq : (s.buildLeaf r).1 =
      (((s.addNode { label := r.label.getD "" }).1.addFeatures ⟨s.nextConstituent⟩
        r.features).1.modifyConstituent ⟨s.nextConstituent⟩ fun c => { c with
          features := ((s.addNode { label := r.label.getD "" }).1.addFeatures
            ⟨s.nextConstituent⟩ r.features).2
          lexicalHeads := [⟨s.nextConstituent⟩] }).modifyConstituent ⟨s.nextConstituent⟩
            fun c => { c with lexKey := some r.lexKey, parentLexKey := r.parentLexKey } := rfl
  rw [heq, outline?_modifyConstituent _ _ _ (by exact fun _ => rfl), outline?,
    constituent?_modifyConstituent, hnodes, constituent?_addNode]
  split <;> rfl

/-! ### A finished node -/

section finishNode

variable (path : Address) (pending : PendingMovers)

@[simp] theorem outline?_finishNode :
    (s.finishNode path id pending).1.outline? id' = s.outline? id' :=
  outline?_modifyConstituent _ _ _ fun _ => rfl

@[simp] theorem open?_finishNode : (s.finishNode path id pending).1.open? fid = s.open? fid := rfl

@[simp] theorem nextConstituent_finishNode :
    (s.finishNode path id pending).1.nextConstituent = s.nextConstituent := rfl

@[simp] theorem nextFeature_finishNode :
    (s.finishNode path id pending).1.nextFeature = s.nextFeature := rfl

variable {s id path pending}

/-- The pending licensees of a node whose features are open. -/
theorem map_fst_pendingLicensees {o : Outline} {known : List Feature} (ho : s.outline? id = some o)
    (hopen : o.features.map s.open? = known.map some) :
    (s.pendingLicensees id).map Prod.fst = licenseeNames known := by
  obtain ⟨c, hc, rfl⟩ := Option.map_eq_some_iff.mp ho
  change c.features.map s.open? = known.map some at hopen
  rw [pendingLicensees, hc, Option.elim_some]
  generalize c.features = ids at hopen
  induction ids generalizing known with
  | nil =>
    obtain rfl : known = [] := by simpa using hopen.symm
    rfl
  | cons fid ids ih =>
    cases known with
    | nil => exact absurd hopen (by simp)
    | cons f known =>
      obtain ⟨hf, hrest⟩ := List.cons.inj hopen
      obtain ⟨occurrence, hoccurrence, rfl⟩ := Option.map_eq_some_iff.mp hf
      obtain ⟨hfeature, hunchecked⟩ := Option.filter_eq_some_iff.mp hoccurrence
      have hpending : occurrence.isPending = (occurrence.feature.sign == .licensee) := by
        rw [FeatureOccurrence.isPending, hunchecked, Bool.and_true]
      have ih := ih hrest
      rw [licenseeNames] at ih ⊢
      rw [List.filterMap_cons, List.filter_cons, hfeature, Option.filter_some, hpending]
      by_cases hsign : (occurrence.feature.sign == .licensee) = true
      · rw [if_pos hsign, if_pos hsign, Option.map_some, List.map_cons, List.map_cons, ih]
      · rw [if_neg hsign, if_neg hsign, Option.map_none, ih]

/-- What is left to move below a finished node: the node itself under its own licensees, and what
was left before under other names. -/
theorem get?_finishNode {o : Outline} {known : List Feature} (ho : s.outline? id = some o)
    (hopen : o.features.map s.open? = known.map some) (z : String) :
    (s.finishNode path id pending).2.get? z =
      if z ∈ licenseeNames known then some id else pending.get? z := by
  rw [finishNode, Dict.get?_insertAll, ← map_fst_pendingLicensees ho hopen]

end finishNode

/-! ### Older objects -/

/-- All nodes and features that there were are as they were. -/
structure Extends (s s' : Store) : Prop where
  nextConstituent : s.nextConstituent ≤ s'.nextConstituent
  nextFeature : s.nextFeature ≤ s'.nextFeature
  outline? {id : ConstituentId} : id.index < s.nextConstituent → s'.outline? id = s.outline? id
  open? {fid : FeatureId} : fid.index < s.nextFeature → s'.open? fid = s.open? fid

theorem Extends.trans {s s' s'' : Store} (h : s.Extends s') (h' : s'.Extends s'') :
    s.Extends s'' where
  nextConstituent := Nat.le_trans h.nextConstituent h'.nextConstituent
  nextFeature := Nat.le_trans h.nextFeature h'.nextFeature
  outline? hid := (h'.outline? (Nat.lt_of_lt_of_le hid h.nextConstituent)).trans (h.outline? hid)
  open? hfid := (h'.open? (Nat.lt_of_lt_of_le hfid h.nextFeature)).trans (h.open? hfid)

end Store
end MinimalistGrammar
