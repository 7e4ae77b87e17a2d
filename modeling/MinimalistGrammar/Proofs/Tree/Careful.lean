import MinimalistGrammar.Proofs.Beam.Projections
import MinimalistGrammar.Proofs.Tree.Checking
import MinimalistGrammar.Proofs.Tree.Standalone

/-!
# Careful building

A tree can be built with checks that fail rather than replace a link. None of them ever fails: the
features of a node that are left have checked nothing, and nothing has checked them but a licensee
for which the node has moved below itself. So every active feature is free, whatever part of a
derivation has been found.

## Main definitions

* `Store.build?` — builds a tree, and fails rather than replace a link.
* `Store.Bears` — the features that are left at a node are free.

## Main results

* `Store.build?_eq` — the tree is built without a link being replaced, and its links are a matching.
-/

namespace MinimalistGrammar
namespace Store

/-! ### Building with careful checks -/

/-- Checks the active features of two nodes, if they have any, and fails rather than replace a
link. -/
def checkActive? (s : Store) (selector selected : ConstituentId) : Option Store :=
  match s.active? selector, s.active? selected with
  | some probe, some goal => s.check? probe goal
  | _, _ => some s

/-- Checks the licensee for which a mover moves, and fails rather than replace a link. -/
def checkLicensee? (s : Store) (id mover : ConstituentId) (name : String) : Option Store :=
  match s.active? id, (s.pendingLicensees mover).lookup name with
  | some probe, some goal => s.check? probe goal
  | _, _ => some s

/-- A node for which the selector takes a phrase, unless a link would be replaced. -/
def buildMerge? (s : Store) (r : NodeRecord) (isLexical : Bool)
    (selector selected : ConstituentId) : Option (Store × ConstituentId) :=
  let (label, parts) := s.mergeParts isLexical selector selected
  (s.checkActive? selector selected).map fun t => t.addProjection selector label parts r.lexKey

/-- A node with a mover on its left, which lands there, unless a link would be replaced. -/
def buildMove? (s : Store) (r : NodeRecord) (part mover : ConstituentId) (name : String) :
    Option (Store × ConstituentId) :=
  (s.checkLicensee? part mover name).map fun t =>
    let (t, id) := t.addProjection part headRight [mover, part] r.lexKey
    (t.modifyConstituent mover fun c => { c with landing := some id }, id)

/-- A node with a single part, and what is left to move, unless a link would be replaced. -/
def buildUnary? (s : Store) (r : NodeRecord) (part : ConstituentId) (pending : PendingMovers) :
    Option ((Store × ConstituentId) × PendingMovers) :=
  match s.attracted? part pending with
  | some (name, mover) => (s.buildMove? r part mover name).map (·, pending.erase name)
  | none => some (s.addProjection part unary [part] r.lexKey, pending)

/-- Builds the tree of a derivation as `build` does, but fails at the first check that would replace
a link. -/
def build? (s : Store) (path : Address) : RecordTree → Option (Store × BuiltNode)
  | .leaf r => some (s.build path (.leaf r))
  | .unary r side part => do
    let (s, built) ← s.build? (path.child side) part
    let ((s, id), pending) ← s.buildUnary? r built.id built.pending
    let (s, pending) := s.finishNode path id pending
    some (s, { id, pending, nodes := (path, id) :: built.nodes })
  | .binary r left right => do
    let (s, selector) ← s.build? path.left left
    let (s, selected) ← s.build? path.right right
    let (s, id) ← s.buildMerge? r left.record.isLexical selector.id selected.id
    let (s, pending) := s.finishNode path id (selector.pending.unite selected.pending)
    some (s, { id, pending, nodes := (path, id) :: (selector.nodes ++ selected.nodes) })

variable {s s' t : Store} {id selector selected part mover : ConstituentId} {fid : FeatureId}
  {name : String} {ids : List FeatureId} {f : Feature} {features : List Feature} {r : NodeRecord}
  {pending : PendingMovers}

/-- A merge checks the active features, or nothing. -/
theorem checkActive_cases (s : Store) (selector selected : ConstituentId) :
    (s.checkActive? selector selected = some s ∧ s.checkActive selector selected = s) ∨
      ∃ probe goal, s.active? selector = some probe ∧ s.active? selected = some goal ∧
        s.checkActive? selector selected = s.check? probe goal ∧
        s.checkActive selector selected = s.check probe goal := by
  rw [checkActive?, checkActive]
  cases s.active? selector with
  | none => exact Or.inl ⟨rfl, rfl⟩
  | some probe =>
    cases s.active? selected with
    | none => exact Or.inl ⟨rfl, rfl⟩
    | some goal => exact Or.inr ⟨probe, goal, rfl, rfl, rfl, rfl⟩

/-- A movement checks the active feature and a pending licensee, or nothing. -/
theorem checkLicensee_cases (s : Store) (id mover : ConstituentId) (name : String) :
    (s.checkLicensee? id mover name = some s ∧ s.checkLicensee id mover name = s) ∨
      ∃ probe goal, s.active? id = some probe ∧ (name, goal) ∈ s.pendingLicensees mover ∧
        s.checkLicensee? id mover name = s.check? probe goal ∧
        s.checkLicensee id mover name = s.check probe goal := by
  rw [checkLicensee?, checkLicensee]
  cases s.active? id with
  | none => exact Or.inl ⟨rfl, rfl⟩
  | some probe =>
    cases hgoal : (s.pendingLicensees mover).lookup name with
    | none => exact Or.inl ⟨rfl, rfl⟩
    | some goal =>
      obtain ⟨before, after, heq, -⟩ := List.lookup_eq_some_iff.mp hgoal
      exact Or.inr ⟨probe, goal, rfl, heq ▸ List.mem_append_right _ (List.mem_cons_self ..),
        rfl, rfl⟩

/-- The features that are left at a node. -/
def featuresAt (s : Store) (id : ConstituentId) : List FeatureId :=
  (s.outline? id).elim [] (·.features)

theorem featuresAt_eq {o : Outline} (ho : s.outline? id = some o) :
    s.featuresAt id = o.features := by
  rw [featuresAt, ho, Option.elim_some]

theorem featuresAt_congr (h : s'.outline? id = s.outline? id) :
    s'.featuresAt id = s.featuresAt id := by
  rw [featuresAt, h, featuresAt]

theorem pendingLicensees_eq (s : Store) (id : ConstituentId) : s.pendingLicensees id =
    (s.featuresAt id).filterMap fun fid =>
      ((s.feature? fid).filter (·.isPending)).map fun f => (f.feature.name, fid) := by
  rw [pendingLicensees, featuresAt, outline?]
  cases s.constituent? id <;> rfl

/-- A pending licensee is one that nothing has checked. -/
theorem of_mem_pendingLicensees (h : (name, fid) ∈ s.pendingLicensees id) :
    s.checker? fid = none ∧ ∃ f, s.value? fid = some f ∧ f.sign = .licensee ∧ f.name = name := by
  rw [pendingLicensees] at h
  obtain ⟨fid', -, heq⟩ := List.mem_filterMap.mp h
  obtain ⟨occurrence, hoccurrence, heq⟩ := Option.map_eq_some_iff.mp heq
  obtain ⟨rfl, rfl⟩ := Prod.mk.inj heq
  obtain ⟨hstored, hpending⟩ := Option.filter_eq_some_iff.mp hoccurrence
  rw [FeatureOccurrence.isPending, Bool.and_eq_true, beq_iff_eq,
    Option.isNone_iff_eq_none] at hpending
  refine ⟨?_, occurrence.feature, ?_, hpending.1, rfl⟩
  · rw [checker?, hstored]
    exact hpending.2
  · rw [value?, hstored]
    rfl

/-- The pending licensees of a node are those of its features that nothing has checked. -/
theorem mem_pendingLicensees_iff : (name, fid) ∈ s.pendingLicensees id ↔
    fid ∈ s.featuresAt id ∧ s.checker? fid = none ∧
      ∃ f, s.value? fid = some f ∧ f.sign = .licensee ∧ f.name = name := by
  constructor
  · intro h
    obtain ⟨o, ho, hfid⟩ := s.mem_pendingLicensees id fid h
    exact ⟨featuresAt_eq ho ▸ hfid, of_mem_pendingLicensees h⟩
  · rintro ⟨hfid, hfree, f, hf, hsign, rfl⟩
    obtain ⟨occurrence, hstored, rfl⟩ := Option.map_eq_some_iff.mp hf
    rw [checker?, hstored, Option.bind_some] at hfree
    have hpending : occurrence.isPending = true := by
      rw [FeatureOccurrence.isPending, hsign, hfree]
      rfl
    rw [pendingLicensees_eq]
    refine List.mem_filterMap.mpr ⟨fid, hfid, ?_⟩
    rw [hstored, Option.filter_some, if_pos hpending, Option.map_some]

/-! ### Nodes and features -/

theorem feature?_addProjection (s : Store) (head : ConstituentId) (label : String)
    (parts : List ConstituentId) (lexKey : String) (fid : FeatureId) :
    (s.addProjection head label parts lexKey).1.feature? fid = s.feature? fid := by
  rw [addProjection, feature?, features_setHead]
  rfl

/-- New features are as they were given, have no links, and are all different. -/
theorem addFeatures_occurrences (s : Store) (host : ConstituentId) (features : List Feature) :
    let t := s.addFeatures host features
    t.2.map t.1.feature? = features.map (fun f => some { feature := f, host := some host }) ∧
      t.2.Nodup ∧ ∀ fid, fid.index < s.nextFeature → t.1.feature? fid = s.feature? fid := by
  induction features generalizing s with
  | nil => exact ⟨rfl, List.nodup_nil, fun _ _ => rfl⟩
  | cons f features ih =>
    obtain ⟨hfeatures, hnodup, hold⟩ := ih (s.addFeature f (some host)).1
    have hnext : (⟨s.nextFeature⟩ : FeatureId).index < (s.addFeature f (some host)).1.nextFeature :=
      Nat.lt_succ_self _
    rw [addFeatures_cons]
    refine ⟨?_, List.nodup_cons.mpr ⟨fun hmem => ?_, hnodup⟩, fun fid hfid => ?_⟩
    · rw [List.map_cons, List.map_cons, hfeatures, hold _ hnext, feature?_addFeature, if_pos rfl]
    · exact absurd ((mem_addFeatures_iff ..).mp hmem).1 (Nat.not_le_of_lt hnext)
    · rw [hold _ (Nat.lt_succ_of_lt hfid), feature?_addFeature, if_neg]
      rintro rfl
      exact Nat.lt_irrefl _ hfid

theorem IsMatched.addFeatures (h : s.IsMatched) (hs : s.IsNumbered) (host : ConstituentId)
    (features : List Feature) : (s.addFeatures host features).1.IsMatched := by
  induction features generalizing s with
  | nil => exact h
  | cons f features ih =>
    rw [addFeatures_cons]
    refine ih (h.addFeature hs f (some host)) ⟨fun {l} hl => ?_⟩
    rw [linked?_addFeature] at hl
    split at hl
    · next heq =>
      rw [heq]
      exact Nat.lt_succ_self _
    · exact (hs.issued hl).mono (Nat.le_refl _) (Nat.le_succ _)

/-! ### Features that are left -/

/-- The features that are left at a node are what they are known to be, they are all different, and
they are free: none of them has checked anything, and nothing has checked any of them but a
licensee. -/
structure Bears (s : Store) (ids : List FeatureId) (features : List Feature) : Prop where
  values : ids.map s.value? = features.map some
  nodup : ids.Nodup
  checks? {fid : FeatureId} : fid ∈ ids → s.checks? fid = none
  checker? {fid : FeatureId} {f : Feature} : fid ∈ ids → s.value? fid = some f →
    f.sign ≠ .licensee →
    s.checker? fid = none

/-- New occurrences of features are free. -/
theorem Bears.of_occurrences {host : Option ConstituentId}
    (h : ids.map s.feature? = features.map fun f => some { feature := f, host })
    (hnodup : ids.Nodup) : s.Bears ids features := by
  have hnew {fid : FeatureId} (hfid : fid ∈ ids) :
      ∃ f ∈ features, s.feature? fid = some { feature := f, host } := by
    obtain ⟨f, hf, heq⟩ := List.mem_map.mp (h ▸ List.mem_map_of_mem hfid)
    exact ⟨f, hf, heq.symm⟩
  refine ⟨?_, hnodup, fun {fid} hfid => ?_, fun {fid f} hfid _ _ => ?_⟩
  · rw [show s.value? = Option.map (·.feature) ∘ s.feature? from rfl, ← List.map_map, h,
      List.map_map]
    rfl
  · obtain ⟨f, -, hf⟩ := hnew hfid
    rw [Store.checks?, hf, Option.bind_some]
  · obtain ⟨f, -, hf⟩ := hnew hfid
    rw [Store.checker?, hf, Option.bind_some]

theorem Bears.congr (h : s.Bears ids features)
    (heq : ∀ fid ∈ ids, s'.feature? fid = s.feature? fid) :
    s'.Bears ids features where
  values := by
    rw [← h.values]
    exact List.map_congr_left fun fid hfid => by rw [value?, heq fid hfid, value?]
  nodup := h.nodup
  checks? {fid} hfid := by
    rw [Store.checks?, heq fid hfid]
    exact h.checks? hfid
  checker? {fid f} hfid hf hsign := by
    rw [value?, heq fid hfid] at hf
    rw [Store.checker?, heq fid hfid]
    exact h.checker? hfid hf hsign

/-- The active feature is the first of those that are left. -/
theorem Bears.value?_active (h : s.Bears ids (f :: features)) (hfid : ids.head? = some fid) :
    s.value? fid = some f := by
  obtain ⟨rest, rfl⟩ := List.head?_eq_some_iff.mp hfid
  exact (List.cons.inj h.values).1

/-- When the active feature checks a feature that is none of those left, or a licensee, the others
stay free. -/
theorem Bears.check {probe goal : FeatureId} (h : s.Bears ids (f :: features))
    (hprobe : ids.head? = some probe)
    (hgoal : goal ∉ ids ∨ ∃ g, s.value? goal = some g ∧ g.sign = .licensee) :
    (s.check probe goal).Bears (ids.drop 1) features := by
  obtain ⟨rest, rfl⟩ := List.head?_eq_some_iff.mp hprobe
  obtain ⟨hnew, hnodup⟩ := List.nodup_cons.mp h.nodup
  rw [List.drop_one, List.tail_cons]
  refine ⟨?_, hnodup, fun {fid} hfid => ?_, fun {fid g} hfid hg hsign => ?_⟩
  · rw [show (s.check probe goal).value? = s.value? from funext (value?_check s probe goal)]
    exact (List.cons.inj h.values).2
  · rw [checks?_check, if_neg]
    · exact h.checks? (List.mem_cons_of_mem _ hfid)
    · rintro ⟨rfl, -⟩
      exact hnew hfid
  · rw [value?_check] at hg
    rw [checker?_check, if_neg]
    · exact h.checker? (List.mem_cons_of_mem _ hfid) hg hsign
    · rintro ⟨rfl, -⟩
      rcases hgoal with hgoal | ⟨g', hg', hlicensee⟩
      · exact hgoal (List.mem_cons_of_mem _ hfid)
      · obtain rfl := Option.some.inj (hg.symm.trans hg')
        exact hsign hlicensee

/-- Without a check, all but the first of the features are left as they are. -/
theorem Bears.tail (h : s.Bears ids (f :: features)) : s.Bears (ids.drop 1) features where
  values := by
    rw [List.map_drop, h.values]
    rfl
  nodup := h.nodup.drop
  checks? hfid := h.checks? (List.mem_of_mem_drop hfid)
  checker? hfid := h.checker? (List.mem_of_mem_drop hfid)

/-! ### One more node -/

section node

variable {o o₁ o₂ : Outline} {features₂ : List Feature}

/-- A new leaf bears its features. -/
theorem bears_buildLeaf (hnumbered : s.IsNumbered) (r : NodeRecord) :
    (s.IsMatched → (s.buildLeaf r).1.IsMatched) ∧
      ∃ o, (s.buildLeaf r).1.outline? (s.buildLeaf r).2 = some o ∧
        (s.buildLeaf r).1.Bears o.features r.features := by
  have hnode (hs : s.IsMatched) : ((s.addNode { label := r.label.getD "" }).1.addFeatures
      ⟨s.nextConstituent⟩ r.features).1.IsMatched := by
    have hadded : (s.addNode { label := r.label.getD "" }).1.IsMatched := hs.congr fun _ => rfl
    refine hadded.addFeatures ⟨fun {l} hl => ?_⟩ _ _
    rw [linked?_addNode] at hl
    split at hl
    · next heq =>
      rw [heq]
      exact Nat.lt_succ_self _
    · exact (hnumbered.issued hl).mono (Nat.le_succ _) (Nat.le_refl _)
  obtain ⟨hoccurrences, hnodup, -⟩ :=
    (s.addNode { label := r.label.getD "" }).1.addFeatures_occurrences ⟨s.nextConstituent⟩
      r.features
  exact ⟨fun hs => (hnode hs).congr fun _ => rfl, _, s.outline?_buildLeaf r,
    Bears.of_occurrences hoccurrences hnodup⟩

/-- A movement checks a licensee that is free. -/
theorem Bears.checkLicensee (ho : s.outline? part = some o) (h : s.Bears o.features (f :: features))
    (hsign : f.sign = .licensor) (mover : ConstituentId) (name : String) :
    s.checkLicensee? part mover name = some (s.checkLicensee part mover name) ∧
      (s.IsMatched → (s.checkLicensee part mover name).IsMatched) ∧
      (s.checkLicensee part mover name).Bears (o.features.drop 1) features := by
  rcases s.checkLicensee_cases part mover name with ⟨hcareful, hcheck⟩ |
    ⟨probe, goal, hactive, hgoal, hcareful, hcheck⟩
  · rw [hcareful, hcheck]
    exact ⟨rfl, id, h.tail⟩
  · rw [active?_eq, ho, Option.bind_some] at hactive
    have hprobe := h.value?_active hactive
    obtain ⟨hfree, g, hg, hlicensee, -⟩ := of_mem_pendingLicensees hgoal
    have hfrees : s.canCheck probe goal = true → s.checks? probe = none ∧ s.checker? goal = none :=
      fun _ => ⟨h.checks? (List.mem_of_head? hactive), hfree⟩
    rw [hcareful, hcheck]
    refine ⟨check?_eq hfrees, fun hs => hs.check hfrees fun f' hf' => ?_,
      h.check hactive (Or.inr ⟨g, hg, hlicensee⟩)⟩
    obtain rfl := Option.some.inj (hprobe.symm.trans hf')
    rw [hsign]
    decide

/-- A merge checks a category that is free, or nothing. -/
theorem Bears.checkActive (ho₁ : s.outline? selector = some o₁)
    (ho₂ : s.outline? selected = some o₂) (h₁ : s.Bears o₁.features (f :: features))
    (h₂ : s.Bears o₂.features features₂) (htakes : f.Takes features₂)
    (hdisjoint : ∀ fid ∈ o₂.features, fid ∉ o₁.features) :
    s.checkActive? selector selected = some (s.checkActive selector selected) ∧
      (s.IsMatched → (s.checkActive selector selected).IsMatched) ∧
      (s.checkActive selector selected).Bears (o₁.features.drop 1) features := by
  rcases s.checkActive_cases selector selected with ⟨hcareful, hcheck⟩ |
    ⟨probe, goal, hactive, hgoal, hcareful, hcheck⟩
  · rw [hcareful, hcheck]
    exact ⟨rfl, id, h₁.tail⟩
  · rw [active?_eq, ho₁, Option.bind_some] at hactive
    rw [active?_eq, ho₂, Option.bind_some] at hgoal
    have hprobe := h₁.value?_active hactive
    have hmem := List.mem_of_head? hgoal
    have hfrees : s.canCheck probe goal = true → s.checks? probe = none ∧
        s.checker? goal = none := by
      intro hcan
      obtain ⟨f', g, hf', hg, hfits⟩ := canCheck_iff.mp hcan
      obtain rfl := Option.some.inj (hprobe.symm.trans hf')
      refine ⟨h₁.checks? (List.mem_of_head? hactive), h₂.checker? hmem hg fun hlicensee => ?_⟩
      -- a selector checks a category, and an adjunct nothing
      rw [Feature.fits, Bool.and_eq_true, hlicensee] at hfits
      rcases htakes with ⟨hsign, -⟩ | ⟨hsign, -⟩ <;> exact absurd hfits.2 (by rw [hsign]; decide)
    rw [hcareful, hcheck]
    refine ⟨check?_eq hfrees, fun hs => hs.check hfrees fun f' hf' => ?_,
      h₁.check hactive (Or.inl (hdisjoint _ hmem))⟩
    obtain rfl := Option.some.inj (hprobe.symm.trans hf')
    rcases htakes with ⟨hsign, -⟩ | ⟨hsign, -⟩ <;> rw [hsign] <;> decide

/-- A node with one part bears what its part leaves. -/
theorem Bears.buildUnary (ho : s.outline? part = some o) (h : s.Bears o.features (f :: r.features))
    (pending : PendingMovers) :
    s.buildUnary? r part pending = some (s.buildUnary r part pending) ∧
      (s.IsMatched → (s.buildUnary r part pending).1.1.IsMatched) ∧
      ∃ o', (s.buildUnary r part pending).1.1.outline? (s.buildUnary r part pending).1.2 = some o' ∧
        (s.buildUnary r part pending).1.1.Bears o'.features r.features := by
  have hprojected : s.projected part = o.features.drop 1 := by
    rw [projected_eq, ho, Option.elim_some]
  rw [buildUnary?, Store.buildUnary]
  cases hattracted : s.attracted? part pending with
  | none =>
    have hnode := s.outline?_addProjection ⟨s.nextConstituent⟩ part unary [part] r.lexKey
    rw [if_pos rfl, hprojected] at hnode
    exact ⟨rfl, fun hs => hs.congr (feature?_addProjection s part unary [part] r.lexKey), _, hnode,
      h.tail.congr fun fid _ => s.feature?_addProjection part unary [part] r.lexKey fid⟩
  | some x =>
    obtain ⟨name, mover⟩ := x
    -- only a licensor attracts
    have hsign : f.sign = .licensor := by
      obtain ⟨probe, hprobe, hif⟩ := Option.bind_eq_some_iff.mp hattracted
      obtain ⟨fid, hactive, hstored⟩ := Option.bind_eq_some_iff.mp hprobe
      rw [active?_eq, ho, Option.bind_some] at hactive
      have hvalue := h.value?_active hactive
      rw [value?, hstored, Option.map_some, Option.some.injEq] at hvalue
      split at hif
      · next hlicensor => rw [← hvalue, hlicensor]
      · exact absurd hif (by simp)
    obtain ⟨hcareful, hmatched, hbears⟩ := Bears.checkLicensee ho h hsign mover name
    have hfeature (fid : FeatureId) : (s.buildMove r part mover name).1.feature? fid =
        (s.checkLicensee part mover name).feature? fid :=
      feature?_addProjection (s.checkLicensee part mover name) part headRight [mover, part]
        r.lexKey fid
    have hnode := s.outline?_buildMove r (s.buildMove r part mover name).2 part mover name
    rw [(s.next_buildMove r part mover name).2.2, if_pos rfl, hprojected, Option.map_some] at hnode
    rw [(s.next_buildMove r part mover name).2.2]
    refine ⟨?_, fun hs => (hmatched hs).congr hfeature, _, hnode, ?_⟩
    · simp only [buildMove?, hcareful, Option.map_some]
      rfl
    · have hfeatures : (if (⟨s.nextConstituent⟩ : ConstituentId) = mover then
          { (⟨headRight, [mover, part], o.features.drop 1, none⟩ : Outline) with
            landing := some ⟨s.nextConstituent⟩ }
          else ⟨headRight, [mover, part], o.features.drop 1, none⟩).features =
            o.features.drop 1 := by
        split <;> rfl
      rw [hfeatures]
      exact hbears.congr fun fid _ => hfeature fid

/-- A node with two parts bears what its selector leaves. -/
theorem Bears.buildMerge (ho₁ : s.outline? selector = some o₁) (ho₂ : s.outline? selected = some o₂)
    (h₁ : s.Bears o₁.features (f :: r.features)) (h₂ : s.Bears o₂.features features₂)
    (htakes : f.Takes features₂) (hdisjoint : ∀ fid ∈ o₂.features, fid ∉ o₁.features)
    (isLexical : Bool) :
    s.buildMerge? r isLexical selector selected =
      some (s.buildMerge r isLexical selector selected) ∧
      (s.IsMatched → (s.buildMerge r isLexical selector selected).1.IsMatched) ∧
      ∃ o', (s.buildMerge r isLexical selector selected).1.outline?
          (s.buildMerge r isLexical selector selected).2 = some o' ∧
        (s.buildMerge r isLexical selector selected).1.Bears o'.features r.features := by
  obtain ⟨hcareful, hmatched, hbears⟩ := Bears.checkActive ho₁ ho₂ h₁ h₂ htakes hdisjoint
  have hfeature (fid : FeatureId) : (s.buildMerge r isLexical selector selected).1.feature? fid =
      (s.checkActive selector selected).feature? fid := feature?_addProjection ..
  have hnode :=
    s.outline?_buildMerge r (s.buildMerge r isLexical selector selected).2 isLexical selector
    selected
  rw [(s.next_buildMerge r isLexical selector selected).2.2, if_pos rfl, projected_eq, ho₁,
    Option.elim_some] at hnode
  rw [(s.next_buildMerge r isLexical selector selected).2.2]
  refine ⟨?_, fun hs => (hmatched hs).congr hfeature, _, hnode,
    hbears.congr fun fid _ => hfeature fid⟩
  simp only [buildMerge?, hcareful, Option.map_some]
  rfl

end node

/-! ### Whole trees -/

/-- The tree is built without a link being replaced, whatever part of a derivation it stands for.
The links stay a matching, and the features that are left at the root are free. -/
theorem build?_eq {tree : RecordTree} (hnumbered : s.IsNumbered) (htree : tree.Projects)
    (path : Address) :
    s.build? path tree = some (s.build path tree) ∧
      (s.IsMatched → (s.build path tree).1.IsMatched) ∧
      ∃ o, (s.build path tree).1.outline? (s.build path tree).2.id = some o ∧
        (s.build path tree).1.Bears o.features tree.record.features := by
  induction htree generalizing s path with
  | leaf r =>
    obtain ⟨hmatched, o, ho, hbears⟩ := bears_buildLeaf hnumbered r
    rw [build_leaf]
    exact ⟨rfl, fun hs => (hmatched hs).congr fun _ => rfl, o, (outline?_finishNode ..).trans ho,
      hbears.congr fun _ _ => rfl⟩
  | @unary r side part f _ hfeatures ih =>
    obtain ⟨hbuilt, hmatched, o, ho, hbears⟩ := ih hnumbered (path.child side)
    rw [build?, hbuilt, build_unary]
    generalize s.build (path.child side) part = t at hmatched ho hbears
    rw [hfeatures] at hbears
    obtain ⟨hunary, hmatched', o', ho', hbears'⟩ := Bears.buildUnary ho hbears t.2.pending
    refine ⟨?_, fun hs => (hmatched' (hmatched hs)).congr fun _ => rfl, o',
      (outline?_finishNode ..).trans ho', hbears'.congr fun _ _ => rfl⟩
    simp only [Option.bind_eq_bind, Option.bind_some, hunary]
  | @binary r left right f _ _ hfeatures htakes ih₁ ih₂ =>
    have halone₁ := standsAlone_build hnumbered path.left left
    obtain ⟨hbuilt₁, hmatched₁, o₁, ho₁, hbears₁⟩ := ih₁ hnumbered path.left
    rw [build?, hbuilt₁, build_binary]
    generalize s.build path.left left = t at halone₁ hmatched₁ ho₁ hbears₁
    have halone₂ := standsAlone_build halone₁.separate.toIsNumbered path.right right
    obtain ⟨hbuilt₂, hmatched₂, o₂, ho₂, hbears₂⟩ :=
      ih₂ halone₁.separate.toIsNumbered path.right
    simp only [Option.bind_eq_bind, Option.bind_some, hbuilt₂]
    generalize t.1.build path.right right = u at halone₂ hmatched₂ ho₂ hbears₂
    -- what the selector bears was there before what is selected
    have hold (fid : FeatureId) (hfid : fid ∈ o₁.features) : t.1.Issued (.feature fid) :=
      (halone₁.separate.added_of_mem_features halone₁.root ho₁ hfid).2
    have ho₁' : u.1.outline? t.2.id = some o₁ := by
      rw [outline?, constituent?_of_linked? (halone₂.separate.old halone₁.root.2)]
      exact ho₁
    have hbears₁' : u.1.Bears o₁.features (f :: r.features) := by
      rw [← hfeatures]
      exact hbears₁.congr fun fid hfid => feature?_of_linked? (halone₂.separate.old (hold fid hfid))
    have hdisjoint (fid : FeatureId) (hfid : fid ∈ o₂.features) : fid ∉ o₁.features := fun hmem =>
      (halone₂.separate.added_of_mem_features halone₂.root ho₂ hfid).1 (hold fid hmem)
    obtain ⟨hmerge, hmatched', o', ho', hbears'⟩ := Bears.buildMerge ho₁' ho₂ hbears₁' hbears₂
      htakes hdisjoint left.record.isLexical
    refine ⟨?_, fun hs => (hmatched' (hmatched₂ (hmatched₁ hs))).congr fun _ => rfl, o',
      (outline?_finishNode ..).trans ho', hbears'.congr fun _ _ => rfl⟩
    simp only [hmerge, Option.bind_some]

end Store
end MinimalistGrammar
