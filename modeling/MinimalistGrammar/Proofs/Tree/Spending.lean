import MinimalistGrammar.Proofs.Grammar.Waiting
import MinimalistGrammar.Proofs.Tree.Careful

/-!
# Features that are spent

Every feature of a leaf is there to check another one, to be checked, or to adjoin. A merge checks
the category of what is selected, and a movement checks a licensee that a mover has left. Nothing
else is touched, and what has been spent stays so.

## Main definitions

* `Store.IsSpent` — a feature has checked, has been checked, or adjoins.
* `Store.Touches`, `Store.Checks` — what checks change.
* `Store.Leaves` — what is left of the features of a mover.

## Main results

* `Store.touches_buildMerge`, `Store.touches_buildUnary` — what one more node may touch.
* `Store.checks_buildMerge`, `Store.checks_buildMove` — what one more node checks.
* `Store.Leaves.check` — what is left of a mover that has been checked.
-/

namespace MinimalistGrammar
namespace Store

/-- A feature has done what it is there for: it has checked another one or has been checked, or it
adjoins. -/
def IsSpent (s : Store) (fid : FeatureId) : Prop :=
  s.checks? fid ≠ none ∨ s.checker? fid ≠ none ∨ ∃ f, s.value? fid = some f ∧ f.sign = .adjunct

/-- Two features sit on one leaf. -/
def SameLeaf (s : Store) (a b : FeatureId) : Prop :=
  ∃ leaf, s.host? a = some leaf ∧ s.host? b = some leaf

/-- Those of some features that nothing has checked. -/
def unchecked (s : Store) (ids : List FeatureId) : List FeatureId :=
  ids.filter fun fid => (s.checker? fid).isNone

variable {s s' t : Store} {id selector selected part mover : ConstituentId} {a b fid : FeatureId}
  {probes goals ids : List FeatureId} {f g : Feature} {features features₂ : List Feature}
  {o o₁ o₂ om : Outline} {r : NodeRecord} {pending : PendingMovers}

/-! ### What checks change -/

/-- Only some probes may have checked something, and only some goals may have been checked. -/
structure Touches (s t : Store) (probes goals : List FeatureId) : Prop where
  value? (fid : FeatureId) : t.value? fid = s.value? fid
  host? (fid : FeatureId) : t.host? fid = s.host? fid
  checks? {fid : FeatureId} : fid ∉ probes → t.checks? fid = s.checks? fid
  checker? {fid : FeatureId} : fid ∉ goals → t.checker? fid = s.checker? fid

/-- The probes have checked the goals or adjoin, and the goals have been checked. -/
structure Checks (s t : Store) (probes goals : List FeatureId) :
    Prop extends s.Touches t probes goals where
  mem_goals {a b : FeatureId} : a ∈ probes → t.checks? a = some b → b ∈ goals
  probe {a : FeatureId} : a ∈ probes → t.IsSpent a
  goal {b : FeatureId} : b ∈ goals → t.checker? b ≠ none

/-- Nothing is touched as long as features are as they were. -/
theorem Touches.of_feature? (h : ∀ fid, t.feature? fid = s.feature? fid)
    (probes goals : List FeatureId) :
    s.Touches t probes goals where
  value? fid := by rw [Store.value?, h, Store.value?]
  host? fid := by rw [Store.host?, h, Store.host?]
  checks? {fid} _ := by rw [Store.checks?, h, Store.checks?]
  checker? {fid} _ := by rw [Store.checker?, h, Store.checker?]

theorem Touches.trans {s'' : Store} (h : s.Touches s' probes goals)
    (h' : s'.Touches s'' probes goals) :
    s.Touches s'' probes goals where
  value? fid := (h'.value? fid).trans (h.value? fid)
  host? fid := (h'.host? fid).trans (h.host? fid)
  checks? hfid := (h'.checks? hfid).trans (h.checks? hfid)
  checker? hfid := (h'.checker? hfid).trans (h.checker? hfid)

/-- A check touches its probe and its goal. -/
theorem touches_check (s : Store) (ha : a ∈ probes) (hb : b ∈ goals) :
    s.Touches (s.check a b) probes goals where
  value? fid := value?_check s a b fid
  host? fid := host?_check s a b fid
  checks? {fid} hfid := by
    rw [checks?_check, if_neg]
    rintro ⟨rfl, -⟩
    exact hfid ha
  checker? {fid} hfid := by
    rw [checker?_check, if_neg]
    rintro ⟨rfl, -⟩
    exact hfid hb

theorem active?_eq_head? (s : Store) (id : ConstituentId) :
    s.active? id = (s.featuresAt id).head? := by
  rw [active?_eq, featuresAt]
  cases s.outline? id <;> rfl

/-- A merge touches the active features of its parts. -/
theorem touches_buildMerge (s : Store) (r : NodeRecord) (isLexical : Bool)
    (selector selected : ConstituentId) :
    s.Touches (s.buildMerge r isLexical selector selected).1 ((s.featuresAt selector).take 1)
      ((s.featuresAt selected).take 1) := by
  have hactive : s.Touches (s.checkActive selector selected) ((s.featuresAt selector).take 1)
      ((s.featuresAt selected).take 1) := by
    rcases s.checkActive_cases selector selected with ⟨-, heq⟩ | ⟨probe, goal, hprobe,
      hgoal, -, heq⟩
    · rw [heq]
      exact .of_feature? (fun _ => rfl) _ _
    · rw [active?_eq_head?] at hprobe hgoal
      rw [heq]
      exact s.touches_check (by simp [List.take_one, hprobe]) (by simp [List.take_one, hgoal])
  exact hactive.trans (.of_feature? (fun _ => feature?_addProjection ..) _ _)

/-- A node with one part touches the active feature of the part, and a licensee of a node that is
filed under the name of this licensee. -/
theorem touches_buildUnary (s : Store) (r : NodeRecord) (part : ConstituentId)
    (pending : PendingMovers) :
    ∃ goals, s.Touches (s.buildUnary r part pending).1.1 ((s.featuresAt part).take 1) goals ∧
      ∀ goal ∈ goals, ∃ z m, pending.get? z = some m ∧ (z, goal) ∈ s.pendingLicensees m := by
  rw [buildUnary]
  split
  · next name mover hattracted =>
    have hm := get?_of_attracted? hattracted
    have hfeature (fid : FeatureId) : (s.buildMove r part mover name).1.feature? fid =
        (s.checkLicensee part mover name).feature? fid := feature?_addProjection ..
    -- the goal is looked up among the pending licensees of the mover
    rcases s.checkLicensee_cases part mover name with ⟨-, heq⟩ | ⟨a, b, ha, hb, -, heq⟩
    · refine ⟨[], .of_feature? (fun fid => ?_) _ _, fun _ hgoal => absurd hgoal List.not_mem_nil⟩
      exact (hfeature fid).trans (by rw [heq])
    · rw [active?_eq_head?] at ha
      rw [heq] at hfeature
      refine ⟨[b], ?_, fun goal hgoal => ⟨_, mover, hm, ?_⟩⟩
      · exact (s.touches_check (by simp [List.take_one, ha]) (List.mem_singleton_self _)).trans
          (.of_feature? hfeature _ _)
      · rw [List.mem_singleton.mp hgoal]
        exact hb
  · exact ⟨[], .of_feature? (fun _ => feature?_addProjection ..) _ _,
      fun _ hgoal => absurd hgoal List.not_mem_nil⟩

/-- Features stay on their leaves. -/
theorem Touches.sameLeaf_iff (h : s.Touches t probes goals) : t.SameLeaf a b ↔ s.SameLeaf a b := by
  rw [SameLeaf, h.host?, h.host?, SameLeaf]

/-- What is not touched is spent as it was. -/
theorem Touches.isSpent_iff (h : s.Touches t probes goals) (hprobe : fid ∉ probes)
    (hgoal : fid ∉ goals) : t.IsSpent fid ↔ s.IsSpent fid := by
  rw [IsSpent, h.checks? hprobe, h.checker? hgoal, h.value?, IsSpent]

/-- A feature that is not touched is pending where it was. -/
theorem Touches.mem_pendingLicensees_iff {z : String} (h : s.Touches t probes goals)
    (hgoal : fid ∉ goals) (hsame : t.featuresAt id = s.featuresAt id) :
    (z, fid) ∈ t.pendingLicensees id ↔ (z, fid) ∈ s.pendingLicensees id := by
  rw [Store.mem_pendingLicensees_iff, hsame, h.checker? hgoal, h.value?,
    Store.mem_pendingLicensees_iff]

/-- What is spent stays spent. -/
theorem Checks.isSpent (h : s.Checks t probes goals) (hfid : s.IsSpent fid) : t.IsSpent fid := by
  by_cases hprobe : fid ∈ probes
  · exact h.probe hprobe
  · rcases hfid with hchecks | hchecker | ⟨f, hf, hsign⟩
    · exact Or.inl (by rwa [h.checks? hprobe])
    · -- whatever has checked it before, a goal has been checked
      by_cases hgoal : fid ∈ goals
      · exact Or.inr (Or.inl (h.goal hgoal))
      · exact Or.inr (Or.inl (by rwa [h.checker? hgoal]))
    · exact Or.inr (Or.inr ⟨f, by rwa [h.value?], hsign⟩)

theorem Checks.congr (h : s.Checks s' probes goals)
    (heq : ∀ fid, t.feature? fid = s'.feature? fid) :
    s.Checks t probes goals where
  toTouches := h.toTouches.trans (.of_feature? heq _ _)
  mem_goals ha hlink := h.mem_goals ha (by rwa [Store.checks?, heq] at hlink)
  probe ha := by
    rw [IsSpent, Store.checks?, Store.checker?, Store.value?, heq]
    exact h.probe ha
  goal hb := by
    rw [Store.checker?, heq]
    exact h.goal hb

/-- A check of features that fit. -/
theorem Checks.of_check (hcan : s.canCheck a b = true)
    (hfeature : ∀ fid, t.feature? fid = (s.check a b).feature? fid) : s.Checks t [a] [b] where
  toTouches := (s.touches_check (List.mem_singleton_self _) (List.mem_singleton_self _)).trans
    (.of_feature? hfeature _ _)
  mem_goals {a' b'} ha' hlink := by
    rw [List.mem_singleton.mp ha', Store.checks?, hfeature, ← Store.checks?, checks?_check,
      if_pos ⟨rfl, hcan⟩, Option.some.injEq] at hlink
    exact hlink ▸ List.mem_singleton_self _
  probe {a'} ha' := by
    rw [List.mem_singleton.mp ha']
    refine Or.inl ?_
    rw [Store.checks?, hfeature, ← Store.checks?, checks?_check, if_pos ⟨rfl, hcan⟩]
    simp
  goal {b'} hb' := by
    rw [List.mem_singleton.mp hb', Store.checker?, hfeature, ← Store.checker?, checker?_check,
      if_pos ⟨rfl, hcan⟩]
    simp

/-- The first of the features that are left at a node is the active one. -/
theorem Bears.exists_cons (h : s.Bears ids (f :: features)) :
    ∃ a rest, ids = a :: rest ∧ s.value? a = some f := by
  obtain ⟨a, rest, hids, ha, -⟩ := List.map_eq_cons_iff.mp h.values
  exact ⟨a, rest, hids, ha⟩

/-- A selector checks the category of what it selects, and an adjunct checks nothing. -/
theorem checks_buildMerge (ho₁ : s.outline? selector = some o₁)
    (ho₂ : s.outline? selected = some o₂) (h₁ : s.Bears o₁.features (f :: features))
    (h₂ : s.Bears o₂.features features₂) (htakes : f.Takes features₂) (r : NodeRecord)
    (isLexical : Bool) :
    s.Checks (s.buildMerge r isLexical selector selected).1 (o₁.features.take 1)
      (o₂.features.take 1) := by
  have hfeature (fid : FeatureId) : (s.buildMerge r isLexical selector selected).1.feature? fid =
      (s.checkActive selector selected).feature? fid := feature?_addProjection ..
  obtain ⟨a, rest, ha, hvalue⟩ := h₁.exists_cons
  have hactive : s.active? selector = some a := by
    rw [active?_eq, ho₁, Option.bind_some, ha, List.head?_cons]
  rcases htakes with ⟨hsign, hhead⟩ | ⟨hsign, rfl⟩
  · obtain ⟨rest₂, rfl⟩ := List.head?_eq_some_iff.mp hhead
    obtain ⟨b, rest', hb, hvalue₂⟩ := h₂.exists_cons
    have hactive₂ : s.active? selected = some b := by
      rw [active?_eq, ho₂, Option.bind_some, hb, List.head?_cons]
    have hcan : s.canCheck a b = true := canCheck_iff.mpr ⟨f, _, hvalue, hvalue₂, by
      simp [Feature.fits, Feature.categorial, Sign.complementary, Sign.complement, hsign]⟩
    rw [ha, hb]
    refine .of_check hcan fun fid => ?_
    rw [hfeature, checkActive, hactive, hactive₂]
  · have hb : o₂.features = [] := by simpa using h₂.values
    have hactive₂ : s.active? selected = none := by
      rw [active?_eq, ho₂, Option.bind_some, hb, List.head?_nil]
    have hsame (fid : FeatureId) :
        (s.buildMerge r isLexical selector selected).1.feature? fid = s.feature? fid := by
      rw [hfeature, checkActive, hactive, hactive₂]
    have htouches := Touches.of_feature? hsame (o₁.features.take 1) (o₂.features.take 1)
    refine ⟨htouches, fun {a' b'} ha' hlink => ?_, fun {a'} ha' => ?_, fun {b'} hb' => ?_⟩
    · -- the adjunct is free
      rw [Store.checks?, hsame, ← Store.checks?, h₁.checks? (List.mem_of_mem_take ha')] at hlink
      exact absurd hlink (by simp)
    · rw [ha, List.take_succ_cons, List.take_zero, List.mem_singleton] at ha'
      exact Or.inr (Or.inr ⟨f, by rw [htouches.value?, ha', hvalue], hsign⟩)
    · rw [hb] at hb'
      exact absurd hb' (by simp)

/-- The first pending licensee of a node is found under its name. -/
theorem lookup_pendingLicensees {rest : List FeatureId} (ho : s.outline? id = some o)
    (h : s.unchecked o.features = b :: rest) (hvalue : s.value? b = some g)
    (hsign : g.sign = .licensee) : (s.pendingLicensees id).lookup g.name = some b := by
  obtain ⟨before, after, heq, hbefore, hb, -⟩ := List.filter_eq_cons_iff.mp h
  obtain ⟨occurrence, hstored, rfl⟩ := Option.map_eq_some_iff.mp hvalue
  have hnone : before.filterMap (fun fid => ((s.feature? fid).filter (·.isPending)).map fun f =>
      (f.feature.name, fid)) = [] := by
    refine List.filterMap_eq_nil_iff.mpr fun fid hfid => ?_
    have hchecked := hbefore fid hfid
    rw [checker?] at hchecked
    cases hfeature : s.feature? fid with
    | none => rfl
    | some f =>
      rw [hfeature, Option.bind_some] at hchecked
      rw [Option.filter_some, if_neg, Option.map_none]
      simp [FeatureOccurrence.isPending, hchecked]
  have hpending : occurrence.isPending = true := by
    rw [checker?, hstored, Option.bind_some] at hb
    simp [FeatureOccurrence.isPending, hsign, hb]
  rw [pendingLicensees_eq, featuresAt_eq ho, heq, List.filterMap_append, hnone, List.nil_append,
    List.filterMap_cons, hstored, Option.filter_some, if_pos hpending, Option.map_some,
    List.lookup_cons, beq_self_eq_true]

/-- A licensor checks the first licensee that a mover has left. -/
theorem checks_buildMove {rest : List FeatureId} (ho : s.outline? part = some o)
    (h : s.Bears o.features (f :: features)) (hsign : f.sign = .licensor)
    (hom : s.outline? mover = some om) (hgoal : s.unchecked om.features = b :: rest)
    (hvalue : s.value? b = some g) (hsign' : g.sign = .licensee) (hname : f.name = g.name)
    (r : NodeRecord) : s.Checks (s.buildMove r part mover g.name).1 (o.features.take 1) [b] := by
  have hfeature (fid : FeatureId) : (s.buildMove r part mover g.name).1.feature? fid =
      (s.checkLicensee part mover g.name).feature? fid := feature?_addProjection ..
  obtain ⟨a, rest', ha, hprobe⟩ := h.exists_cons
  have hactive : s.active? part = some a := by
    rw [active?_eq, ho, Option.bind_some, ha, List.head?_cons]
  have hlookup := lookup_pendingLicensees hom hgoal hvalue hsign'
  have hcan : s.canCheck a b = true := canCheck_iff.mpr ⟨f, g, hprobe, hvalue, by
    simp [Feature.fits, Sign.complementary, Sign.complement, hsign, hsign', hname]⟩
  rw [ha]
  refine .of_check hcan fun fid => ?_
  rw [hfeature, checkLicensee, hactive, hlookup]

/-! ### What a mover has left -/

theorem open?_eq_some_iff :
    s.open? fid = some f ↔ s.value? fid = some f ∧ s.checker? fid = none := by
  rw [open?, value?, checker?]
  cases s.feature? fid with
  | none => simp
  | some occurrence => cases h : occurrence.checkedBy <;> simp [Option.filter_some, h]

/-- When the first of the features that nothing has checked is checked, nothing has checked the
others. -/
theorem Checks.unchecked_eq (hnodup : ids.Nodup)
    (h : s.Checks t probes ((s.unchecked ids).take 1)) :
    t.unchecked ids = (s.unchecked ids).drop 1 := by
  have hgoal (fid : FeatureId) : t.checker? fid = none ↔
      s.checker? fid = none ∧ fid ∉ (s.unchecked ids).take 1 := by
    -- of what was unchecked, only the first one has been checked
    by_cases hfid : fid ∈ (s.unchecked ids).take 1
    · exact iff_of_false (h.goal hfid) fun hnot => hnot.2 hfid
    · rw [h.checker? hfid, and_iff_left hfid]
  have hrest : t.unchecked ids = (s.unchecked ids).filter fun fid => (t.checker? fid).isNone := by
    rw [unchecked, unchecked, List.filter_filter]
    refine List.filter_congr fun fid _ => ?_
    rw [Bool.eq_iff_iff, Bool.and_eq_true, Option.isNone_iff_eq_none, Option.isNone_iff_eq_none]
    exact ⟨fun hnone => ⟨hnone, ((hgoal fid).mp hnone).1⟩, And.left⟩
  rw [hrest]
  have hdiffer : (s.unchecked ids).Nodup := hnodup.filter _
  have hfree {fid : FeatureId} (hfid : fid ∈ s.unchecked ids) : s.checker? fid = none := by
    simpa using (List.mem_filter.mp hfid).2
  generalize s.unchecked ids = left at hgoal hdiffer hfree
  cases left with
  | nil => rfl
  | cons b rest =>
    obtain ⟨hnotMem, -⟩ := List.nodup_cons.mp hdiffer
    rw [List.filter_cons_of_neg, List.drop_one, List.tail_cons, List.filter_eq_self]
    · intro fid hfid
      rw [Option.isNone_iff_eq_none, hgoal]
      refine ⟨hfree (List.mem_cons_of_mem _ hfid), fun hmem => ?_⟩
      rw [List.take_succ_cons, List.take_zero, List.mem_singleton] at hmem
      exact hnotMem (hmem ▸ hfid)
    · rw [Option.isNone_iff_eq_none, hgoal]
      exact fun hnot => hnot.2 (by simp)

/-- The features at a node of a mover are all different and have checked nothing, and those that
nothing has checked are known of what is left of the mover. -/
structure Leaves (s : Store) (ids : List FeatureId) (features : List Feature) : Prop where
  nodup : ids.Nodup
  checks? {fid : FeatureId} : fid ∈ ids → s.checks? fid = none
  left : ∃ known, (s.unchecked ids).map s.value? = known.map some ∧ IsKnownOf known features

namespace Leaves

/-- Of features that are as they were the same is left. -/
theorem congr (h : s.Leaves ids features) (hvalue : ∀ fid ∈ ids, t.value? fid = s.value? fid)
    (hchecks : ∀ fid ∈ ids, t.checks? fid = s.checks? fid)
    (hchecker : ∀ fid ∈ ids, t.checker? fid = s.checker? fid) : t.Leaves ids features where
  nodup := h.nodup
  checks? hfid := (hchecks _ hfid).trans (h.checks? hfid)
  left := by
    obtain ⟨known, hvalues, hknown⟩ := h.left
    have hsame : t.unchecked ids = s.unchecked ids :=
      List.filter_congr fun fid hfid => by rw [hchecker fid hfid]
    refine ⟨known, ?_, hknown⟩
    rw [hsame, ← hvalues]
    exact List.map_congr_left fun fid hfid => hvalue fid (List.mem_of_mem_filter hfid)

/-- When no feature is left, all have been checked. -/
theorem checker?_ne_none (h : s.Leaves ids []) (hfid : fid ∈ ids) : s.checker? fid ≠ none := by
  obtain ⟨known, hvalues, hknown⟩ := h.left
  rw [hknown.eq_nil, List.map_nil, List.map_eq_nil_iff] at hvalues
  intro hnone
  have hmem : fid ∈ s.unchecked ids := List.mem_filter.mpr ⟨hfid, by simp [hnone]⟩
  rw [hvalues] at hmem
  exact absurd hmem List.not_mem_nil

/-- When the first feature that is left is checked, the others are left. -/
theorem check (h : s.Leaves ids features) (hchecks : s.Checks t probes ((s.unchecked ids).take 1))
    (hprobes : ∀ fid ∈ ids, fid ∉ probes) : t.Leaves ids features.tail where
  nodup := h.nodup
  checks? hfid := (hchecks.checks? (hprobes _ hfid)).trans (h.checks? hfid)
  left := by
    obtain ⟨known, hvalues, hknown⟩ := h.left
    refine ⟨known.tail, ?_, hknown.tails⟩
    rw [hchecks.unchecked_eq h.nodup, List.map_drop, ← List.drop_one, List.map_drop, ← hvalues]
    exact congrArg (List.drop 1) (List.map_congr_left fun fid _ => hchecks.value? fid)

end Leaves

end Store
end MinimalistGrammar
