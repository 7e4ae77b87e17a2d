import MinimalistGrammar.Proofs.Monorail.Edges
import MinimalistGrammar.Proofs.Tree.Linking

/-!
# The checks of a sentence

A selector, a licensee or an adjunct finds a category of its name. The feature is used up then, and
so is the category, unless an adjunct has found it. The parser keeps the features that are used up
in a set. Which ones these are can also be told from the checks that have been made, and that is how
it is said here.

A merge makes at most one check, between features of its two parts that are not used up. It makes
one whenever it can.

## Main definitions

* `Store.FindsCategory` — a feature finds a category.
* `Store.IsUsed` — the features that some checks use up.
* `Store.MayCheck` — a feature of one node finds a category of another one, and neither is used up.
* `Store.KeepsEach` — a list without its repetitions.
* `Store.IsMerged` — the node on top after a merge, and the check that has been made.
* `Store.ChecksOnce` — links made by checks, each probe once and no category after it is consumed.
* `Store.Tracks` — the set of used features agrees with the checks that have been made.

## Main results

* `Store.Tracks.checkingPair?_eq_none_iff` — no check is made only if there is none to make.
* `Store.Tracks.mergeOnTop` — one merge more.
* `Store.Tracks.isMerged_mergeOnTop` — the node that a merge adds.
-/

namespace MinimalistGrammar

variable {l : List (FeatureId × Feature)} {f : FeatureId × Feature}

theorem unrepeated_sublist (l : List (FeatureId × Feature)) : (unrepeated l).Sublist l := by
  induction l with
  | nil => exact .slnil
  | cons f l ih => exact (List.filter_sublist.trans ih).cons_cons f

theorem pairwise_unrepeated (l : List (FeatureId × Feature)) :
    (unrepeated l).Pairwise fun f g => f.2.agrees g.2 = false := by
  induction l with
  | nil => exact .nil
  | cons f l ih =>
    refine .cons (fun g hg => ?_) (ih.sublist List.filter_sublist)
    simpa using (List.mem_filter.mp hg).2

theorem exists_mem_unrepeated (h : f ∈ l) : ∃ g ∈ unrepeated l, g.2.agrees f.2 = true := by
  have hself (f : Feature) : f.agrees f = true := Feature.agrees_iff.mpr ⟨rfl, rfl⟩
  induction l with
  | nil => exact absurd h List.not_mem_nil
  | cons first l ih =>
    by_cases hfirst : first.2.agrees f.2 = true
    · exact ⟨first, List.mem_cons_self .., hfirst⟩
    · rcases List.mem_cons.mp h with rfl | h
      · exact absurd (hself _) hfirst
      · obtain ⟨g, hg, hagrees⟩ := ih h
        refine ⟨g, List.mem_cons_of_mem _ (List.mem_filter.mpr ⟨hg, ?_⟩), hagrees⟩
        -- two features that agree with a third one agree
        rw [Bool.not_eq_true', Bool.eq_false_iff]
        intro hfg
        obtain ⟨hname, hsign⟩ := Feature.agrees_iff.mp hfg
        obtain ⟨hname', hsign'⟩ := Feature.agrees_iff.mp hagrees
        exact hfirst (Feature.agrees_iff.mpr ⟨hname.trans hname', hsign.trans hsign'⟩)

namespace Store

variable {start s s' : Store} {used : IdentSet .feature} {made new : List (FeatureId × FeatureId)}
  {left right top id : ConstituentId} {probe goal fid : FeatureId} {c : FeatureId × FeatureId}

/-! ### Checks -/

/-- A selector, a licensee or an adjunct finds a category of its name. -/
def FindsCategory (s : Store) (probe goal : FeatureId) : Prop :=
  ∃ f g, s.value? probe = some f ∧ s.value? goal = some g ∧ f.name = g.name ∧
    (f.sign = .selector ∨ f.sign = .licensee ∨ f.sign = .adjunct) ∧ g.sign = .categorial

/-- A selector and a licensee consume the category that they find. -/
def Consumes (s : Store) (probe : FeatureId) : Prop :=
  s.sign? probe = some .selector ∨ s.sign? probe = some .licensee

instance : Decidable (s.Consumes probe) := inferInstanceAs (Decidable (_ ∨ _))

/-- A feature is used up by some checks: it has found a category, or it is one that has been
consumed. -/
def IsUsed (s : Store) (made : List (FeatureId × FeatureId)) (fid : FeatureId) : Prop :=
  ∃ c ∈ made, c.1 = fid ∨ c.2 = fid ∧ s.Consumes c.1

instance : Decidable (s.IsUsed made fid) := inferInstanceAs (Decidable (∃ c ∈ made, _))

/-- A feature of the left node finds a category of the right one, and the checks made so far have
used up neither of them. -/
structure MayCheck (s : Store) (made : List (FeatureId × FeatureId)) (left right : ConstituentId)
    (probe goal : FeatureId) : Prop where
  probe_mem : probe ∈ s.featuresAt left
  goal_mem : goal ∈ s.featuresAt right
  probe_open : ¬s.IsUsed made probe
  goal_open : ¬s.IsUsed made goal
  finds : s.FindsCategory probe goal

section congr

variable (hvalue : ∀ fid, s'.value? fid = s.value? fid)

theorem sign?_eq (s : Store) (fid : FeatureId) : s.sign? fid = (s.value? fid).map (·.sign) := by
  rw [sign?, value?, Option.map_map]
  rfl

theorem consumes_congr (h : s'.value? probe = s.value? probe) :
    s'.Consumes probe ↔ s.Consumes probe := by
  rw [Consumes, sign?_eq, h, ← sign?_eq, Consumes]

include hvalue

theorem findsCategory_congr : s'.FindsCategory probe goal ↔ s.FindsCategory probe goal := by
  rw [FindsCategory, hvalue, hvalue, FindsCategory]

theorem isUsed_congr : s'.IsUsed made fid ↔ s.IsUsed made fid := by
  simp only [IsUsed, consumes_congr (hvalue _)]

/-- What a feature may check depends on the features of the two nodes only. -/
theorem MayCheck.congr (h : s.MayCheck made left right probe goal)
    (hleft : s'.featuresAt left = s.featuresAt left)
    (hright : s'.featuresAt right = s.featuresAt right) :
    s'.MayCheck made left right probe goal where
  probe_mem := hleft ▸ h.probe_mem
  goal_mem := hright ▸ h.goal_mem
  probe_open := (isUsed_congr hvalue).not.mpr h.probe_open
  goal_open := (isUsed_congr hvalue).not.mpr h.goal_open
  finds := (findsCategory_congr hvalue).mpr h.finds

end congr

theorem isUsed_concat : s.IsUsed (made ++ [c]) fid ↔
    s.IsUsed made fid ∨ c.1 = fid ∨ c.2 = fid ∧ s.Consumes c.1 := by
  simp only [IsUsed, List.mem_append, List.mem_singleton, or_and_right, exists_or, exists_eq_left]

/-- A feature that finds a category without consuming it is an adjunct. -/
theorem FindsCategory.sign?_eq_adjunct (h : s.FindsCategory probe goal) (hnot : ¬s.Consumes probe) :
    s.sign? probe = some .adjunct := by
  obtain ⟨f, -, hf, -, -, hsign, -⟩ := h
  rw [Consumes, sign?_eq, hf, Option.map_some, Option.some.injEq, Option.some.injEq] at hnot
  rw [sign?_eq, hf, Option.map_some, Option.some.injEq]
  rcases hsign with hselector | hlicensee | hadjunct
  · exact absurd (Or.inl hselector) hnot
  · exact absurd (Or.inr hlicensee) hnot
  · exact hadjunct

theorem findsCategory_iff {f : Feature} : f.sign.findsCategory = true ↔
    f.sign = .selector ∨ f.sign = .licensee ∨ f.sign = .adjunct := by
  cases f.sign <;> decide

/-! ### Repetitions -/

/-- Two features have one name and one sign. -/
def SameFeature (s : Store) (a b : FeatureId) : Prop :=
  ∃ f g, s.value? a = some f ∧ s.value? b = some g ∧ f.agrees g = true

/-- Some features are those of a list, in its order, without repeated values. -/
structure KeepsEach (s : Store) (kept all : List FeatureId) : Prop where
  sublist : kept.Sublist all
  distinct : kept.Pairwise fun a b => ¬s.SameFeature a b
  complete {fid : FeatureId} : fid ∈ all → ∃ a ∈ kept, s.SameFeature a fid

theorem KeepsEach.congr {kept all : List FeatureId} (h : s.KeepsEach kept all)
    (hvalue : ∀ fid, s'.value? fid = s.value? fid) : s'.KeepsEach kept all := by
  have hsame {a b : FeatureId} : s'.SameFeature a b ↔ s.SameFeature a b := by
    rw [SameFeature, hvalue, hvalue, SameFeature]
  refine ⟨h.sublist, h.distinct.imp fun hne => hsame.not.mpr hne, fun hfid => ?_⟩
  obtain ⟨a, ha, heq⟩ := h.complete hfid
  exact ⟨a, ha, hsame.mpr heq⟩

theorem openFeatures_eq (s : Store) (used : IdentSet .feature) (id : ConstituentId) :
    s.openFeatures used id = ((s.featuresAt id).filter (! used.contains ·)).filterMap fun fid =>
      (s.value? fid).map fun f => (fid, f) := by
  have hvalue (fid : FeatureId) :
      (s.feature? fid).map (fun occurrence => (fid, occurrence.feature)) =
      (s.value? fid).map fun f => (fid, f) := by
    rw [value?, Option.map_map]
    rfl
  rw [openFeatures, featuresAt, outline?]
  simp only [hvalue]
  cases s.constituent? id <;> rfl

theorem mem_openFeatures_iff : f ∈ s.openFeatures used id ↔
    f.1 ∈ s.featuresAt id ∧ used.contains f.1 = false ∧ s.value? f.1 = some f.2 := by
  rw [openFeatures_eq, List.mem_filterMap]
  constructor
  · rintro ⟨fid, hfid, heq⟩
    obtain ⟨value, hvalue, rfl⟩ := Option.map_eq_some_iff.mp heq
    obtain ⟨hmem, hopen⟩ := List.mem_filter.mp hfid
    exact ⟨hmem, by simpa using hopen, hvalue⟩
  · rintro ⟨hmem, hopen, hvalue⟩
    refine ⟨f.1, List.mem_filter.mpr ⟨hmem, by rw [hopen]; rfl⟩, ?_⟩
    rw [hvalue, Option.map_some]

/-- The features that are not used up, each of them once. -/
theorem keepsEach_openFeatures (hstored : ∀ fid ∈ s.featuresAt id, s.value? fid ≠ none) :
    s.KeepsEach ((unrepeated (s.openFeatures used id)).map (·.1))
      ((s.featuresAt id).filter (! used.contains ·)) := by
  have hvalue {f : FeatureId × Feature} (hf : f ∈ unrepeated (s.openFeatures used id)) :
      s.value? f.1 = some f.2 := (mem_openFeatures_iff.mp (mem_unrepeated hf)).2.2
  have hall {ids : List FeatureId} :
      ((ids.filterMap fun fid => (s.value? fid).map fun f => (fid, f)).map (·.1)).Sublist ids := by
    induction ids with
    | nil => exact .slnil
    | cons fid ids ih =>
      rw [List.filterMap_cons]
      cases s.value? fid with
      | none => exact ih.cons fid
      | some f => exact ih.cons_cons fid
  -- they come in order, no two of them agree, and each open feature agrees with one of them
  refine ⟨?_, ?_, fun {fid} hfid => ?_⟩
  · refine ((unrepeated_sublist _).map _).trans ?_
    rw [openFeatures_eq]
    exact hall
  · rw [List.pairwise_map]
    refine (pairwise_unrepeated _).imp_of_mem fun hf hg hne => ?_
    rintro ⟨f', g', hf', hg', hagrees⟩
    obtain rfl := Option.some.inj ((hvalue hf).symm.trans hf')
    obtain rfl := Option.some.inj ((hvalue hg).symm.trans hg')
    rw [hne] at hagrees
    exact absurd hagrees (by decide)
  · obtain ⟨hmem, hopen⟩ := List.mem_filter.mp hfid
    obtain ⟨f, hf⟩ := Option.ne_none_iff_exists'.mp (hstored fid hmem)
    have hopen' : (fid, f) ∈ s.openFeatures used id :=
      mem_openFeatures_iff.mpr ⟨hmem, by simpa using hopen, hf⟩
    obtain ⟨g, hg, hagrees⟩ := exists_mem_unrepeated hopen'
    exact ⟨g.1, List.mem_map_of_mem hg, g.2, f, hvalue hg, hf, hagrees⟩

/-! ### What has been added -/

/-- Nothing has been added, and no feature has changed. -/
structure Coincides (s s' : Store) : Prop extends s.Retains s' where
  nodes : s'.nextConstituent = s.nextConstituent
  features : s'.nextFeature = s.nextFeature
  feature? (fid : FeatureId) : s'.feature? fid = s.feature? fid

theorem Coincides.refl (s : Store) : s.Coincides s := ⟨.refl s, rfl, rfl, fun _ => rfl⟩

theorem Coincides.trans {s'' : Store} (h : s.Coincides s') (h' : s'.Coincides s'') :
    s.Coincides s'' :=
  ⟨h.toRetains.trans h'.toRetains, h'.nodes.trans h.nodes, h'.features.trans h.features,
    fun fid => (h'.feature? fid).trans (h.feature? fid)⟩

theorem coincides_land (s : Store) (node top : ConstituentId) : s.Coincides (s.land node top) :=
  ⟨s.retains_land node top, rfl, rfl, fun _ => rfl⟩

theorem coincides_raisingGroup (s : Store) (raising : Option ConstituentId) :
    s.Coincides (Sentence.raisingGroup s raising).1 := by
  obtain ⟨hnodes, hfeatures⟩ := s.next_raisingGroup raising
  refine ⟨s.retains_raisingGroup raising, hnodes, hfeatures, fun fid => ?_⟩
  cases raising <;> rfl

/-- The parts and the features of the nodes that have been added have been added themselves, and the
parts are older. -/
structure Confines (start s : Store) : Prop where
  nextConstituent : start.nextConstituent ≤ s.nextConstituent
  parts {id part : ConstituentId} {parts : List ConstituentId} : start.Added s (.constituent id) →
    s.parts? id = some parts → part ∈ parts → start.Added s (.constituent part) ∧
      part.index < id.index
  features {id : ConstituentId} {fid : FeatureId} : start.Added s (.constituent id) →
    fid ∈ s.featuresAt id → start.Added s (.feature fid)

theorem Confines.refl (start : Store) : start.Confines start where
  nextConstituent := Nat.le_refl _
  parts h := absurd h.2 h.1
  features h := absurd h.2 h.1

/-- If the new nodes are made of what has been added, all are. -/
theorem Confines.grow (h : start.Confines s) (hs : s.Retains s')
    (hparts : ∀ id part parts, s.nextConstituent ≤ id.index → id.index < s'.nextConstituent →
      s'.parts? id = some parts → part ∈ parts →
        start.Added s (.constituent part) ∧ part.index < id.index)
    (hfeatures : ∀ id fid, s.nextConstituent ≤ id.index → id.index < s'.nextConstituent →
      fid ∈ s'.featuresAt id → start.Added s' (.feature fid)) : start.Confines s' where
  nextConstituent := Nat.le_trans h.nextConstituent hs.nextConstituent
  parts {id part parts} hid hmem hpart := by
    by_cases hlt : id.index < s.nextConstituent
    · rw [hs.parts? hlt] at hmem
      obtain ⟨hadded, holder⟩ := h.parts ⟨hid.1, hlt⟩ hmem hpart
      exact ⟨hadded.mono hs.nextConstituent hs.nextFeature, holder⟩
    · obtain ⟨hadded, holder⟩ := hparts id part parts (Nat.not_lt.mp hlt) hid.2 hmem hpart
      exact ⟨hadded.mono hs.nextConstituent hs.nextFeature, holder⟩
  features {id fid} hid hmem := by
    by_cases hlt : id.index < s.nextConstituent
    · rw [hs.featuresAt hlt] at hmem
      exact (h.features ⟨hid.1, hlt⟩ hmem).mono hs.nextConstituent hs.nextFeature
    · exact hfeatures id fid (Nat.not_lt.mp hlt) hid.2 hmem

theorem Confines.congr (h : start.Confines s) (hs : s.Coincides s') : start.Confines s' := by
  have hnew {id : ConstituentId} (hle : s.nextConstituent ≤ id.index) :
      ¬id.index < s'.nextConstituent := by
    rw [hs.nodes]
    exact Nat.not_lt.mpr hle
  refine h.grow hs.toRetains (fun id _ _ hle hlt => ?_) fun id _ hle hlt => ?_
  · exact absurd hlt (hnew hle)
  · exact absurd hlt (hnew hle)

/-! ### The features that are used up -/

/-- The links since the store `start` are those of some checks. Each of them finds a category. A
feature finds at most one, and a category that is found again has only been found by adjuncts
before. -/
structure ChecksOnce (start s : Store) (made : List (FeatureId × FeatureId)) : Prop where
  /-- All other features are as they were. -/
  old {fid : FeatureId} : ¬start.Added s (.feature fid) → s.feature? fid = start.feature? fid
  linked {probe goal : FeatureId} : (probe, goal) ∈ made ↔
    start.Added s (.feature probe) ∧ s.checks? probe = some goal
  finds {probe goal : FeatureId} : (probe, goal) ∈ made → s.FindsCategory probe goal
  once : (made.map (·.1)).Nodup
  consumed : made.Pairwise fun c c' => c.2 = c'.2 → s.sign? c.1 = some .adjunct

/-- What is known of the features that have been added since the store `start`, after some checks of
theirs. -/
structure Tracks (start s : Store) (used : IdentSet .feature)
    (made : List (FeatureId × FeatureId)) :
    Prop where
  nextFeature : start.nextFeature ≤ s.nextFeature
  old {fid : FeatureId} : ¬start.Added s (.feature fid) → s.feature? fid = start.feature? fid
  stored {fid : FeatureId} : start.Added s (.feature fid) → s.value? fid ≠ none
  links {fid : FeatureId} : start.Added s (.feature fid) → s.HasLinks made fid
  found {probe goal : FeatureId} : (probe, goal) ∈ made → start.Added s (.feature probe) ∧
    start.Added s (.feature goal) ∧ s.FindsCategory probe goal
  once : (made.map (·.1)).Nodup
  consumed : made.Pairwise fun c c' => c.2 = c'.2 → s.sign? c.1 = some .adjunct
  used_iff {fid : FeatureId} : used.contains fid = true ↔ s.IsUsed made fid

/-- New features change no others. -/
theorem feature?_addFeatures_of_not_mem {host : ConstituentId} {features : List Feature}
    (h : fid ∉ (s.addFeatures host features).2) :
    (s.addFeatures host features).1.feature? fid = s.feature? fid := by
  induction features generalizing s with
  | nil => rfl
  | cons f features ih =>
    obtain ⟨hne, hnot⟩ := List.ne_and_not_mem_of_not_mem_cons h
    exact (ih hnot).trans ((feature?_addFeature ..).trans (if_neg hne))

namespace Tracks

theorem refl (start : Store) : start.Tracks start ∅ [] where
  nextFeature := Nat.le_refl _
  old _ := rfl
  stored h := absurd h.2 h.1
  links h := absurd h.2 h.1
  found h := absurd h List.not_mem_nil
  once := List.nodup_nil
  consumed := .nil
  used_iff := by simp [IsUsed]

/-- Each check finds a category, and is the only one of its probe. -/
theorem checksOnce (h : start.Tracks s used made) : start.ChecksOnce s made where
  old := h.old
  linked {probe goal} := by
    constructor
    · intro hmem
      have hadded := (h.found hmem).1
      obtain ⟨goal', hlast⟩ := exists_lastGoal? hmem
      -- the last check of the probe is the only one
      have heq := List.inj_on_of_nodup_map h.once (mem_of_lastGoal? hlast) hmem rfl
      rw [(h.links hadded).checks?, hlast, (Prod.mk.inj heq).2]
      exact ⟨hadded, rfl⟩
    · rintro ⟨hadded, hchecks⟩
      rw [(h.links hadded).checks?] at hchecks
      exact mem_of_lastGoal? hchecks
  finds hmem := (h.found hmem).2.2
  once := h.once
  consumed := h.consumed

/-- New features have no links, and nothing else changes. -/
theorem grow (h : start.Tracks s used made) (hnext : s.nextFeature ≤ s'.nextFeature)
    (hnodes : s.nextConstituent ≤ s'.nextConstituent)
    (hold : ∀ fid, ¬s.Added s' (.feature fid) → s'.feature? fid = s.feature? fid)
    (hnew : ∀ fid, s.Added s' (.feature fid) → ∃ f host,
      s'.feature? fid = some { feature := f, host }) :
    start.Tracks s' used made := by
  have hissued {fid : FeatureId} (hlt : fid.index < s.nextFeature) :
      s'.feature? fid = s.feature? fid :=
    hold fid fun hadded => hadded.1 hlt
  have hvalue {fid : FeatureId} (hfid : start.Added s (.feature fid)) :
      s'.value? fid = s.value? fid := by
    rw [value?, hissued hfid.2, value?]
  have hprobe {c : FeatureId × FeatureId} (hc : c ∈ made) : s'.value? c.1 = s.value? c.1 :=
    hvalue (h.found hc).1
  refine ⟨Nat.le_trans h.nextFeature hnext, fun {fid} hfid => ?old, fun {fid} hfid => ?stored,
    fun {fid} hfid => ?links, fun {probe goal} hmem => ?found, h.once, ?consumed,
    fun {fid} => ?used⟩
  case old =>
    rw [hold fid, h.old]
    · exact fun hadded => hfid (hadded.mono hnodes hnext)
    · exact fun hadded => hfid ⟨fun hlt => hadded.1 (Nat.lt_of_lt_of_le hlt h.nextFeature),
        hadded.2⟩
  case stored =>
    by_cases hlt : fid.index < s.nextFeature
    · rw [hvalue ⟨hfid.1, hlt⟩]
      exact h.stored ⟨hfid.1, hlt⟩
    · obtain ⟨f, host, hf⟩ := hnew fid ⟨hlt, hfid.2⟩
      rw [value?, hf]
      exact Option.some_ne_none f
  -- no check has been made with a new feature, so it is linked to none
  case links =>
    by_cases hlt : fid.index < s.nextFeature
    · exact (h.links ⟨hfid.1, hlt⟩).congr (hissued hlt)
    · obtain ⟨f, host, hf⟩ := hnew fid ⟨hlt, hfid.2⟩
      constructor
      · rw [Store.checks?, hf, eq_comm]
        refine Option.eq_none_iff_forall_ne_some.mpr fun goal hgoal => ?_
        exact hlt (h.found (mem_of_lastGoal? hgoal)).1.2
      · rw [Store.checker?, hf, eq_comm]
        refine Option.eq_none_iff_forall_ne_some.mpr fun probe hprobe => ?_
        exact hlt (h.found (mem_of_lastProbe? hprobe)).2.1.2
  case found =>
    obtain ⟨hp, hg, hfinds⟩ := h.found hmem
    refine ⟨hp.mono hnodes hnext, hg.mono hnodes hnext, ?_⟩
    rwa [FindsCategory, hvalue hp, hvalue hg]
  case consumed =>
    refine h.consumed.imp_of_mem fun {c c'} hc _ hadjunct heq => ?_
    rw [sign?_eq, hprobe hc, ← sign?_eq]
    exact hadjunct heq
  case used =>
    rw [h.used_iff, IsUsed, IsUsed]
    refine exists_congr fun c => and_congr_right fun hc => ?_
    rw [consumes_congr (hprobe hc)]

/-- Only the features of a store count. -/
theorem congr (h : start.Tracks s used made) (hnodes : s.nextConstituent ≤ s'.nextConstituent)
    (hnext : s'.nextFeature = s.nextFeature) (hfeature : ∀ fid, s'.feature? fid = s.feature? fid) :
    start.Tracks s' used made := by
  refine h.grow (Nat.le_of_eq hnext.symm) hnodes (fun fid _ => hfeature fid) fun fid hadded => ?_
  have hissued : fid.index < s'.nextFeature := hadded.2
  rw [hnext] at hissued
  exact absurd hissued hadded.1

/-- A leaf has new features. -/
theorem addLeaf (h : start.Tracks s used made) (label : String) (features : List Feature) :
    start.Tracks (s.addLeaf label features).1 used made := by
  have hgrows := s.retains_addLeaf label features
  obtain ⟨hoccurrences, -, -⟩ :=
    (s.addNode { label }).1.addFeatures_occurrences ⟨s.nextConstituent⟩ features
  refine h.grow hgrows.nextFeature hgrows.nextConstituent (fun fid hfid => ?_) fun fid hadded => ?_
  · exact feature?_addFeatures_of_not_mem fun hmem =>
      hfid ⟨Nat.not_lt.mpr ((mem_addFeatures_iff ..).mp hmem).1,
        ((mem_addFeatures_iff ..).mp hmem).2⟩
  · have hmem : fid ∈ ((s.addNode { label }).1.addFeatures ⟨s.nextConstituent⟩ features).2 :=
      (mem_addFeatures_iff ..).mpr ⟨Nat.not_lt.mp hadded.1, hadded.2⟩
    obtain ⟨f, -, hf⟩ := List.mem_map.mp (hoccurrences ▸ List.mem_map_of_mem hmem)
    exact ⟨f, some ⟨s.nextConstituent⟩, hf.symm⟩

/-- A check uses up its probe, and the goal if the probe consumes it. -/
theorem contains_spend (s : Store) (used : IdentSet .feature) (probe goal : FeatureId) :
    (s.spend used (probe, goal)).contains fid = true ↔
      used.contains fid = true ∨ probe = fid ∨ goal = fid ∧ s.Consumes probe := by
  have hinsert {used : IdentSet .feature} {a : FeatureId} :
      (used.insert a).contains fid = true ↔ used.contains fid = true ∨ a = fid := by
    rw [Std.TreeSet.contains_insert, Bool.or_eq_true, beq_iff_eq, Std.LawfulEqCmp.compare_eq_iff_eq,
      or_comm]
  rw [spend, Consumes]
  split
  · next hsign => rw [hinsert, hinsert, or_assoc, and_iff_left (Or.inl hsign)]
  · next hsign => rw [hinsert, hinsert, or_assoc, and_iff_left (Or.inr hsign)]
  · next hselector hlicensee =>
    have hnot : ¬(goal = fid ∧ (s.sign? probe = some .selector ∨ s.sign? probe = some .licensee)) :=
      fun hgoal => hgoal.2.elim hselector hlicensee
    rw [hinsert, or_iff_left hnot]

/-- One check more, of features that are not used up. -/
theorem link (h : start.Tracks s used made) (hcheck : s.MayCheck made left right probe goal)
    (hprobe : start.Added s (.feature probe)) (hgoal : start.Added s (.feature goal)) :
    start.Tracks (s.link probe goal) (s.spend used (probe, goal)) (made ++ [(probe, goal)]) := by
  have hvalue (fid : FeatureId) : (s.link probe goal).value? fid = s.value? fid :=
    s.map_feature_feature?_link probe goal fid
  have hstored {fid : FeatureId} (hfid : start.Added s (.feature fid)) : s.feature? fid ≠ none :=
    fun hnone => h.stored hfid (by rw [value?, hnone, Option.map_none])
  refine ⟨h.nextFeature, fun {fid} hfid => ?old, fun {fid} hfid => ?stored,
    fun {fid} hfid => ?links, fun {probe' goal'} hmem => ?found, ?once, ?consumed,
    fun {fid} => ?used⟩
  case old =>
    -- neither feature was there before
    have hne {a : FeatureId} (ha : start.Added s (.feature a)) : fid ≠ a := by
      rintro rfl
      exact hfid ha
    rw [feature?_link, h.old hfid]
    simp only [if_neg (hne hprobe), if_neg (hne hgoal)]
    exact Option.map_id'
  case stored =>
    rw [hvalue]
    exact h.stored hfid
  case links => exact (h.links hfid).link (hstored hprobe) (hstored hgoal)
  case found =>
    rw [findsCategory_congr hvalue]
    rcases List.mem_append.mp hmem with hold | hnew
    · exact h.found hold
    · obtain ⟨rfl, rfl⟩ := Prod.mk.inj (List.mem_singleton.mp hnew)
      exact ⟨hprobe, hgoal, hcheck.finds⟩
  case once =>
    rw [List.map_append, List.nodup_append]
    refine ⟨h.once, List.nodup_singleton _, ?_⟩
    rintro a ha b hb rfl
    obtain ⟨c, hc, rfl⟩ := List.mem_map.mp ha
    exact hcheck.probe_open ⟨c, hc, Or.inl (List.mem_singleton.mp hb)⟩
  case consumed =>
    have hsign (fid : FeatureId) : (s.link probe goal).sign? fid = s.sign? fid := by
      rw [sign?_eq, hvalue, ← sign?_eq]
    simp only [hsign]
    rw [List.pairwise_append]
    refine ⟨h.consumed, List.pairwise_singleton .., ?_⟩
    -- no earlier check of the goal has consumed it
    rintro c hc c' hc' heq
    rw [List.mem_singleton.mp hc'] at heq
    exact (h.found hc).2.2.sign?_eq_adjunct fun hconsumes => hcheck.goal_open ⟨c, hc,
      Or.inr ⟨heq, hconsumes⟩⟩
  case used =>
    rw [contains_spend, isUsed_congr hvalue, isUsed_concat, h.used_iff]

/-! ### Which check is made -/

/-- The features that may check each other are those that are not in the set. -/
theorem mayCheck_iff (h : start.Tracks s used made) : s.MayCheck made left right probe goal ↔
    ∃ f g, (probe, f) ∈ s.openFeatures used left ∧ (goal, g) ∈ s.openFeatures used right ∧
      f.name = g.name ∧ f.sign.findsCategory = true ∧ g.sign = .categorial := by
  have hopen {fid : FeatureId} : used.contains fid = false ↔ ¬s.IsUsed made fid := by
    rw [← h.used_iff, Bool.not_eq_true]
  simp only [mem_openFeatures_iff, hopen, findsCategory_iff]
  constructor
  · rintro ⟨hprobe, hgoal, hprobe', hgoal', f, g, hf, hg, hname, hsign, hsign'⟩
    exact ⟨f, g, ⟨hprobe, hprobe', hf⟩, ⟨hgoal, hgoal', hg⟩, hname, hsign, hsign'⟩
  · rintro ⟨f, g, ⟨hprobe, hprobe', hf⟩, ⟨hgoal, hgoal', hg⟩, hname, hsign, hsign'⟩
    exact ⟨hprobe, hgoal, hprobe', hgoal', f, g, hf, hg, hname, hsign, hsign'⟩

/-- Features that the parser finds to check each other may do so. -/
theorem mayCheck_of_checkingPair? (h : start.Tracks s used made)
    (hpair : s.checkingPair? used left right = some c) : s.MayCheck made left right c.1 c.2 := by
  obtain ⟨g, hg, heq⟩ := List.exists_of_findSome?_eq_some hpair
  obtain ⟨f, hf, rfl⟩ := Option.map_eq_some_iff.mp heq
  obtain ⟨hgoal, hsign⟩ := List.mem_filter.mp hg
  have hfound := List.find?_some hf
  rw [Bool.and_eq_true, beq_iff_eq] at hfound
  exact h.mayCheck_iff.mpr ⟨f.2, g.2, List.mem_of_find?_eq_some hf, hgoal, hfound.1, hfound.2,
    by simpa using hsign⟩

/-- The parser finds none only if there are none. -/
theorem checkingPair?_eq_none_iff (h : start.Tracks s used made) :
    s.checkingPair? used left right = none ↔
      ∀ probe goal, ¬s.MayCheck made left right probe goal := by
  constructor
  · intro hnone probe goal hcheck
    obtain ⟨f, g, hf, hg, hname, hfinds, hsign⟩ := h.mayCheck_iff.mp hcheck
    rw [checkingPair?] at hnone
    have hgoal := List.findSome?_eq_none_iff.mp hnone (goal, g)
      (List.mem_filter.mpr ⟨hg, by rw [hsign]; rfl⟩)
    have hprobe := List.find?_eq_none.mp (Option.map_eq_none_iff.mp hgoal) (probe, f) hf
    simp [hname, hfinds] at hprobe
  · intro hnone
    refine Option.eq_none_iff_forall_ne_some.mpr fun c hpair => ?_
    exact hnone c.1 c.2 (h.mayCheck_of_checkingPair? hpair)

end Tracks

/-! ### Merging -/

section mergeOnTop

variable (s : Store) (used : IdentSet .feature) (left right : ConstituentId)

theorem used_mergeOnTop : (s.mergeOnTop used left right).2.1 =
    (s.checkingPair? used left right).elim used (s.spend used) := rfl

theorem top_mergeOnTop : (s.mergeOnTop used left right).2.2 = ⟨s.nextConstituent⟩ := by
  obtain ⟨head, label, features, -, -, -, hid⟩ := s.exists_mergeOnTop used left right
  exact hid

theorem feature?_mergeOnTop (fid : FeatureId) :
    (s.mergeOnTop used left right).1.feature? fid = (s.checked used left right).feature? fid := by
  obtain ⟨head, label, features, -, -, heq, -⟩ := s.exists_mergeOnTop used left right
  rw [heq, feature?, features_setHead]
  rfl

theorem value?_mergeOnTop (fid : FeatureId) :
    (s.mergeOnTop used left right).1.value? fid = s.value? fid :=
  s.map_feature_feature?_mergeOnTop used left right fid

/-- The node on top has the features of its head that are not used up after the check. -/
theorem exists_head_mergeOnTop : ∃ head, (head = left ∨ head = right) ∧
    (s.mergeOnTop used left right).1.head? ⟨s.nextConstituent⟩ = some (.single head) ∧
    (s.mergeOnTop used left right).1.featuresAt ⟨s.nextConstituent⟩ =
      (unrepeated (s.openFeatures (s.mergeOnTop used left right).2.1 head)).map (·.1) := by
  have hopen (used' : IdentSet .feature) (id : ConstituentId) :
      (s.checked used left right).openFeatures used' id = s.openFeatures used' id := by
    rw [openFeatures_eq, openFeatures_eq]
    rcases s.checked_cases used left right with hnone | ⟨pair, -, hpair⟩
    · rw [hnone]
    · rw [hpair]
      simp only [value?, map_feature_feature?_link]
      rfl
  let projection := s.projectionOf left right (s.checkingPair? used left right)
  have hstore : (s.mergeOnTop used left right).1 = ((s.checked used left right).addNode
      { label := projection.2, parts := [left, right]
        features :=
          (unrepeated ((s.checked used left right).openFeatures (s.mergeOnTop used left right).2.1
            projection.1)).map (·.1) }).1.setHead ⟨(s.checked used left right).nextConstituent⟩
        (.single projection.1) := rfl
  refine ⟨projection.1, s.projectionOf_cases left right (s.checkingPair? used left right), ?_⟩
  rw [← hopen, ← (s.next_checked used left right).1, hstore]
  constructor
  · rw [head?_setHead, if_pos rfl, constituent?_addNode, if_pos rfl, Option.map_some]
  · rw [featuresAt, outline?_setHead, outline?_addNode, if_pos rfl]
    rfl

end mergeOnTop

/-- A node on top of two others. It has been added after some checks, and the new ones have been
made with it: one if there is one to make, and none otherwise. Its features are those of its head
that are not used up then, each of them once. -/
structure IsMerged (s : Store) (made new : List (FeatureId × FeatureId))
    (top left right : ConstituentId) :
    Prop where
  parts : s.parts? top = some [left, right]
  checks : (new = [] ∧ ∀ probe goal, ¬s.MayCheck made left right probe goal) ∨
    ∃ probe goal, new = [(probe, goal)] ∧ s.MayCheck made left right probe goal
  features : ∃ head, (head = left ∨ head = right) ∧ s.head? top = some (.single head) ∧
    s.KeepsEach (s.featuresAt top) ((s.featuresAt head).filter (¬s.IsUsed (made ++ new) ·))

theorem IsMerged.congr (h : s.IsMerged made new top left right) (hs : s.Coincides s')
    (htop : top.index < s.nextConstituent) (hleft : left.index < s.nextConstituent)
    (hright : right.index < s.nextConstituent) : s'.IsMerged made new top left right := by
  have hvalue (fid : FeatureId) :
      s'.value? fid = s.value? fid := congrArg (Option.map _) (hs.feature? fid)
  refine ⟨(hs.parts? htop).trans h.parts, ?_, ?_⟩
  · rcases h.checks with ⟨hnil, hnone⟩ | ⟨probe, goal, hnew, hcheck⟩
    · refine Or.inl ⟨hnil, fun probe goal hcheck => hnone probe goal ?_⟩
      exact hcheck.congr (fun fid => (hvalue fid).symm) (hs.featuresAt hleft).symm
        (hs.featuresAt hright).symm
    · exact Or.inr ⟨probe, goal, hnew,
        hcheck.congr hvalue (hs.featuresAt hleft) (hs.featuresAt hright)⟩
  · obtain ⟨head, hcases, hhead, hkeeps⟩ := h.features
    have hissued : head.index < s.nextConstituent := by
      rcases hcases with rfl | rfl
      · exact hleft
      · exact hright
    refine ⟨head, hcases, (hs.head? htop).trans hhead, ?_⟩
    rw [hs.featuresAt htop, hs.featuresAt hissued]
    simp only [isUsed_congr hvalue]
    exact hkeeps.congr hvalue

section merge

variable (hconfines : start.Confines s) (htracks : start.Tracks s used made)
  (hleft : start.Added s (.constituent left)) (hright : start.Added s (.constituent right))

include hconfines htracks hleft hright

/-- The features that have been checked by a merge are used up. -/
theorem Tracks.mergeOnTop :
    start.Tracks (s.mergeOnTop used left right).1 (s.mergeOnTop used left right).2.1
      (made ++ (s.checkingPair? used left right).toList) := by
  obtain ⟨hnodes, hfeatures⟩ := s.next_mergeOnTop used left right
  have hchecked : start.Tracks (s.checked used left right) (s.mergeOnTop used left right).2.1
      (made ++ (s.checkingPair? used left right).toList) := by
    rw [used_mergeOnTop, checked]
    cases hpair : s.checkingPair? used left right with
    | none =>
      rw [Option.toList_none, List.append_nil]
      exact htracks
    | some pair =>
      have hcheck := htracks.mayCheck_of_checkingPair? hpair
      exact htracks.link hcheck (hconfines.features hleft hcheck.probe_mem)
        (hconfines.features hright hcheck.goal_mem)
  refine hchecked.congr ?_ ?_ fun fid => s.feature?_mergeOnTop used left right fid
  · rw [hnodes, (s.next_checked used left right).1]
    exact Nat.le_succ _
  · rw [hfeatures, (s.next_checked used left right).2]

/-- A merge makes a check if there is one to make, and adds the node on top. -/
theorem Tracks.isMerged_mergeOnTop : (s.mergeOnTop used left right).1.IsMerged made
    (s.checkingPair? used left right).toList ⟨s.nextConstituent⟩ left right where
  parts := s.parts?_mergeOnTop used left right
  checks := by
    have hretains := s.retains_mergeOnTop used left right
    have hvalue := s.value?_mergeOnTop used left right
    cases hpair : s.checkingPair? used left right with
    | none =>
      refine Or.inl ⟨rfl, fun probe goal hcheck => ?_⟩
      refine htracks.checkingPair?_eq_none_iff.mp hpair probe goal ?_
      exact hcheck.congr (fun fid => (hvalue fid).symm) (hretains.featuresAt hleft.2).symm
        (hretains.featuresAt hright.2).symm
    | some pair =>
      have hcheck := htracks.mayCheck_of_checkingPair? hpair
      exact Or.inr ⟨pair.1, pair.2, rfl,
        hcheck.congr hvalue (hretains.featuresAt hleft.2) (hretains.featuresAt hright.2)⟩
  features := by
    have hretains := s.retains_mergeOnTop used left right
    have hvalue := s.value?_mergeOnTop used left right
    have hafter := htracks.mergeOnTop hconfines hleft hright
    obtain ⟨head, hcases, hhead, hfeatures⟩ := s.exists_head_mergeOnTop used left right
    have hadded : start.Added s (.constituent head) := by
      rcases hcases with rfl | rfl
      · exact hleft
      · exact hright
    refine ⟨head, hcases, hhead, ?_⟩
    rw [hfeatures, hretains.featuresAt hadded.2]
    -- the set of used features and the list of checks say the same of each feature
    have hunused : (s.featuresAt head).filter (! (s.mergeOnTop used left right).2.1.contains ·) =
        (s.featuresAt head).filter (¬(s.mergeOnTop used left right).1.IsUsed
          (made ++ (s.checkingPair? used left right).toList) ·) :=
      List.filter_congr fun fid _ => by
        rw [Bool.eq_iff_iff, Bool.not_eq_true', decide_eq_true_eq, ← hafter.used_iff,
          Bool.not_eq_true]
    rw [← hunused]
    exact (keepsEach_openFeatures fun fid hfid =>
      htracks.stored (hconfines.features hadded hfid)).congr hvalue

/-- The node on top is made of what has been added. -/
theorem Confines.mergeOnTop : start.Confines (s.mergeOnTop used left right).1 := by
  obtain ⟨hnodes, hfeatures⟩ := s.next_mergeOnTop used left right
  have htop {id : ConstituentId} (hle : s.nextConstituent ≤ id.index)
      (hlt : id.index < (s.mergeOnTop used left right).1.nextConstituent) :
          id = ⟨s.nextConstituent⟩ := by
    rw [hnodes] at hlt
    exact congrArg Ident.mk (Nat.le_antisymm (Nat.le_of_lt_succ hlt) hle)
  refine hconfines.grow (s.retains_mergeOnTop used left right)
    (fun id part parts hle hlt hparts hpart => ?_) fun id fid hle hlt hfid => ?_
  · obtain rfl := htop hle hlt
    rw [parts?_mergeOnTop] at hparts
    obtain rfl := Option.some.inj hparts
    rcases List.mem_pair.mp hpart with rfl | rfl
    · exact ⟨hleft, hleft.2⟩
    · exact ⟨hright, hright.2⟩
  · obtain rfl := htop hle hlt
    obtain ⟨head, hcases, -, hkeeps⟩ :=
      (htracks.isMerged_mergeOnTop hconfines hleft hright).features
    have hadded : start.Added s (.constituent head) := by
      rcases hcases with rfl | rfl
      · exact hleft
      · exact hright
    have hmem := (List.mem_filter.mp (hkeeps.sublist.subset hfid)).1
    rw [(s.retains_mergeOnTop used left right).featuresAt hadded.2] at hmem
    exact (hconfines.features hadded hmem).mono (by rw [hnodes]; exact Nat.le_succ _)
      (Nat.le_of_eq hfeatures.symm)

end merge

/-- A leaf has no parts, and its features are added with it. -/
theorem Confines.addLeaf (h : start.Confines s) (hnext : start.nextFeature ≤ s.nextFeature)
    (label : String) (features : List Feature) : start.Confines (s.addLeaf label features).1 ∧
      start.Added (s.addLeaf label features).1 (.constituent (s.addLeaf label features).2) := by
  have hnodes := s.next_addLeaf label features
  have hleaf {id : ConstituentId} (hle : s.nextConstituent ≤ id.index)
      (hlt : id.index < (s.addLeaf label features).1.nextConstituent) :
          id = ⟨s.nextConstituent⟩ := by
    rw [hnodes] at hlt
    exact congrArg Ident.mk (Nat.le_antisymm (Nat.le_of_lt_succ hlt) hle)
  refine ⟨h.grow (s.retains_addLeaf label features) (fun id part parts hle hlt hparts hpart => ?_)
    (fun id fid hle hlt hfid => ?_), Nat.not_lt.mpr h.nextConstituent, ?_⟩
  · obtain rfl := hleaf hle hlt
    rw [parts?, body?, outline?_addLeaf, if_pos rfl] at hparts
    obtain rfl := Option.some.inj hparts
    exact absurd hpart List.not_mem_nil
  · obtain rfl := hleaf hle hlt
    rw [featuresAt, outline?_addLeaf, if_pos rfl, Option.elim_some] at hfid
    obtain ⟨hle', hlt'⟩ := (mem_addFeatures_iff ..).mp hfid
    exact ⟨Nat.not_lt.mpr (Nat.le_trans hnext hle'), hlt'⟩
  · show s.nextConstituent < _
    rw [hnodes]
    exact Nat.lt_succ_self _

end Store
end MinimalistGrammar
