import MinimalistGrammar.Proofs.Tree.Checking

/-!
# Links by checks

A check sets the link of the probe to its goal and the link of the goal back to its probe. It does
not look for a link that one of them had to another feature. So after any operations on a store a
probe is linked to the goal of its last check, and a goal to the probe of its last check, and these
need not be one check: a goal that is checked by a second probe no longer knows the first one, which
still is linked to the goal.

The links are symmetric exactly if the last check of every probe is the last one of its goal. All
features that are linked fit, whatever is checked in which order.

## Main definitions

* `lastGoal?`, `lastProbe?` — the last check of a probe, and of a goal.
* `Store.HasLinks` — the links of a feature are those of its last checks.
* `Store.Edit`, `Store.edit` — operations on a store that link features by checks only.
* `Store.checksMade` — the checks that some operations make.
* `Store.IsSymmetric` — every link is set from both sides.

## Main results

* `Store.HasLinks.link` — one check more.
* `Store.IsLinked.apply` — one operation more.
* `Store.links_edit` — **the links after any operations**, and when they are symmetric.
-/

namespace MinimalistGrammar

/-! ### Last checks -/

/-- The goal of the last check of a probe. -/
def lastGoal? (made : List (FeatureId × FeatureId)) (probe : FeatureId) : Option FeatureId :=
  ((made.filter (·.1 = probe)).getLast?).map (·.2)

/-- The probe of the last check of a goal. -/
def lastProbe? (made : List (FeatureId × FeatureId)) (goal : FeatureId) : Option FeatureId :=
  ((made.filter (·.2 = goal)).getLast?).map (·.1)

section last

variable {made : List (FeatureId × FeatureId)} {check : FeatureId × FeatureId} {a b : FeatureId}

@[simp] theorem lastGoal?_nil : lastGoal? [] a = none := rfl

@[simp] theorem lastProbe?_nil : lastProbe? [] b = none := rfl

theorem lastGoal?_concat : lastGoal? (made ++ [check]) a =
    if a = check.1 then some check.2 else lastGoal? made a := by
  rw [lastGoal?, lastGoal?, List.filter_append]
  by_cases ha : a = check.1
  · simp [ha]
  · simp [ha, Ne.symm ha]

theorem lastProbe?_concat : lastProbe? (made ++ [check]) b =
    if b = check.2 then some check.1 else lastProbe? made b := by
  rw [lastProbe?, lastProbe?, List.filter_append]
  by_cases hb : b = check.2
  · simp [hb]
  · simp [hb, Ne.symm hb]

theorem mem_of_lastGoal? (h : lastGoal? made a = some b) : (a, b) ∈ made := by
  obtain ⟨c, hc, rfl⟩ := Option.map_eq_some_iff.mp h
  obtain ⟨hmem, heq⟩ := List.mem_filter.mp (List.mem_of_getLast? hc)
  rwa [← of_decide_eq_true heq]

theorem mem_of_lastProbe? (h : lastProbe? made b = some a) : (a, b) ∈ made := by
  obtain ⟨c, hc, rfl⟩ := Option.map_eq_some_iff.mp h
  obtain ⟨hmem, heq⟩ := List.mem_filter.mp (List.mem_of_getLast? hc)
  rwa [← of_decide_eq_true heq]

/-- A probe that has made a check has a last goal. -/
theorem exists_lastGoal? (h : (a, b) ∈ made) : ∃ goal, lastGoal? made a = some goal := by
  have hmem : (a, b) ∈ made.filter (·.1 = a) := List.mem_filter.mpr ⟨h, decide_eq_true rfl⟩
  rw [lastGoal?, List.getLast?_eq_some_getLast (List.ne_nil_of_mem hmem)]
  exact ⟨_, rfl⟩

/-- A goal that has been checked has a last probe. -/
theorem exists_lastProbe? (h : (a, b) ∈ made) : ∃ probe, lastProbe? made b = some probe := by
  have hmem : (a, b) ∈ made.filter (·.2 = b) := List.mem_filter.mpr ⟨h, decide_eq_true rfl⟩
  rw [lastProbe?, List.getLast?_eq_some_getLast (List.ne_nil_of_mem hmem)]
  exact ⟨_, rfl⟩

/-- If the checks pair probes with goals, the last check of a probe is the last one of its goal. -/
theorem lastGoal?_iff_lastProbe? (hpaired : ∀ c ∈ made, ∀ c' ∈ made, c.1 = c'.1 ↔ c.2 = c'.2) :
    lastGoal? made a = some b ↔ lastProbe? made b = some a := by
  constructor
  · intro h
    have hmem := mem_of_lastGoal? h
    obtain ⟨probe, hprobe⟩ := exists_lastProbe? hmem
    obtain rfl : probe = a := (hpaired _ (mem_of_lastProbe? hprobe) _ hmem).mpr rfl
    exact hprobe
  · intro h
    have hmem := mem_of_lastProbe? h
    obtain ⟨goal, hgoal⟩ := exists_lastGoal? hmem
    obtain rfl : goal = b := (hpaired _ (mem_of_lastGoal? hgoal) _ hmem).mp rfl
    exact hgoal

end last

namespace Store

variable {s s' : Store} {made : List (FeatureId × FeatureId)} {a b probe goal fid : FeatureId}

/-- A feature is linked to the goal of its last check as a probe, and to the probe of its last check
as a goal. -/
structure HasLinks (s : Store) (made : List (FeatureId × FeatureId)) (fid : FeatureId) : Prop where
  checks? : s.checks? fid = lastGoal? made fid
  checker? : s.checker? fid = lastProbe? made fid

theorem HasLinks.congr (h : s.HasLinks made fid) (heq : s'.feature? fid = s.feature? fid) :
    s'.HasLinks made fid where
  checks? := by rw [Store.checks?, heq, ← h.checks?, Store.checks?]
  checker? := by rw [Store.checker?, heq, ← h.checker?, Store.checker?]

/-- A check is the last one of its probe and of its goal. -/
theorem HasLinks.link (h : s.HasLinks made fid) (hprobe : s.feature? probe ≠ none)
    (hgoal : s.feature? goal ≠ none) :
    (s.link probe goal).HasLinks (made ++ [(probe, goal)]) fid where
  checks? := by
    rw [lastGoal?_concat, ← h.checks?, Store.checks?, feature?_link, Store.checks?]
    cases hfid : s.feature? fid with
    | none =>
      rw [if_neg]
      · rfl
      · rintro rfl
        exact hprobe hfid
    | some f => rfl
  checker? := by
    rw [lastProbe?_concat, ← h.checker?, Store.checker?, feature?_link, Store.checker?]
    cases hfid : s.feature? fid with
    | none =>
      rw [if_neg]
      · rfl
      · rintro rfl
        exact hgoal hfid
    | some f => rfl

/-! ### Operations -/

/-- An operation on a store that links features by a check only. -/
inductive Edit
  | addNode (c : Constituent)
  | addLeaf (label : String) (features : List Feature)
  | addFeature (f : Feature) (host : Option ConstituentId)
  | addGroup (g : Group)
  /-- A node is changed in any way. So parts are added and inserted, and nodes land. -/
  | changeNode (id : ConstituentId) (f : Constituent → Constituent)
  | setHead (id : ConstituentId) (head : Head)
  | updateLexicalHeads (id : ConstituentId)
  | check (probe goal : FeatureId)
  /-- Everything but some of the objects is dropped. -/
  | retain (keep : Reachable)

/-- The store after an operation. -/
def Edit.apply (s : Store) : Edit → Store
  | addNode c => (s.addNode c).1
  | addLeaf label features => (s.addLeaf label features).1
  | addFeature f host => (s.addFeature f host).1
  | addGroup g => (s.addGroup g).1
  | changeNode id f => s.modifyConstituent id f
  | setHead id head => s.setHead id head
  | updateLexicalHeads id => s.updateLexicalHeads id
  | check probe goal => s.check probe goal
  | retain keep => s.retain keep

/-- The check that an operation makes. A check of features that do not fit does nothing. -/
def Edit.checks (s : Store) : Edit → List (FeatureId × FeatureId)
  | check probe goal => if s.canCheck probe goal then [(probe, goal)] else []
  | _ => []

/-- The store after some operations. -/
def edit (s : Store) (edits : List Edit) : Store := edits.foldl Edit.apply s

@[simp] theorem edit_nil (s : Store) : s.edit [] = s := rfl

@[simp] theorem edit_cons (s : Store) (e : Edit) (edits : List Edit) :
    s.edit (e :: edits) = (e.apply s).edit edits := rfl

/-- The checks that some operations make, in order. -/
def checksMade (s : Store) : List Edit → List (FeatureId × FeatureId)
  | [] => []
  | e :: edits => e.checks s ++ (e.apply s).checksMade edits

@[simp] theorem checksMade_nil (s : Store) : s.checksMade [] = [] := rfl

@[simp] theorem checksMade_cons (s : Store) (e : Edit) (edits : List Edit) :
    s.checksMade (e :: edits) = e.checks s ++ (e.apply s).checksMade edits := rfl

/-! ### Links after operations -/

/-- The features of a store are linked by some checks. -/
structure IsLinked (s : Store) (made : List (FeatureId × FeatureId)) : Prop where
  issued {fid : FeatureId} : s.feature? fid ≠ none → fid.index < s.nextFeature
  checked {c : FeatureId × FeatureId} : c ∈ made →
    c.1.index < s.nextFeature ∧ c.2.index < s.nextFeature
  links {fid : FeatureId} : s.feature? fid ≠ none → s.HasLinks made fid
  fits {a b : FeatureId} {f g : Feature} : (a, b) ∈ made → s.value? a = some f →
    s.value? b = some g → f.fits g = true

theorem isLinked_empty : IsLinked {} [] := by
  have hnone (fid : FeatureId) : Store.feature? {} fid = none := by
    rw [feature?]
    simp
  exact {
    issued := fun h => absurd (hnone _) h
    checked := fun h => absurd h List.not_mem_nil
    links := fun h => absurd (hnone _) h
    fits := fun h => absurd h List.not_mem_nil }

namespace IsLinked

/-- Only the features of a store matter for its links. -/
theorem congr (h : s.IsLinked made) (hfeatures : s'.features = s.features)
    (hnext : s'.nextFeature = s.nextFeature) : s'.IsLinked made := by
  have heq (fid : FeatureId) : s'.feature? fid = s.feature? fid := by
    rw [feature?, hfeatures, feature?]
  exact {
    issued := fun {fid} hfid => by
      rw [heq] at hfid
      rw [hnext]
      exact h.issued hfid
    checked := fun hc => hnext ▸ h.checked hc
    links := fun {fid} hfid => (h.links (heq fid ▸ hfid)).congr (heq fid)
    fits := fun {a b f g} hmem hf hg => by
      rw [value?, heq] at hf hg
      exact h.fits hmem hf hg }

/-- A new feature has no links, and no check has had to do with it. -/
theorem addFeature (h : s.IsLinked made) (f : Feature) (host : Option ConstituentId) :
    (s.addFeature f host).1.IsLinked made := by
  have hother {fid : FeatureId} (hfid : fid ≠ ⟨s.nextFeature⟩) :
      (s.addFeature f host).1.feature? fid = s.feature? fid := by
    rw [feature?_addFeature, if_neg hfid]
  have hold {c : FeatureId × FeatureId} (hc : c ∈ made) :
      c.1 ≠ ⟨s.nextFeature⟩ ∧ c.2 ≠ ⟨s.nextFeature⟩ := by
    obtain ⟨hprobe, hgoal⟩ := h.checked hc
    exact ⟨fun heq => Nat.lt_irrefl _ (heq ▸ hprobe), fun heq => Nat.lt_irrefl _ (heq ▸ hgoal)⟩
  refine ⟨fun {fid} hfid => ?_, fun hc => ?_, fun {fid} hfid => ?_, fun {a b f g} hmem hf hg => ?_⟩
  · show fid.index < s.nextFeature + 1
    by_cases heq : fid = ⟨s.nextFeature⟩
    · rw [heq]
      exact Nat.lt_succ_self _
    · exact Nat.lt_succ_of_lt (h.issued (hother heq ▸ hfid))
  · exact ⟨Nat.lt_succ_of_lt (h.checked hc).1, Nat.lt_succ_of_lt (h.checked hc).2⟩
  -- no check mentions the new feature, as checks are made between features that there are
  · by_cases heq : fid = ⟨s.nextFeature⟩
    · subst heq
      have hnew :
          (s.addFeature f host).1.feature? ⟨s.nextFeature⟩ = some { feature := f, host } := by
        rw [feature?_addFeature, if_pos rfl]
      constructor
      · rw [Store.checks?, hnew, eq_comm]
        exact Option.eq_none_iff_forall_ne_some.mpr fun b hb => (hold (mem_of_lastGoal? hb)).1 rfl
      · rw [Store.checker?, hnew, eq_comm]
        exact Option.eq_none_iff_forall_ne_some.mpr fun a ha => (hold (mem_of_lastProbe? ha)).2 rfl
    · exact (h.links (hother heq ▸ hfid)).congr (hother heq)
  · rw [value?, hother (hold hmem).1] at hf
    rw [value?, hother (hold hmem).2] at hg
    exact h.fits hmem hf hg

theorem addFeatures (h : s.IsLinked made) (host : ConstituentId) (features : List Feature) :
    (s.addFeatures host features).1.IsLinked made := by
  induction features generalizing s with
  | nil => exact h
  | cons f features ih => exact ih (h.addFeature f (some host))

/-- A check of features that fit is one check more. -/
theorem check (h : s.IsLinked made) (probe goal : FeatureId) :
    (s.check probe goal).IsLinked (made ++ Edit.checks s (.check probe goal)) := by
  rw [Edit.checks, Store.check]
  split
  · next hcan =>
    obtain ⟨f, g, hf, hg, hfits⟩ := canCheck_iff.mp hcan
    have hprobe : s.feature? probe ≠ none := fun hnone => by simp [value?, hnone] at hf
    have hgoal : s.feature? goal ≠ none := fun hnone => by simp [value?, hnone] at hg
    have hvalue (fid : FeatureId) : (s.link probe goal).value? fid = s.value? fid := by
      rw [value?, feature?_link, Option.map_map, value?]
      rfl
    have hstored {fid : FeatureId} (hfid : (s.link probe goal).feature? fid ≠ none) :
        s.feature? fid ≠ none := fun hnone => hfid (by rw [feature?_link, hnone, Option.map_none])
    refine ⟨fun hfid => h.issued (hstored hfid), fun {c} hc => ?_,
      fun hfid => (h.links (hstored hfid)).link hprobe hgoal, fun {a b f' g'} hmem hf' hg' => ?_⟩
    · rcases List.mem_append.mp hc with hold | hnew
      · exact h.checked hold
      · rw [List.mem_singleton.mp hnew]
        exact ⟨h.issued hprobe, h.issued hgoal⟩
    · rw [hvalue] at hf' hg'
      rcases List.mem_append.mp hmem with hold | hnew
      · exact h.fits hold hf' hg'
      · obtain ⟨rfl, rfl⟩ := Prod.mk.inj (List.mem_singleton.mp hnew)
        rwa [Option.some.inj (hf'.symm.trans hf), Option.some.inj (hg'.symm.trans hg)]
  · rwa [List.append_nil]

/-- A feature that is kept is as it was. -/
theorem retain (h : s.IsLinked made) (keep : Reachable) : (s.retain keep).IsLinked made := by
  have hkept {fid : FeatureId} (hfid : (s.retain keep).feature? fid ≠ none) :
      (s.retain keep).feature? fid = s.feature? fid := by
    have hretain := s.linked?_retain keep (.feature fid)
    split at hretain
    · exact feature?_of_linked? hretain
    · exact absurd (Option.map_eq_none_iff.mp hretain) hfid
  have hvalue {fid : FeatureId} {f : Feature} (hf : (s.retain keep).value? fid = some f) :
      s.value? fid = some f := by
    rw [value?, ← hkept, ← value?, hf]
    intro hnone
    simp [value?, hnone] at hf
  exact {
    issued := fun hfid => h.issued (hkept hfid ▸ hfid)
    checked := h.checked
    links := fun hfid => (h.links (hkept hfid ▸ hfid)).congr (hkept hfid)
    fits := fun hmem hf hg => h.fits hmem (hvalue hf) (hvalue hg) }

/-- One operation more. -/
theorem apply (h : s.IsLinked made) (e : Edit) : (e.apply s).IsLinked (made ++ e.checks s) := by
  cases e with
  | check probe goal => exact h.check probe goal
  | addFeature f host => exact (List.append_nil made).symm ▸ h.addFeature f host
  | retain keep => exact (List.append_nil made).symm ▸ h.retain keep
  | addLeaf label features =>
    have hnode : (s.addNode { label }).1.IsLinked made := h.congr rfl rfl
    exact (List.append_nil made).symm ▸ (hnode.addFeatures ⟨s.nextConstituent⟩ features).congr rfl
      rfl
  | addNode c => exact (List.append_nil made).symm ▸ h.congr rfl rfl
  | addGroup g => exact (List.append_nil made).symm ▸ h.congr rfl rfl
  | changeNode id f => exact (List.append_nil made).symm ▸ h.congr rfl rfl
  | setHead id head =>
    exact (List.append_nil made).symm ▸ h.congr (features_setHead s id head)
      (next_setHead s id head).2
  | updateLexicalHeads id =>
    refine (List.append_nil made).symm ▸ h.congr ?_ ?_
    · show (s.updateLexicalHeads id).features = s.features
      rw [updateLexicalHeads]
      split <;> rfl
    · show (s.updateLexicalHeads id).nextFeature = s.nextFeature
      rw [updateLexicalHeads]
      split <;> rfl

/-- Some operations more. -/
theorem edit (h : s.IsLinked made) (edits : List Edit) :
    (s.edit edits).IsLinked (made ++ s.checksMade edits) := by
  induction edits generalizing s made with
  | nil => rwa [edit_nil, checksMade_nil, List.append_nil]
  | cons e edits ih =>
    rw [edit_cons, checksMade_cons, ← List.append_assoc]
    exact ih (h.apply e)

end IsLinked

/-! ### Symmetric links -/

/-- Each feature of the store is linked to a goal exactly if the goal is linked back to it. -/
def IsSymmetric (s : Store) : Prop := ∀ a b f g, s.feature? a = some f → s.feature? b = some g →
  (f.checks = some b ↔ g.checkedBy = some a)

/-- The links of a store are symmetric if those of all its features agree. -/
theorem isSymmetric_iff : s.IsSymmetric ↔ ∀ a b, s.feature? a ≠ none →
    s.feature? b ≠ none → (s.checks? a = some b ↔ s.checker? b = some a) := by
  constructor
  · intro hs a b ha hb
    obtain ⟨f, hf⟩ := Option.ne_none_iff_exists'.mp ha
    obtain ⟨g, hg⟩ := Option.ne_none_iff_exists'.mp hb
    rw [checks?, checker?, hf, hg]
    exact hs a b f g hf hg
  · intro hs a b f g hf hg
    have hab := hs a b (hf ▸ Option.some_ne_none f) (hg ▸ Option.some_ne_none g)
    rwa [checks?, checker?, hf, hg] at hab

/-- **The links after any operations.** If features are linked by checks only, a probe is linked to
the goal of its last check, and a goal to the probe of its last check, and features that are linked
have one name and complementary signs. So the links are symmetric exactly if the last check of every
probe is the last one of its goal and conversely, and they are if the checks pair probes with
goals. -/
theorem links_edit (edits : List Edit) :
    let s := ({} : Store).edit edits
    let made := ({} : Store).checksMade edits
    (∀ a b f g, s.feature? a = some f → s.feature? b = some g →
      (f.checks = some b ↔ lastGoal? made a = some b) ∧
      (g.checkedBy = some a ↔ lastProbe? made b = some a) ∧
      (f.checks = some b ∨ g.checkedBy = some a → f.feature.fits g.feature = true)) ∧
    (s.IsSymmetric ↔ ∀ a b, s.feature? a ≠ none → s.feature? b ≠ none →
      (lastGoal? made a = some b ↔ lastProbe? made b = some a)) ∧
    ((∀ c ∈ made, ∀ c' ∈ made, c.1 = c'.1 ↔ c.2 = c'.2) → s.IsSymmetric) := by
  intro s made
  have h : s.IsLinked made := isLinked_empty.edit edits
  have hchecks {a b : FeatureId} {f : FeatureOccurrence} (hf : s.feature? a = some f) :
      f.checks = some b ↔ lastGoal? made a = some b := by
    rw [← (h.links (hf ▸ Option.some_ne_none f)).checks?, checks?, hf, Option.bind_some]
  have hchecker {a b : FeatureId} {g : FeatureOccurrence} (hg : s.feature? b = some g) :
      g.checkedBy = some a ↔ lastProbe? made b = some a := by
    rw [← (h.links (hg ▸ Option.some_ne_none g)).checker?, checker?, hg, Option.bind_some]
  have hsymmetric : s.IsSymmetric ↔ ∀ a b, s.feature? a ≠ none → s.feature? b ≠ none →
      (lastGoal? made a = some b ↔ lastProbe? made b = some a) := by
    rw [isSymmetric_iff]
    refine forall₂_congr fun a b => forall₂_congr fun ha hb => ?_
    rw [(h.links ha).checks?, (h.links hb).checker?]
  refine ⟨fun a b f g hf hg => ⟨hchecks hf, hchecker hg, fun hlinked => ?_⟩, hsymmetric,
    fun hpaired => ?_⟩
  · have hmem : (a, b) ∈ made := hlinked.elim (fun hab => mem_of_lastGoal? ((hchecks hf).mp hab))
      fun hba => mem_of_lastProbe? ((hchecker hg).mp hba)
    exact h.fits hmem (by rw [value?, hf, Option.map_some]) (by rw [value?, hg, Option.map_some])
  · exact hsymmetric.mpr fun a b _ _ => lastGoal?_iff_lastProbe? hpaired

/-- The category 2 is checked by the selector 0 and then by the selector 1. It knows only the second
one, and the first one is still linked to it. -/
theorem links_edit_twoSelectors :
    let edits : List Edit := [.addFeature (.selector "N") none, .addFeature (.selector "N") none,
      .addFeature (.categorial "N") none, .check ⟨0⟩ ⟨2⟩, .check ⟨1⟩ ⟨2⟩]
    let s := ({} : Store).edit edits
    s.checks? ⟨0⟩ = some ⟨2⟩ ∧ s.checker? ⟨2⟩ = some ⟨1⟩ ∧ ¬s.IsSymmetric := by
  intro edits s
  refine ⟨by decide +kernel, by decide +kernel, fun hs => ?_⟩
  have hlast := (links_edit edits).2.1.mp hs ⟨0⟩ ⟨2⟩ (by decide +kernel) (by decide +kernel)
  exact absurd hlast (by decide +kernel)

end Store
end MinimalistGrammar
