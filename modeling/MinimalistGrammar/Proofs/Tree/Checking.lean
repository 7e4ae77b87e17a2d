import MinimalistGrammar.Proofs.Tree.Separation

/-!
# Checks

A check sets two links, from the probe to its goal and back, and does not look at links that were
set before. As long as every probe and every goal is free when it is checked, no link is ever
replaced, and the links are a matching of probes and goals.

## Main definitions

* `Store.checks?`, `Store.checker?` — the link of a feature to its goal, and to its probe.
* `Store.IsMatched` — the links of a store are a matching of probes and goals that fit.
* `Store.check?` — a check that fails rather than replace a link.

## Main results

* `Store.check?_eq` — a check of a free probe and a free goal replaces no link.
* `Store.IsMatched.check` — it keeps the links a matching.
-/

namespace MinimalistGrammar
namespace Store

/-! ### What is known of a feature -/

/-- What a feature is. -/
def value? (s : Store) (fid : FeatureId) : Option Feature := (s.feature? fid).map (·.feature)

/-- The goal that a feature has checked. -/
def checks? (s : Store) (fid : FeatureId) : Option FeatureId := (s.feature? fid).bind (·.checks)

/-- The probe that has checked a feature. -/
def checker? (s : Store) (fid : FeatureId) : Option FeatureId := (s.feature? fid).bind (·.checkedBy)

/-- The leaf of a feature. -/
def host? (s : Store) (fid : FeatureId) : Option ConstituentId := (s.feature? fid).bind (·.host)

/-- The links of a store are a matching: each is set from both sides, and it leads from a selector
to a category or from a licensor to a licensee of the same name. -/
structure IsMatched (s : Store) : Prop where
  checks?_iff {a b : FeatureId} : s.checks? a = some b ↔ s.checker? b = some a
  fits {a b : FeatureId} : s.checks? a = some b → ∃ f g, s.value? a = some f ∧ s.value? b = some g ∧
    f.name = g.name ∧
      (f.sign = .selector ∧ g.sign = .categorial ∨ f.sign = .licensor ∧ g.sign = .licensee)

variable {s s' : Store} {a b probe goal fid : FeatureId}

/-! ### Changes of other objects -/

theorem isMatched_empty : IsMatched {} := by
  have hnone (fid : FeatureId) : Store.feature? {} fid = none := by
    rw [feature?]
    simp
  refine ⟨iff_of_false ?_ ?_, fun hab => absurd hab ?_⟩
  · rw [checks?, hnone]
    simp
  · rw [checker?, hnone]
    simp
  · rw [checks?, hnone]
    simp

/-- Only the features of a store matter for its links. -/
theorem IsMatched.congr (h : s.IsMatched)
    (heq : ∀ fid, s'.feature? fid = s.feature? fid) : s'.IsMatched := by
  refine ⟨fun {a b} => ?_, fun {a b} hab => ?_⟩
  · rw [checks?, checker?, heq, heq]
    exact h.checks?_iff
  · rw [checks?, heq] at hab
    rw [value?, value?, heq, heq]
    exact h.fits hab

/-- When features go, and with each of them what is linked to it, the others stay matched. -/
theorem IsMatched.restrict (h : s.IsMatched) (gone : FeatureId → Prop)
    (hgone : ∀ fid, gone fid → s'.feature? fid = none)
    (hstays : ∀ fid, ¬gone fid → s'.feature? fid = s.feature? fid)
    (hlinked : ∀ {a b}, s.checks? a = some b → (gone a ↔ gone b)) : s'.IsMatched := by
  have hleft {a b : FeatureId} : s'.checks? a = some b ↔ ¬gone a ∧ s.checks? a = some b := by
    by_cases ha : gone a
    · rw [checks?, hgone a ha]
      simp [ha]
    · rw [checks?, hstays a ha, ← checks?]
      simp [ha]
  have hright {a b : FeatureId} : s'.checker? b = some a ↔ ¬gone b ∧ s.checker? b = some a := by
    by_cases hb : gone b
    · rw [checker?, hgone b hb]
      simp [hb]
    · rw [checker?, hstays b hb, ← checker?]
      simp [hb]
  refine ⟨fun {a b} => ?_, fun {a b} hab => ?_⟩
  · rw [hleft, hright, ← h.checks?_iff]
    exact and_congr_left fun hab => not_congr (hlinked hab)
  · obtain ⟨ha, hab⟩ := hleft.mp hab
    rw [value?, value?, hstays a ha, hstays b fun hb => ha ((hlinked hab).mpr hb)]
    exact h.fits hab

/-! ### New features -/

theorem feature?_addFeature (s : Store) (f : Feature) (host : Option ConstituentId)
    (fid : FeatureId) :
    (s.addFeature f host).1.feature? fid =
      if fid = ⟨s.nextFeature⟩ then some { feature := f, host } else s.feature? fid :=
  IdentMap.getElem?_insert ..

/-- There is no feature under the next number. -/
theorem IsNumbered.feature?_next (hs : s.IsNumbered) : s.feature? ⟨s.nextFeature⟩ = none := by
  cases hf : s.feature? ⟨s.nextFeature⟩ with
  | none => rfl
  | some f =>
    have hissued : s.Issued (.feature ⟨s.nextFeature⟩) := hs.issued (by simp [linked?, hf])
    exact absurd hissued (Nat.lt_irrefl _)

/-- A new feature has no links. -/
theorem IsMatched.addFeature (h : s.IsMatched) (hs : s.IsNumbered) (f : Feature)
    (host : Option ConstituentId) : (s.addFeature f host).1.IsMatched := by
  have hchecks (fid : FeatureId) : (s.addFeature f host).1.checks? fid = s.checks? fid := by
    rw [checks?, checks?, feature?_addFeature]
    split
    · next heq => rw [heq, hs.feature?_next, Option.bind_none, Option.bind_some]
    · rfl
  have hchecker (fid : FeatureId) : (s.addFeature f host).1.checker? fid = s.checker? fid := by
    rw [checker?, checker?, feature?_addFeature]
    split
    · next heq => rw [heq, hs.feature?_next, Option.bind_none, Option.bind_some]
    · rfl
  have hvalue {fid : FeatureId} {g : Feature} (hg : s.value? fid = some g) :
      (s.addFeature f host).1.value? fid = some g := by
    rw [value?, feature?_addFeature, if_neg, ← value?, hg]
    rintro rfl
    rw [value?, hs.feature?_next] at hg
    exact absurd hg (by simp)
  refine ⟨fun {a b} => ?_, fun {a b} hab => ?_⟩
  · rw [hchecks, hchecker]
    exact h.checks?_iff
  · rw [hchecks] at hab
    obtain ⟨g, g', hg, hg', hfits⟩ := h.fits hab
    exact ⟨g, g', hvalue hg, hvalue hg', hfits⟩

/-! ### Checks -/

/-- A check that fails if it would replace a link. -/
def check? (s : Store) (probe goal : FeatureId) : Option Store :=
  if s.canCheck probe goal then
    if (s.checks? probe).isSome || (s.checker? goal).isSome then none else some (s.link probe goal)
  else some s

theorem canCheck_iff : s.canCheck probe goal = true ↔
    ∃ f g, s.value? probe = some f ∧ s.value? goal = some g ∧ f.fits g = true := by
  rw [canCheck, value?, value?]
  cases s.feature? probe with
  | none => simp
  | some f =>
    cases s.feature? goal with
    | none => simp
    | some g => simp

theorem feature?_link (s : Store) (probe goal fid : FeatureId) : (s.link probe goal).feature? fid =
    (s.feature? fid).map fun f => { f with
      checks := if fid = probe then some goal else f.checks
      checkedBy := if fid = goal then some probe else f.checkedBy } := by
  rw [link, feature?_modifyFeature, feature?_modifyFeature]
  split <;> split <;> simp [Function.comp_def]

section check

variable (s probe goal fid)

/-- A check does not change what features are, nor where. -/
@[simp] theorem value?_check : (s.check probe goal).value? fid = s.value? fid := by
  rw [check]
  split
  · rw [value?, feature?_link, Option.map_map, value?]
    rfl
  · rfl

@[simp] theorem host?_check : (s.check probe goal).host? fid = s.host? fid := by
  rw [check]
  split
  · rw [host?, feature?_link, host?]
    cases s.feature? fid <;> rfl
  · rfl

theorem checks?_check : (s.check probe goal).checks? fid =
    if fid = probe ∧ s.canCheck probe goal = true then some goal else s.checks? fid := by
  rw [check]
  split
  · next hcan =>
    obtain ⟨f, g, hf, -, -⟩ := canCheck_iff.mp hcan
    obtain ⟨occurrence, hoccurrence, -⟩ := Option.map_eq_some_iff.mp hf
    rw [checks?, feature?_link, checks?]
    by_cases hfid : fid = probe
    · simp [hfid, hoccurrence, hcan]
    · rw [if_neg fun h => hfid h.1]
      cases s.feature? fid with
      | none => rfl
      | some f => exact if_neg hfid
  · next hcan => rw [if_neg fun h => hcan h.2]

theorem checker?_check : (s.check probe goal).checker? fid =
    if fid = goal ∧ s.canCheck probe goal = true then some probe else s.checker? fid := by
  rw [check]
  split
  · next hcan =>
    obtain ⟨f, g, -, hg, -⟩ := canCheck_iff.mp hcan
    obtain ⟨occurrence, hoccurrence, -⟩ := Option.map_eq_some_iff.mp hg
    rw [checker?, feature?_link, checker?]
    by_cases hfid : fid = goal
    · simp [hfid, hoccurrence, hcan]
    · rw [if_neg fun h => hfid h.1]
      cases s.feature? fid with
      | none => rfl
      | some f => exact if_neg hfid
  · next hcan => rw [if_neg fun h => hcan h.2]

end check

/-- A check replaces no link if its probe and its goal are free when they fit. -/
theorem check?_eq
    (h : s.canCheck probe goal = true → s.checks? probe = none ∧ s.checker? goal = none) :
    s.check? probe goal = some (s.check probe goal) := by
  rw [check?, check]
  split
  · next hcan =>
    obtain ⟨hprobe, hgoal⟩ := h hcan
    rw [hprobe, hgoal]
    rfl
  · rfl

/-- A check by a selector or a licensor keeps the links a matching if its probe and its goal are
free when they fit. -/
theorem IsMatched.check (hs : s.IsMatched)
    (h : s.canCheck probe goal = true → s.checks? probe = none ∧ s.checker? goal = none)
    (hsign : ∀ f, s.value? probe = some f → f.sign ≠ .categorial ∧ f.sign ≠ .licensee) :
    (s.check probe goal).IsMatched := by
  refine ⟨fun {a b} => ?_, fun {a b} hab => ?_⟩
  · rw [checks?_check, checker?_check]
    by_cases hcan : s.canCheck probe goal = true
    · -- the new link is added on either side, and both of its ends were free
      obtain ⟨hprobe, hgoal⟩ := h hcan
      simp only [hcan, and_true]
      by_cases ha : a = probe <;> by_cases hb : b = goal
      · simp [ha, hb]
      · rw [if_pos ha, if_neg hb, ← hs.checks?_iff, ha, hprobe]
        simp [Ne.symm hb]
      · rw [if_neg ha, if_pos hb, hs.checks?_iff, hb, hgoal]
        simp [Ne.symm ha]
      · rw [if_neg ha, if_neg hb]
        exact hs.checks?_iff
    · simp only [hcan, and_false, if_false, Bool.false_eq_true]
      exact hs.checks?_iff
  · rw [value?_check, value?_check]
    rw [checks?_check] at hab
    split at hab
    · next hnew =>
      obtain ⟨rfl, hcan⟩ := hnew
      obtain rfl := Option.some.inj hab
      obtain ⟨f, g, hf, hg, hfits⟩ := canCheck_iff.mp hcan
      obtain ⟨hcategorial, hlicensee⟩ := hsign f hf
      rw [Feature.fits, Bool.and_eq_true, beq_iff_eq] at hfits
      refine ⟨f, g, hf, hg, hfits.1, ?_⟩
      have hcomplement := hfits.2
      rw [Sign.complementary, beq_iff_eq] at hcomplement
      cases hf' : f.sign <;> rw [hf'] at hcomplement <;> simp_all [Sign.complement]
    · exact hs.fits hab

end Store
end MinimalistGrammar
