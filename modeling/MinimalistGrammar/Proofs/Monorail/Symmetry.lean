import MinimalistGrammar.Proofs.Monorail.Discipline

/-!
# Which links are symmetric

A merge sets the link of a probe to its goal and the link of the goal back to its probe. A feature
checks at most once, so its link to the goal stays. But a category that an adjunct has found stays
open, and its link back leads to the last probe that has found it. The adjuncts that have found it
before are still linked to it.

So a category is always linked to a probe that is linked to it. The converse fails exactly for the
adjuncts whose category is found again.

## Main results

* `of_lastProbe?_ne` — a check that is not the last one of its goal.
* `MonorailParser.links_parse` — **the links of a sentence are symmetric exactly if no category is
  found twice.**
-/

namespace MinimalistGrammar

variable {made : List (FeatureId × FeatureId)} {a b : FeatureId}

/-- If a check is not the last one of its goal, there is a later one. -/
theorem of_lastProbe?_ne {P : FeatureId → Prop} (h : made.Pairwise fun c c' => c.2 = c'.2 → P c.1)
    (hmem : (a, b) ∈ made) (hne : lastProbe? made b ≠ some a) : P a := by
  induction made using List.reverseRecOn with
  | nil => exact absurd hmem List.not_mem_nil
  | append_singleton made c ih =>
    obtain ⟨hold, -, hlast⟩ := List.pairwise_append.mp h
    rw [lastProbe?_concat] at hne
    rcases List.mem_append.mp hmem with hmem | hmem
    · by_cases hb : b = c.2
      · exact hlast (a, b) hmem c (List.mem_singleton_self _) hb
      · rw [if_neg hb] at hne
        exact ih hold hmem hne
    · rw [← List.mem_singleton.mp hmem, if_pos rfl] at hne
      exact absurd rfl hne

/-- Every check is the last one of its goal exactly if no goal is checked twice. -/
theorem forall_lastProbe?_iff (h : made.Nodup) :
    (∀ c ∈ made, lastProbe? made c.2 = some c.1) ↔ (made.map (·.2)).Nodup := by
  constructor
  · intro hlast
    refine h.map_on fun c hc c' hc' heq => ?_
    have hprobe := hlast c hc
    rw [heq, hlast c' hc'] at hprobe
    exact Prod.ext (Option.some.inj hprobe).symm heq
  · intro hnodup c hc
    obtain ⟨probe, hprobe⟩ := exists_lastProbe? hc
    have heq := List.inj_on_of_nodup_map hnodup (mem_of_lastProbe? hprobe) hc rfl
    rw [hprobe, ← heq]

namespace MonorailParser

/-- **The links of a sentence are symmetric exactly if no category is found twice.** In an empty
tree, a feature is linked to the category that it has found, and a category to the last probe that
has found it, which is linked to it. A probe that is linked to a category that is not linked back is
an adjunct. -/
theorem links_parse (p : MonorailParser) (words : List String) :
    let s := (p.parse words {}).2.1.store
    let made := checksShown {} ((p.parse words {}).1.report.since p.report)
    (∀ a b, s.checks? a = some b ↔ (a, b) ∈ made) ∧
    (∀ a b, s.checker? b = some a ↔ lastProbe? made b = some a) ∧
    (∀ a b, s.checker? b = some a → s.checks? a = some b) ∧
    (∀ a b, s.checks? a = some b → s.checker? b ≠ some a → s.sign? a = some .adjunct) ∧
    (s.IsSymmetric ↔ (made.map (·.2)).Nodup) := by
  intro s made
  obtain ⟨k, -, s', raising, hend, -, heq⟩ := p.exists_reaches_parse words {}
  have htracks : Store.Tracks {} s s'.used made := by
    have hstore : s = s'.store := congrArg (·.1.store) heq
    rw [hstore]
    exact hend.isTracked.tracks
  have honce := htracks.checksOnce
  -- all features have been added
  have hadded {fid : FeatureId} (hfid : s.feature? fid ≠ none) :
      Store.Added {} s (.feature fid) := by
    refine Classical.byContradiction fun hnot => hfid ?_
    rw [honce.old hnot, Store.feature?]
    simp
  have hstored {fid : FeatureId} (hfid : Store.Added {} s (.feature fid)) : s.feature? fid ≠ none :=
    fun hnone => htracks.stored hfid (by rw [Store.value?, hnone, Option.map_none])
  have hchecks (a b : FeatureId) : s.checks? a = some b ↔ (a, b) ∈ made := by
    rw [honce.linked]
    refine ⟨fun hab => ⟨hadded fun hnone => ?_, hab⟩, And.right⟩
    rw [Store.checks?, hnone] at hab
    exact absurd hab (by simp)
  have hchecker (a b : FeatureId) : s.checker? b = some a ↔ lastProbe? made b = some a := by
    constructor
    · intro hba
      have hb : s.feature? b ≠ none := fun hnone => by simp [Store.checker?, hnone] at hba
      rw [← (htracks.links (hadded hb)).checker?, hba]
    · intro hlast
      rw [(htracks.links (htracks.found (mem_of_lastProbe? hlast)).2.1).checker?, hlast]
  refine ⟨hchecks, hchecker, fun a b hba => ?_, fun a b hab hne => ?_, ?_⟩
  · exact (hchecks a b).mpr (mem_of_lastProbe? ((hchecker a b).mp hba))
  · exact of_lastProbe?_ne (P := fun c => s.sign? c = some .adjunct) honce.consumed
      ((hchecks a b).mp hab) ((hchecker a b).not.mp hne)
  · rw [← forall_lastProbe?_iff (List.Nodup.of_map _ honce.once), Store.isSymmetric_iff]
    constructor
    · intro hs c hc
      obtain ⟨hprobe, hgoal, -⟩ := htracks.found hc
      exact (hchecker ..).mp
        ((hs c.1 c.2 (hstored hprobe) (hstored hgoal)).mp ((hchecks ..).mpr hc))
    · intro hlast a b _ _
      rw [hchecks, hchecker]
      exact ⟨fun hmem => hlast (a, b) hmem, mem_of_lastProbe?⟩

/-- Two adjuncts find the category 0 of the noun. It is linked to the second one only, and the first
one is linked to it. -/
theorem links_parse_adjoining :
    let s := (adjoining.parse ["noun", "adjunct", "adjunct"] {}).2.1.store
    s.checks? ⟨2⟩ = some ⟨0⟩ ∧ s.checker? ⟨0⟩ = some ⟨3⟩ ∧ ¬s.IsSymmetric := by
  intro s
  refine ⟨by decide +kernel, by decide +kernel, fun hs => ?_⟩
  obtain ⟨-, -, -, -, hiff⟩ := adjoining.links_parse ["noun", "adjunct", "adjunct"]
  exact absurd (hiff.mp hs) (by decide +kernel)

end MonorailParser

end MinimalistGrammar
