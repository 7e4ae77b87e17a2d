import MinimalistGrammar.Proofs.Beam.Run
import MinimalistGrammar.Proofs.Derivation.Copies

/-!
# Runs that keep apart

A run adds states below its own states only. At the end it removes its own states only, with what
comes from them. So the states of another run stay what they are.

## Main definitions

* `BeamParser.Adds` — what a step adds.
* `BeamParser.IsApart` — a run keeps off some states, which are those of another run.
* `DerivationTree.Spares` — some states are left alone.

## Main results

* `BeamParser.adds_advance`, `BeamParser.finish_spec` — what a step adds, and what the last one
  removes.
* `BeamParser.IsApart.step` — a step of a run leaves alone what it keeps off.
-/

namespace MinimalistGrammar

variable {π : Type} {t u : DerivationTree} {own : List StateId}

namespace BeamParser

/-! ### What a step adds -/

section adds

/-- A state was added below `previous`, and new parses come from it. -/
structure Adds (p : BeamParser π) (t : DerivationTree) (previous : Option StateId)
    (p₁ : BeamParser π) (t₁ : DerivationTree) : Prop where
  status : p₁.status = p.status
  logged : p₁.logged = p.logged ++ [⟨t.nextId⟩]
  tree : ∃ store step, t₁ = ({ t with store }.addStep step previous).1
  beam {q : Parse π} : q ∈ p₁.beam.toList → q ∈ p.beam.toList ∨ q.previous = some ⟨t.nextId⟩
  results {q : Parse π} : q ∈ p₁.results → q ∈ p.results ∨ q.state = some ⟨t.nextId⟩

theorem Adds.nextId {p p₁ : BeamParser π} {previous : Option StateId} (h : p.Adds t previous p₁ u) :
    u.nextId = t.nextId + 1 := by
  obtain ⟨store, step, rfl⟩ := h.tree
  rfl

theorem Adds.isSealed {p p₁ : BeamParser π} {previous : Option StateId} (h : p.Adds t previous p₁ u)
    (ht : t.IsSealed p.logged) : u.IsSealed p₁.logged := by
  obtain ⟨store, step, rfl⟩ := h.tree
  rw [h.logged]
  exact (ht.withStore store).addStep_own step previous

variable [Probability π] (p : BeamParser π) (q : Parse π)

theorem logged_foldl_pushExpansion (share : π) (es : List Expansion) :
    (es.foldl (pushExpansion q share) p).logged = p.logged := by
  induction es generalizing p with
  | nil => rfl
  | cons e es ih => exact ih (pushExpansion q share p e)

omit [Probability π] in
theorem previous_extend (lex : Lexicon) (q : Parse π) (e : Expansion) (share : π)
    (message : String) : (q.extend lex e share message).previous = q.state := by
  cases e with
  | predict => rfl
  | scan => rfl

/-- Expanding a parse logs nothing, and what it puts on the beam comes from the parse. -/
theorem expand_spec (id : StateId) : (p.expand q id).1.status = p.status ∧
    (p.expand q id).1.logged = p.logged ∧ (p.expand q id).1.results = p.results ∧
      ∀ x ∈ (p.expand q id).1.beam.toList, x ∈ p.beam.toList ∨ x.previous = q.state := by
  have hcontinues := p.continues_expand q id
  generalize p.expand q id = r at hcontinues ⊢
  cases hcontinues with
  | unpredicted | unmatched | discarded => exact ⟨rfl, rfl, rfl, fun x hx => Or.inl hx⟩
  | @pushed c queue =>
    generalize c.expansions p.lexicon q.input = es
    generalize Probability.share q.probability es.length = share
    obtain ⟨-, hresults, hstatus, hbeam⟩ := foldl_pushExpansion { q with queue } share es p
    refine ⟨hstatus, logged_foldl_pushExpansion p { q with queue } share es, hresults,
      fun x hx => ?_⟩
    rcases List.mem_append.mp (hbeam.mem_iff.mp hx) with hx | hx
    · obtain ⟨e, -, rfl⟩ := List.mem_map.mp hx
      exact Or.inr (previous_extend ..)
    · exact Or.inl hx

/-- A parse that is gone on with is logged below the state of the parse from which it comes. -/
theorem adds_advance (t : DerivationTree) :
    p.Adds t q.previous (p.advance q t).1 (p.advance q t).2.1 := by
  have htree : ∃ store step, (p.logParse q t).2.1 = ({ t with store }.addStep step q.previous).1 :=
    ⟨_, _, rfl⟩
  rcases p.advance_cases q t with ⟨-, text, heq⟩ | ⟨-, heq⟩ <;> rw [heq]
  · refine ⟨rfl, rfl, htree, fun hx => Or.inl hx, fun {x} hx => ?_⟩
    rcases List.mem_append.mp hx with hx | hx
    · exact Or.inl hx
    · rw [List.mem_singleton.mp hx]
      exact Or.inr rfl
  · obtain ⟨hstatus, hlogged, hresults, hbeam⟩ := expand_spec (p.logParse q t).1
      { q with state := some (p.logParse q t).2.2 } (p.logParse q t).2.2
    exact ⟨hstatus, hlogged, htree, fun hx => hbeam _ hx, fun hx => Or.inl (hresults ▸ hx)⟩

end adds

/-! ### The ends of a run -/

/-- A run that begins has logged and found nothing, and the parse on its beam comes from no
state. -/
theorem start_spec [Probability π] (p : BeamParser π) (words : List String) (start : String) :
    (p.start words start).1.logged = [] ∧ (p.start words start).1.results = [] ∧
      ∀ q ∈ (p.start words start).1.beam.toList, q.previous = none := by
  unfold BeamParser.start
  simp only
  split
  · exact ⟨rfl, rfl, fun q hq => absurd hq List.not_mem_nil⟩
  · refine ⟨rfl, rfl, fun q hq => ?_⟩
    rw [List.mem_singleton.mp hq]
    rfl

theorem announce_eq (p : BeamParser π) (status : ParseStatus) :
    ∃ report, p.announce status = { p with report } := by
  have hregret (p : BeamParser π) : ∃ report, p.regret = { p with report } := by
    unfold regret
    split
    · exact ⟨_, rfl⟩
    · exact ⟨p.report, rfl⟩
  cases status with
  | found | noParse => exact ⟨_, rfl⟩
  | capReached | cancelled => exact hregret _

/-- The dead ends are the states of the run that are on no branch to a result. -/
theorem mem_deadEnds_iff {p : BeamParser π} {a : StateId} : a ∈ p.deadEnds t ↔
    a ∈ p.logged ∧ ∀ q ∈ p.results, ∀ s, q.state = some s → a ∉ t.branch s := by
  unfold deadEnds
  simp only [List.mem_filter, Bool.not_eq_true', ← Bool.not_eq_true, List.contains_iff_mem,
    List.mem_flatMap, List.mem_filterMap]
  refine and_congr_right fun _ => ⟨fun h q hq s hs hmem => h ⟨s, ⟨q, hq, hs⟩, hmem⟩, ?_⟩
  rintro h ⟨s, ⟨q, hq, hs⟩, hmem⟩
  exact h q hq s hs hmem

/-- At its end a run removes nothing, or its dead ends. -/
theorem finish_spec (p : BeamParser π) (status : ParseStatus) (t : DerivationTree) :
    (p.finish status t).1.status = some status ∧ ((p.finish status t).2.1 = t ∨
      ∃ ids, (∀ a ∈ ids, a ∈ p.logged) ∧ (p.finish status t).2.1 = (t.removeStates ids).1) := by
  obtain ⟨report, hannounce⟩ := p.announce_eq status
  rw [finish, hannounce]
  simp only
  split
  · exact ⟨trivial, Or.inr ⟨_, fun a ha => (mem_deadEnds_iff.mp ha).1, rfl⟩⟩
  · exact ⟨trivial, Or.inl rfl⟩

end BeamParser

/-! ### What other runs do -/

/-- The states of `own` are not touched, and no children are added to them. -/
structure DerivationTree.Spares (own : List StateId) (t u : DerivationTree) : Prop where
  state? {a : StateId} : a ∈ own → u.state? a = t.state? a
  nextId_le : t.nextId ≤ u.nextId
  isSealed : t.IsSealed own → u.IsSealed own

theorem DerivationTree.Spares.refl (own : List StateId) (t : DerivationTree) : t.Spares own t :=
  ⟨fun _ => rfl, Nat.le_refl _, fun h => h⟩

/-- States are removed, with what comes from them. -/
theorem DerivationTree.Spares.removeStates {ids : List StateId}
    (hparent : ∀ b a, t.parent? b = some a → b ∈ own → a ∈ own) (hids : ∀ a ∈ ids, a ∉ own) :
    t.Spares own (t.removeStates ids).1 where
  state? := DerivationTree.state?_removeStates_of_notMem hids hparent
  nextId_le := Nat.le_of_eq (DerivationTree.nextId_removeStates t ids).symm
  isSealed h := h.removeStates ids

namespace BeamParser

/-- A state is added below one that is not in `own`. -/
theorem Adds.spares {p p₁ : BeamParser π} {previous : Option StateId} (h : p.Adds t previous p₁ u)
    (hlt : ∀ a ∈ own, a.index < t.nextId) (hprevious : ∀ a, previous = some a → a ∉ own) :
    t.Spares own u := by
  obtain ⟨store, step, rfl⟩ := h.tree
  refine ⟨fun {a} ha => ?_, Nat.le_succ _,
    fun hsealed => (hsealed.withStore store).addStep _ _ hprevious⟩
  refine DerivationTree.state?_addStep_of_ne fun heq => ?_
  rw [heq] at ha
  exact Nat.lt_irrefl _ (hlt _ ha)

/-- As long as it goes on, a run has logged states under numbers that were given out, none of them
in `own`, and the parses on its beam come from states that it has logged. -/
structure IsApart (own : List StateId) (p : BeamParser π) (t : DerivationTree) : Prop where
  logged {a : StateId} : p.status = none → a ∈ p.logged → a.index < t.nextId ∧ a ∉ own
  previous {q : Parse π} {a : StateId} : p.status = none → q ∈ p.beam.toList → q.previous = some a →
    a ∈ p.logged

namespace IsApart

variable {p : BeamParser π}

theorem of_le (h : IsApart own p t) (hle : t.nextId ≤ u.nextId) : IsApart own p u where
  logged hstatus ha := ⟨Nat.lt_of_lt_of_le (h.logged hstatus ha).1 hle, (h.logged hstatus ha).2⟩
  previous := h.previous

/-- A new state is in no other run. -/
theorem append (h : IsApart own p t) (hle : t.nextId ≤ u.nextId) :
    IsApart (own ++ [⟨t.nextId⟩]) p u where
  logged {a} hstatus ha := by
    obtain ⟨hlt, hown⟩ := h.logged hstatus ha
    refine ⟨Nat.lt_of_lt_of_le hlt hle, fun hmem => ?_⟩
    rcases List.mem_append.mp hmem with hmem | hmem
    · exact hown hmem
    · rw [List.mem_singleton.mp hmem] at hlt
      exact Nat.lt_irrefl _ hlt
  previous := h.previous

variable [Probability π]

/-- A run that begins keeps off everything. -/
theorem start (own : List StateId) (p : BeamParser π) (words : List String) (start : String)
    (t : DerivationTree) : IsApart own (p.start words start).1 t := by
  obtain ⟨hlogged, -, hbeam⟩ := start_spec p words start
  refine ⟨fun _ ha => ?_, fun {q a} _ hq hprevious => ?_⟩
  · rw [hlogged] at ha
    exact absurd ha List.not_mem_nil
  · exact absurd ((hbeam q hq).symm.trans hprevious) (by simp)

omit [Probability π] in
/-- What a run adds it adds apart from `own`. -/
theorem of_adds (h : IsApart own p t) (hlt : ∀ a ∈ own, a.index < t.nextId)
    {previous : Option StateId} {p₁ : BeamParser π} (hadds : p.Adds t previous p₁ u) :
    IsApart own p₁ u where
  logged {a} hstatus ha := by
    rw [hadds.status] at hstatus
    rw [hadds.logged] at ha
    rw [hadds.nextId]
    rcases List.mem_append.mp ha with ha | ha
    · exact ⟨Nat.lt_succ_of_lt (h.logged hstatus ha).1, (h.logged hstatus ha).2⟩
    · -- the new number is greater than all of `own`
      rw [List.mem_singleton.mp ha]
      exact ⟨Nat.lt_succ_self _, fun hmem => Nat.lt_irrefl _ (hlt _ hmem)⟩
  previous {q a} hstatus hq ha := by
    rw [hadds.status] at hstatus
    rw [hadds.logged]
    rcases hadds.beam hq with hq | hq
    · exact List.mem_append_left _ (h.previous hstatus hq ha)
    · rw [← Option.some.inj (hq.symm.trans ha)]
      exact List.mem_append_right _ (List.mem_singleton_self _)

/-- A step of a run that keeps apart leaves the states of `own` alone, if their parents are among
them. -/
theorem step (h : IsApart own p t) (hlt : ∀ a ∈ own, a.index < t.nextId)
    (hparent : ∀ b a, t.parent? b = some a → b ∈ own → a ∈ own) :
    t.Spares own (p.step t).2.1 ∧ IsApart own (p.step t).1 (p.step t).2.1 := by
  rcases p.step_cases t with ⟨status, -, heq⟩ | ⟨hnone, report, -,
    ⟨status, heq, -⟩ | ⟨q, beam, hpop, heq⟩⟩
  · rw [heq]
    exact ⟨.refl own t, h⟩
  · obtain ⟨hstatus, htree⟩ := finish_spec { p with report } status t
    rw [heq]
    refine ⟨?_, fun hnone => ?_, fun hnone => ?_⟩
    · rcases htree with htree | ⟨ids, hids, htree⟩
      · rw [htree]
        exact .refl own t
      · rw [htree]
        exact .removeStates hparent fun a ha => (h.logged hnone (hids a ha)).2
    all_goals
      rw [hstatus] at hnone
      exact absurd hnone (by simp)
  · have hbeam := StableQueue.toList_eq_of_pop? hpop
    have htaken : IsApart own { p with report, beam, steps := p.steps + 1 } t :=
      ⟨h.logged, fun hstatus hq => h.previous hstatus (hbeam ▸ List.mem_cons_of_mem _ hq)⟩
    have hadds := adds_advance { p with report, beam, steps := p.steps + 1 } q t
    rw [heq]
    refine ⟨hadds.spares hlt fun a ha => ?_, htaken.of_adds hlt hadds⟩
    exact (h.logged hnone (h.previous hnone (hbeam ▸ List.mem_cons_self ..) ha)).2

end IsApart

end BeamParser
end MinimalistGrammar
