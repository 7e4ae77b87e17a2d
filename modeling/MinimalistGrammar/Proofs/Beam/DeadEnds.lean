import MinimalistGrammar.Proofs.Beam.Apart
import MinimalistGrammar.Proofs.Beam.BestFirst
import MinimalistGrammar.Proofs.Beam.Ownership
import MinimalistGrammar.Proofs.Derivation.Keeping

/-!
# Dead ends

A run adds states below its own ones, and a parse that is complete is not gone on with, so the state
of a result has no children. If the run removes its dead ends, no state on the way to a result comes
from one of them. So exactly the branches to the results are left of the run, and all that was there
before.

## Main definitions

* `StepResult.states` — the states that some steps have added.
* `BeamParser.GoesOn` — what holds of a run on a tree with any earlier contents.
* `BeamParser.LeavesLineages` — what a run leaves behind.

## Main results

* `BeamParser.GoesOn.stepTimes` — a run adds states and changes nothing.
* `BeamParser.GoesOn.mem_own_iff_of_removeStates` — without its dead ends, what is left of a run are
  the branches to its results.
* `BeamParser.leavesLineages_of_endsAfter` — what a run that removes its dead ends leaves behind.
-/

namespace MinimalistGrammar

/-- The state that a step has added. -/
def StepResult.state? : StepResult → Option StateId
  | expanded id _ | deadEnd id | discarded id | success id => some id
  | finished _ => none

/-- The states that some steps have added. -/
def StepResult.states (results : List StepResult) : List StateId := results.filterMap state?

namespace BeamParser

variable {π : Type} {t u : DerivationTree} {own : List StateId} {p : BeamParser π} {q : Parse π}

/-! ### Steps that go on -/

/-- A run has added the states `own` to the tree `t`, below its own states only. The states of its
results have no children, and no parse on the beam comes from one of them. -/
structure GoesOn (t : DerivationTree) (own : List StateId) (p : BeamParser π)
    (u : DerivationTree) : Prop where
  wellFormed : u.IsWellFormed
  discards : p.settings.discardDeadEnds = true
  idle : p.status ≠ none → p.results = []
  logged : p.logged = own
  earlier {id : StateId} : t.contains id = true → u.contains id = true
  nextId_le : t.nextId ≤ u.nextId
  mem_own_iff {id : StateId} : id ∈ own ↔ u.contains id = true ∧ t.nextId ≤ id.index
  others {id : StateId} : u.contains id = true → id.index < t.nextId → t.contains id = true
  parent {id a : StateId} : id ∈ own → u.parent? id = some a → a ∈ own
  previous {q : Parse π} {a : StateId} : q ∈ p.beam.toList → q.previous = some a →
    a ∈ own ∧ ∀ r ∈ p.results, r.state ≠ some a
  result {q : Parse π} : q ∈ p.results → ∃ c ∈ own, q.state = some c ∧ ∀ id, u.parent? id ≠ some c

section advance

variable [Probability π] (p : BeamParser π) (q : Parse π) (u : DerivationTree)

/-- The tree of a parse that is gone on with is built apart. -/
theorem exists_covers_advance {u : DerivationTree} (hu : u.IsWellFormed) : ∃ step store,
    (p.advance q u).2.1 = ({ u with store }.addStep step q.previous).1 ∧
      step.Covers u.store store := by
  refine ⟨(stepOf u.store q).2, (stepOf u.store q).1, ?_,
    covers_stepOf hu.store.toIsNumbered (fun _ _ => hu.group) q⟩
  rw [tree_advance]
  rfl

theorem state?_expand (id : StateId) : (p.expand q id).2.state? = some id := by
  have hcontinues := p.continues_expand q id
  generalize p.expand q id = r at hcontinues ⊢
  cases hcontinues <;> rfl

theorem state?_advance : (p.advance q u).2.2.state? = some ⟨u.nextId⟩ := by
  rcases p.advance_cases q u with ⟨-, text, heq⟩ | ⟨-, heq⟩ <;> rw [heq]
  · rfl
  · exact state?_expand ..

/-- Where a result is found, nothing is put on the beam. -/
theorem beam_or_results_advance :
    (p.advance q u).1.beam = p.beam ∨ (p.advance q u).1.results = p.results := by
  rcases p.advance_cases q u with ⟨-, text, heq⟩ | ⟨-, heq⟩ <;> rw [heq]
  · exact Or.inl rfl
  · exact Or.inr (expand_spec ..).2.2.1

end advance

section adds

variable {previous : Option StateId} {p₁ : BeamParser π} {u₁ : DerivationTree}
  (hadds : p.Adds u previous p₁ u₁)

include hadds

theorem Adds.contains_iff (id : StateId) :
    u₁.contains id = true ↔ id = ⟨u.nextId⟩ ∨ u.contains id = true := by
  obtain ⟨store, step, rfl⟩ := hadds.tree
  exact DerivationTree.contains_addStep step previous { u with store } id

theorem Adds.parent?_eq (id : StateId) :
    u₁.parent? id = if id = ⟨u.nextId⟩ then previous.filter u.contains else u.parent? id := by
  obtain ⟨store, step, rfl⟩ := hadds.tree
  exact DerivationTree.parent?_addStep step previous { u with store } id

end adds

namespace GoesOn

variable (h : GoesOn t own p u)

include h

/-- The number of the next state is new. -/
theorem ne_nextId {a : StateId} (ha : a ∈ own) : a ≠ ⟨u.nextId⟩ := by
  rintro rfl
  exact Nat.lt_irrefl _ (h.wellFormed.fresh (h.mem_own_iff.mp ha).1)

theorem mem_own_of_result {a : StateId} (hq : q ∈ p.results) (ha : q.state = some a) : a ∈ own := by
  obtain ⟨c, hc, hstate, -⟩ := h.result hq
  rwa [← Option.some.inj (hstate.symm.trans ha)]

/-! ### One more state -/

section advance

variable {beam : StableQueue (BeamKey π) (Parse π)} (hpop : p.beam.pop? = some (q, beam))
  {taken p₁ : BeamParser π} {u₁ : DerivationTree} (hadds : taken.Adds u q.previous p₁ u₁)

include hadds

theorem mem_own_append_iff {id : StateId} :
    id ∈ own ++ [⟨u.nextId⟩] ↔ u₁.contains id = true ∧ t.nextId ≤ id.index := by
  rw [List.mem_append, List.mem_singleton, h.mem_own_iff, hadds.contains_iff]
  constructor
  · rintro (⟨hid, hle⟩ | rfl)
    · exact ⟨Or.inr hid, hle⟩
    · exact ⟨Or.inl rfl, h.nextId_le⟩
  · rintro ⟨rfl | hid, hle⟩
    · exact Or.inr rfl
    · exact Or.inl ⟨hid, hle⟩

include hpop

/-- The parent of a state of the run is one of the run. -/
theorem parent_append {id a : StateId} (hid : id ∈ own ++ [⟨u.nextId⟩])
    (ha : u₁.parent? id = some a) : a ∈ own ++ [⟨u.nextId⟩] := by
  apply List.mem_append_left
  rw [hadds.parent?_eq] at ha
  split at ha
  · exact (h.previous (StableQueue.mem_toList_of_pop? hpop) (Option.filter_eq_some_iff.mp ha).1).1
  · next hnot =>
    rcases List.mem_append.mp hid with hid | hid
    · exact h.parent hid ha
    · exact absurd (List.mem_singleton.mp hid) hnot

/-- Either a result is found, or the parse is gone on with. So no parse on the beam comes from a
result. -/
theorem previous_append (hbeam : taken.beam = beam) (hresults : taken.results = p.results)
    (honly : p₁.beam = taken.beam ∨ p₁.results = taken.results) {x : Parse π} {a : StateId}
    (hx : x ∈ p₁.beam.toList) (ha : x.previous = some a) :
    a ∈ own ++ [⟨u.nextId⟩] ∧ ∀ r ∈ p₁.results, r.state ≠ some a := by
  have hopen : p.beam.toList = q :: beam.toList := StableQueue.toList_eq_of_pop? hpop
  have hwas (hx : x ∈ taken.beam.toList) : a ∈ own ∧ ∀ r ∈ p.results, r.state ≠ some a :=
    h.previous (hopen ▸ List.mem_cons_of_mem _ (hbeam ▸ hx)) ha
  rcases honly with hsame | hsame
  · obtain ⟨hmem, hnone⟩ := hwas (hsame ▸ hx)
    refine ⟨List.mem_append_left _ hmem, ?_⟩
    intro r hr hstate
    rcases hadds.results hr with hr | hnew
    · exact hnone r (hresults ▸ hr) hstate
    · exact h.ne_nextId hmem (Option.some.inj (hstate.symm.trans hnew))
  · rw [hsame, hresults]
    rcases hadds.beam hx with hx | hnew
    · obtain ⟨hmem, hnone⟩ := hwas hx
      exact ⟨List.mem_append_left _ hmem, hnone⟩
    · obtain rfl := Option.some.inj (hnew.symm.trans ha)
      refine ⟨List.mem_append_right _ (List.mem_singleton_self _), ?_⟩
      intro r hr hstate
      exact h.ne_nextId (h.mem_own_of_result hr hstate) rfl

/-- No state is added below that of a result. -/
theorem result_append (hresults : taken.results = p.results) {x : Parse π} (hx : x ∈ p₁.results) :
    ∃ c ∈ own ++ [⟨u.nextId⟩], x.state = some c ∧ ∀ id, u₁.parent? id ≠ some c := by
  have hprevious {c : StateId} (hc : q.previous.filter u.contains = some c) :
      c ∈ own ∧ ∀ r ∈ p.results, r.state ≠ some c :=
    h.previous (StableQueue.mem_toList_of_pop? hpop) (Option.filter_eq_some_iff.mp hc).1
  rcases hadds.results hx with hx | hnew
  · rw [hresults] at hx
    obtain ⟨c, hc, hstate, hchildless⟩ := h.result hx
    refine ⟨c, List.mem_append_left _ hc, hstate, ?_⟩
    intro id hid
    rw [hadds.parent?_eq] at hid
    split at hid
    · exact (hprevious hid).2 x hx hstate
    · exact hchildless id hid
  · refine ⟨⟨u.nextId⟩, List.mem_append_right _ (List.mem_singleton_self _), hnew, ?_⟩
    intro id hid
    rw [hadds.parent?_eq] at hid
    split at hid
    · exact h.ne_nextId (hprevious hid).1 rfl
    · exact Nat.lt_irrefl _ (h.wellFormed.fresh (h.wellFormed.parent hid).1)

omit hadds in
/-- A parse that was taken off the beam is gone on with. -/
theorem advance [Probability π] (report : Report) (hstatus : p.status = none) :
    let taken : BeamParser π := { p with report, beam, steps := p.steps + 1 }
    GoesOn t (own ++ [⟨u.nextId⟩]) (taken.advance q u).1 (taken.advance q u).2.1 := by
  intro taken
  have hadds := adds_advance taken q u
  obtain ⟨step, store, htree, hcovers⟩ := exists_covers_advance taken q h.wellFormed
  exact
    { wellFormed := htree ▸ h.wellFormed.addStep hcovers q.previous
      discards := (steps_advance taken q u).2 ▸ h.discards
      idle := fun hnot => absurd (hadds.status.trans hstatus) hnot
      logged := by rw [hadds.logged, show taken.logged = own from h.logged]
      earlier := fun hid => (hadds.contains_iff _).mpr (Or.inr (h.earlier hid))
      nextId_le := by rw [hadds.nextId]; exact Nat.le_succ_of_le h.nextId_le
      mem_own_iff := h.mem_own_append_iff hadds
      others := fun {id} hid hlt => by
        rcases (hadds.contains_iff id).mp hid with rfl | hid
        · exact absurd hlt (Nat.not_lt.mpr h.nextId_le)
        · exact h.others hid hlt
      parent := h.parent_append hpop hadds
      previous := h.previous_append hpop hadds rfl rfl (beam_or_results_advance taken q u)
      result := h.result_append hpop hadds rfl }

end advance

omit h

variable [Probability π]

/-- A run that begins has added nothing. -/
theorem start (ht : t.IsWellFormed) (p : BeamParser π)
    (hdiscard : p.settings.discardDeadEnds = true) (words : List String) (start : String) :
    GoesOn t [] (p.start words start).1 t := by
  obtain ⟨hlogged, hresults, hbeam⟩ := start_spec p words start
  have hsettings : (p.start words start).1.settings = p.settings := by
    rw [BeamParser.start]
    simp only
    split
    · rfl
    · rfl
  refine
    { wellFormed := ht
      discards := hsettings ▸ hdiscard
      idle := fun _ => hresults
      logged := hlogged
      earlier := fun hid => hid
      nextId_le := Nat.le_refl _
      mem_own_iff := ?_
      others := fun hid _ => hid
      parent := fun hid => absurd hid List.not_mem_nil
      previous := fun {q a} hq ha => absurd ((hbeam q hq).symm.trans ha) (by simp)
      result := fun {q} hq => absurd (hresults ▸ hq) List.not_mem_nil }
  intro id
  constructor
  · intro hid
    exact absurd hid List.not_mem_nil
  · rintro ⟨hid, hle⟩
    exact absurd (ht.fresh hid) (Nat.not_lt.mpr hle)

/-- A step that does not end the run adds one state, and changes none. -/
theorem step (h : GoesOn t own p u) (hgoes : ∀ status, (p.step u).2.2 ≠ .finished status) :
    GoesOn t (own ++ StepResult.states [(p.step u).2.2]) (p.step u).1 (p.step u).2.1 ∧
      ∀ id, u.contains id = true → (p.step u).2.1.contains id = true ∧
        u.KeepsState (p.step u).2.1 id := by
  rcases p.step_cases u with ⟨status, -, heq⟩ |
    ⟨hnone, report, -, ⟨status, heq, -⟩ | ⟨q, beam, hpop, heq⟩⟩
  · exact absurd (by rw [heq]) (hgoes status)
  · exact absurd (by rw [heq]; rfl) (hgoes status)
  · have hnext := h.advance hpop report hnone
    obtain ⟨step, store, htree, hcovers⟩ := exists_covers_advance
      { p with report, beam, steps := p.steps + 1 } q h.wellFormed
    rw [heq, StepResult.states, List.filterMap_cons_some (state?_advance ..), List.filterMap_nil]
    refine ⟨hnext, ?_⟩
    intro id hid
    rw [htree]
    constructor
    · exact (DerivationTree.contains_addStep step q.previous { u with store } id).mpr (Or.inr hid)
    · exact h.wellFormed.keepsState_addStep hcovers q.previous hid

/-- As long as it goes on, a run adds states, and changes none. -/
theorem stepTimes (h : GoesOn t own p u) (n : Nat)
    (hgoes : ∀ status, .finished status ∉ (p.stepTimes u n).2.2) :
    GoesOn t (own ++ StepResult.states (p.stepTimes u n).2.2) (p.stepTimes u n).1
      (p.stepTimes u n).2.1 ∧
      ∀ k ≤ n, ∀ id, (p.stepTimes u k).2.1.contains id = true →
        (p.stepTimes u n).2.1.contains id = true ∧
        (p.stepTimes u k).2.1.KeepsState (p.stepTimes u n).2.1 id := by
  induction n generalizing p u own with
  | zero =>
    constructor
    · simpa [BeamParser.stepTimes, StepResult.states] using h
    · intro k hk id hid
      obtain rfl := Nat.le_zero.mp hk
      exact ⟨hid, .refl _ id⟩
  | succ n ih =>
    obtain ⟨hstep, hkeeps⟩ := h.step fun status heq => hgoes status (heq ▸ List.mem_cons_self ..)
    obtain ⟨hrest, hkeepsRest⟩ :=
      ih hstep fun status hmem => hgoes status (List.mem_cons_of_mem _ hmem)
    constructor
    · rwa [List.append_assoc, StepResult.states, StepResult.states,
        ← List.filterMap_append] at hrest
    · intro k hk id hid
      -- what the first step keeps is kept by the others
      cases k with
      | zero =>
        obtain ⟨hcontains, hkept⟩ := hkeeps id hid
        obtain ⟨hcontains', hkept'⟩ := hkeepsRest 0 (Nat.zero_le n) id hcontains
        exact ⟨hcontains', hkept.trans hkept'⟩
      | succ k => exact hkeepsRest k (Nat.le_of_succ_le_succ hk) id hid

/-! ### The end of a run -/

omit [Probability π] in
theorem tree_finish (p : BeamParser π) (status : ParseStatus) (u : DerivationTree) :
    (p.finish status u).2.1 = if p.settings.discardDeadEnds && !p.results.isEmpty then
      (u.removeStates (p.deadEnds u)).1 else u := by
  obtain ⟨report, hannounce⟩ := p.announce_eq status
  rw [finish, hannounce]
  simp only
  split
  · rfl
  · rfl

/-- At its end a run with results removes its dead ends, and one without results nothing. -/
theorem step_of_finished (h : GoesOn t own p u) {status : ParseStatus}
    (hend : (p.step u).2.2 = .finished status) : (p.step u).1.results = p.results ∧
      (p.step u).2.1 = if p.results.isEmpty then u else (u.removeStates (p.deadEnds u)).1 := by
  rcases p.step_cases u with ⟨_, hstatus, heq⟩ |
    ⟨-, report, -, ⟨status', heq, -⟩ | ⟨q, beam, -, heq⟩⟩
  · rw [heq, h.idle (by simp [hstatus])]
    exact ⟨rfl, rfl⟩
  · obtain ⟨-, -, hresults, -⟩ := finish_eq { p with report } status' u
    rw [heq, tree_finish, h.discards, hresults]
    refine ⟨rfl, ?_⟩
    cases p.results.isEmpty <;> rfl
  · rw [heq] at hend
    exact absurd hend (advance_ne_finished _ q u status)

omit [Probability π]

/-- What was there before the run is no dead end of it, and comes from none. -/
theorem contains_removeStates_of_earlier (h : GoesOn t own p u) (ht : t.IsWellFormed) {id : StateId}
    (hid : t.contains id = true) : (u.removeStates (p.deadEnds u)).1.contains id = true := by
  -- all that is removed has numbers that were given out in the run
  have hnew (a : StateId) (ha : a ∈ p.deadEnds u) : t.nextId ≤ a.index :=
    (h.mem_own_iff.mp (h.logged ▸ (mem_deadEnds_iff.mp ha).1)).2
  have hchild (b a : StateId) (hb : u.parent? b = some a) (hle : t.nextId ≤ a.index) :
      t.nextId ≤ b.index :=
    Nat.le_trans hle (Nat.le_of_lt (h.wellFormed.parent hb).2)
  apply (DerivationTree.contains_removeStates ..).mpr ⟨h.earlier hid, Bool.eq_false_iff.mpr _⟩
  intro hgone
  have hle := DerivationTree.of_contains_doomed hnew hchild hgone
  exact absurd (ht.fresh hid) (Nat.not_lt.mpr hle)

/-- A result is no dead end, and comes from none. -/
theorem not_doomed_of_result (h : GoesOn t own p u) (hq : q ∈ p.results) {c : StateId}
    (hc : q.state = some c) : (u.doomed (p.deadEnds u)).contains c = false := by
  apply Bool.eq_false_iff.mpr
  intro hgone
  obtain ⟨a, ha, -, hcomes⟩ := h.wellFormed.contains_doomed_iff.mp hgone
  have hcontains := (h.mem_own_iff.mp (h.mem_own_of_result hq hc)).1
  have hmem : a ∈ u.branch c := h.wellFormed.mem_branch_iff.mpr ⟨hcontains, hcomes⟩
  exact (mem_deadEnds_iff.mp ha).2 q hq c hc hmem

/-- The state of a result stays, and has no children. -/
theorem result_removeStates (h : GoesOn t own p u) (hq : q ∈ p.results) :
    ∃ c ∈ own, q.state = some c ∧ (u.removeStates (p.deadEnds u)).1.contains c = true ∧
      (u.removeStates (p.deadEnds u)).1.childrenOf c = [] := by
  obtain ⟨c, hown, hc, hchildless⟩ := h.result hq
  refine ⟨c, hown, hc, ?_, ?_⟩
  · exact (DerivationTree.contains_removeStates ..).mpr
      ⟨(h.mem_own_iff.mp hown).1, h.not_doomed_of_result hq hc⟩
  · apply List.eq_nil_iff_forall_not_mem.mpr
    intro id hid
    have hparent := (h.wellFormed.removeStates (p.deadEnds u)).mem_childrenOf_iff.mp hid
    exact hchildless id (DerivationTree.parent?_of_parent?_removeStates hparent)

/-- The branch to a result has states of the run only. -/
theorem mem_own_of_comesFrom (h : GoesOn t own p u) {c a : StateId} (hc : c ∈ own)
    (hcomes : u.ComesFrom c a) : a ∈ own := by
  induction hcomes with
  | refl => exact hc
  | up hp _ ih => exact ih (h.parent hc hp)

/-- Without its dead ends, what is left of a run are the branches to its results. -/
theorem mem_own_iff_of_removeStates (h : GoesOn t own p u) {id : StateId} :
    id ∈ own ∧ (u.removeStates (p.deadEnds u)).1.contains id = true ↔
      ∃ q ∈ p.results, ∃ c, q.state = some c ∧ id ∈ (u.removeStates (p.deadEnds u)).1.branch c := by
  rw [DerivationTree.contains_removeStates]
  constructor
  · rintro ⟨hid, hcontains, hstays⟩
    -- a state of the run that is on no branch to a result is a dead end
    by_contra hnone
    have hdead : id ∈ p.deadEnds u := by
      apply mem_deadEnds_iff.mpr ⟨h.logged ▸ hid, ?_⟩
      intro q hq c hc hmem
      apply hnone ⟨q, hq, c, hc, ?_⟩
      rwa [h.wellFormed.mem_branch_removeStates_iff (h.not_doomed_of_result hq hc)]
    rw [DerivationTree.contains_doomed_of_mem hdead hcontains] at hstays
    exact absurd hstays (by simp)
  · rintro ⟨q, hq, c, hc, hmem⟩
    have hstays := h.not_doomed_of_result hq hc
    rw [h.wellFormed.mem_branch_removeStates_iff hstays] at hmem
    obtain ⟨hcontains, hcomes⟩ := h.wellFormed.mem_branch_iff.mp hmem
    have hown := h.mem_own_of_comesFrom (h.mem_own_of_result hq hc) hcomes
    refine ⟨hown, h.wellFormed.contains_of_comesFrom hcontains hcomes, ?_⟩
    -- the result would go with what it comes from
    apply Bool.eq_false_iff.mpr
    intro hgone
    exact absurd (h.wellFormed.contains_doomed_of_comesFrom hcomes hgone) (by simp [hstays])

end GoesOn

/-- What a run has left in the end in the tree `t`, if `trees k` was the tree after `k` of its `n`
steps, `own` are the states that it added, and its results are `results`. -/
structure LeavesLineages (trees : Nat → DerivationTree) (n : Nat) (own : List StateId)
    (results : List (Parse π)) (t : DerivationTree) : Prop where
  wellFormed : t.IsWellFormed
  /-- The states that were there before the run are there. -/
  earlier {id : StateId} : (trees 0).contains id = true → t.contains id = true
  /-- All others are states of the run. -/
  others {id : StateId} : t.contains id = true → (trees 0).contains id = true ∨ id ∈ own
  /-- What is there is what it was at any time of the run. -/
  keeps {k : Nat} {id : StateId} : k ≤ n → (trees k).contains id = true → t.contains id = true →
    (trees k).KeepsState t id
  /-- Every result has a state of the run, which is there and has no children. -/
  result {q : Parse π} : q ∈ results → ∃ c ∈ own, q.state = some c ∧ t.contains c = true ∧
    t.childrenOf c = []
  /-- The branches to the results are what they were before the last step. -/
  branch {q : Parse π} {c id : StateId} : q ∈ results → q.state = some c →
    (id ∈ t.branch c ↔ id ∈ (trees n).branch c)
  /-- If there are results, the states of the run that are there are those on the branches to
  them. -/
  lineages {id : StateId} : results ≠ [] →
    (id ∈ own ∧ t.contains id = true ↔ ∃ q ∈ results, ∃ c, q.state = some c ∧ id ∈ t.branch c)
  /-- If there are none, everything is there. -/
  whole {k : Nat} {id : StateId} : results = [] → k ≤ n → (trees k).contains id = true →
    t.contains id = true

section run

variable [Probability π]

/-- A run goes on for `n` steps, and the next one ends it. -/
def EndsAfter (p : BeamParser π) (t : DerivationTree) (n : Nat) : Prop :=
  (∀ status, .finished status ∉ (p.stepTimes t n).2.2) ∧
    ∃ status, ((p.stepTimes t n).1.step (p.stepTimes t n).2.1).2.2 = .finished status

/-- Every run comes to its end. -/
theorem exists_endsAfter (p : BeamParser π) (t : DerivationTree) : ∃ n, p.EndsAfter t n := by
  -- on the number of steps that the settings still allow
  generalize hbound : p.settings.stepCap - p.steps = bound
  induction bound using Nat.strongRecOn generalizing p t with
  | ind bound ih =>
    by_cases hend : ∃ status, (p.step t).2.2 = .finished status
    · exact ⟨0, fun status hmem => absurd hmem List.not_mem_nil, hend⟩
    · have hgoes := not_exists.mp hend
      have hlt := steps_step_lt (p := p) (t := t) rfl hgoes
      obtain ⟨n, hrest, hlast⟩ := ih _ (hbound ▸ hlt) (p.step t).1 (p.step t).2.1 rfl
      refine ⟨n + 1, ?_, hlast⟩
      intro status hmem
      rcases List.mem_cons.mp hmem with heq | hmem
      · exact hgoes status heq.symm
      · exact hrest status hmem

/-- What a run leaves that has gone on for `n` steps and ends with the next one. -/
theorem GoesOn.leavesLineages (h : GoesOn t own p u) (ht : t.IsWellFormed)
    {trees : Nat → DerivationTree} {n : Nat} (hfirst : trees 0 = t) (hlast : trees n = u)
    (hkeeps : ∀ k ≤ n, ∀ id,
      (trees k).contains id = true → u.contains id = true ∧ (trees k).KeepsState u id)
    {status : ParseStatus} (hend : (p.step u).2.2 = .finished status) :
    LeavesLineages trees n own (p.step u).1.results (p.step u).2.1 := by
  obtain ⟨hresults, htree⟩ := h.step_of_finished hend
  rw [hresults, htree]
  have hothers {id : StateId} (hid : u.contains id = true) :
      (trees 0).contains id = true ∨ id ∈ own := by
    rcases Nat.lt_or_ge id.index t.nextId with hlt | hge
    · exact Or.inl (hfirst ▸ h.others hid hlt)
    · exact Or.inr (h.mem_own_iff.mpr ⟨hid, hge⟩)
  split
  · next hempty =>
    -- nothing is removed
    have hnil := List.isEmpty_iff.mp hempty
    exact
      { wellFormed := h.wellFormed
        earlier := fun hid => h.earlier (hfirst ▸ hid)
        others := hothers
        keeps := fun hk hid _ => (hkeeps _ hk _ hid).2
        result := fun hq => absurd (hnil ▸ hq) List.not_mem_nil
        branch := fun hq => absurd (hnil ▸ hq) List.not_mem_nil
        lineages := fun hne => absurd hnil hne
        whole := fun _ hk hid => (hkeeps _ hk _ hid).1 }
  · next hne =>
    have hstays {id : StateId} := DerivationTree.contains_removeStates u (p.deadEnds u) id
    exact
      { wellFormed := h.wellFormed.removeStates _
        earlier := fun hid => h.contains_removeStates_of_earlier ht (hfirst ▸ hid)
        others := fun hid => hothers (hstays.mp hid).1
        keeps := fun hk hid hleft =>
          (hkeeps _ hk _ hid).2.trans (DerivationTree.keepsState_removeStates hleft)
        result := h.result_removeStates
        branch := fun hq hc => by
          rw [hlast]
          exact h.wellFormed.mem_branch_removeStates_iff (h.not_doomed_of_result hq hc)
        lineages := fun _ => h.mem_own_iff_of_removeStates
        whole := fun hnil => absurd (List.isEmpty_iff.mpr hnil) hne }

omit [Probability π] in
/-- Whatever beam parsers have done on a new tree, it is well-formed. -/
theorem isWellFormed_of_searched (h : t.Searched) : t.IsWellFormed := by
  obtain ⟨owner, keeper, howned⟩ := h.exists_isOwned
  exact ⟨h.isConsistent, howned.toIsClosed, fun hgroup => (howned.group hgroup).1⟩

/-- A run on a well-formed tree that removes its dead ends comes to its end, and then exactly the
branches to its results are left of it, if there are any. All states that were there before stay,
and so do the states of a run without results. Nothing that stays is changed. -/
theorem leavesLineages_of_endsAfter (p : BeamParser π)
    (hdiscard : p.settings.discardDeadEnds = true) (words : List String) (start : String)
    (t : DerivationTree) (ht : t.IsWellFormed) :
    (∃ n, (p.start words start).1.EndsAfter t n) ∧ ∀ n, (p.start words start).1.EndsAfter t n →
      let run := (p.start words start).1.stepTimes t n
      LeavesLineages (fun k => ((p.start words start).1.stepTimes t k).2.1) n
        (StepResult.states run.2.2) (run.1.step run.2.1).1.results (run.1.step run.2.1).2.1 := by
  refine ⟨exists_endsAfter _ t, ?_⟩
  rintro n ⟨hgoes, status, hend⟩
  obtain ⟨hrun, hkeeps⟩ := (GoesOn.start ht p hdiscard words start).stepTimes n hgoes
  exact GoesOn.leavesLineages hrun ht rfl rfl hkeeps hend

end run

/-- A word by itself, and the same word with a complement. -/
def complementEntries : List (String × List Feature) :=
  [("a", [.categorial "c"]), ("a", [.selector "d", .categorial "c"]), ("x", [.categorial "d"])]

/-- A run over the word, which has two readings one of which is a dead end. -/
def complementRun : BeamParser Rat :=
  (({ lexicon := .ofEntries complementEntries,
      settings := { minProbability := 0, discardDeadEnds := true } } :
    BeamParser Rat).start ["a"] "c").1

/-- The run after another one like it: of its four states the two of the other reading are removed,
and the two that the first run has left stay. -/
theorem leavesLineages_complement :
    let first := complementRun.stepTimes {} 4
    let t := (first.1.step first.2.1).2.1
    let run := complementRun.stepTimes t 4
    let last := run.1.step run.2.1
    t.IsWellFormed ∧ complementRun.EndsAfter t 4 ∧
      LeavesLineages (fun k => (complementRun.stepTimes t k).2.1) 4 (StepResult.states run.2.2)
        last.1.results last.2.1 ∧
      StepResult.states run.2.2 = [⟨4⟩, ⟨5⟩, ⟨6⟩, ⟨7⟩] ∧ last.1.results ≠ [] ∧
      last.2.1.states.keys = [⟨0⟩, ⟨1⟩, ⟨4⟩, ⟨5⟩] := by
  intro first t run last
  have hends {results : List StepResult}
      (h : (results.all fun | .finished _ => false | _ => true) = true) (status : ParseStatus) :
      .finished status ∉ results := fun hmem => absurd (List.all_eq_true.mp h _ hmem) (by simp)
  have hfirst : complementRun.EndsAfter {} 4 :=
    ⟨hends (by decide +kernel), .found, by decide +kernel⟩
  have hrun : complementRun.EndsAfter t 4 := ⟨hends (by decide +kernel), .found, by decide +kernel⟩
  have ht : t.IsWellFormed := ((leavesLineages_of_endsAfter _ rfl ["a"] "c" {}
    DerivationTree.isWellFormed_empty).2 4 hfirst).wellFormed
  refine ⟨ht, hrun, (leavesLineages_of_endsAfter _ rfl ["a"] "c" t ht).2 4 hrun, ?_, ?_, ?_⟩
  · decide +kernel
  · exact fun hnil => absurd (congrArg List.length hnil) (by decide +kernel)
  · decide +kernel

end BeamParser
end MinimalistGrammar
