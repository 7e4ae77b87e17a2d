import MinimalistGrammar.Proofs.Derivation.Removal
import MinimalistGrammar.Proofs.Derivation.Shown
import MinimalistGrammar.Proofs.Tree.Appearance

/-!
# What is in a derivation tree

The states of a tree, the roots of its states and all that is linked to them have numbers that were
given out. This stays so when the cursor is moved, when a state is added and when states are
removed. What a state that stays shows is not touched.

## Main definitions

* `DerivationTree.Moves` — the cursor is moved.
* `DerivationTree.IsClosed` — everything has a number.

## Main results

* `DerivationTree.IsClosed.addStep`, `DerivationTree.IsClosed.removeStates` — everything has a
  number still.
* `DerivationTree.linked?_removeStates_of_hangs` — a state that stays keeps all that hangs below its
  roots.
-/

namespace MinimalistGrammar
namespace DerivationTree

variable {t t' : DerivationTree} {id : StateId} {l l' : Link} {ids : List StateId} {s : Store}
  {x : SyntaxState} {c : ConstituentId}

/-! ### The cursor -/

/-- The cursor of a tree is moved. -/
inductive Moves (t : DerivationTree) : DerivationTree → Prop
  | jumpTo {id : StateId} {t' : DerivationTree} (h : t.jumpTo id = .ok t') : Moves t t'
  | nextStep : Moves t t.nextStep.1
  | previousStep : Moves t t.previousStep.1
  | firstStep : Moves t t.firstStep.1
  | lastStep : Moves t t.lastStep.1
  | nextParse : Moves t t.nextParse.1
  | previousParse : Moves t t.previousParse.1

/-- Two trees with the same states over the same store. -/
structure SameStates (t t' : DerivationTree) : Prop where
  store : t'.store = t.store
  states : t'.states = t.states
  nextId : t'.nextId = t.nextId

theorem sameStates_goTo (t : DerivationTree) (target : Option StateId) :
    t.SameStates (t.goTo target).1 := by
  rw [goTo]
  split
  · exact ⟨rfl, rfl, rfl⟩
  · exact ⟨rfl, rfl, rfl⟩

theorem sameStates_cycle (t : DerivationTree) (choose : Nat → Nat → Nat) :
    t.SameStates (t.cycle choose).1 := by
  rw [cycle]
  split
  · exact ⟨rfl, rfl, rfl⟩
  · next id _ =>
    obtain ⟨hstore, hstates, hnextId⟩ := sameStates_goTo { t with active := some id } (some id)
    exact ⟨hstore, hstates, hnextId⟩

/-- Moving the cursor changes neither the states nor what they show. -/
theorem Moves.sameStates (h : t.Moves t') : t.SameStates t' := by
  cases h with
  | @jumpTo id _ h =>
    rw [DerivationTree.jumpTo] at h
    split at h
    · obtain rfl := Except.ok.inj h
      exact ⟨rfl, rfl, rfl⟩
    · exact absurd h (by simp)
  | nextStep | previousStep | firstStep | lastStep => exact sameStates_goTo t _
  | nextParse | previousParse => exact sameStates_cycle t _

theorem Moves.isConsistent (h : t.Moves t') (ht : t.IsConsistent) : t'.IsConsistent := by
  cases h with
  | jumpTo h => exact ht.jumpTo h
  | nextStep | previousStep | firstStep | lastStep => exact ht.goTo _
  | nextParse | previousParse => exact ht.cycle _

/-! ### Everything has a number -/

/-- The states, their roots and all that is in the store have numbers that were given out. -/
structure IsClosed (t : DerivationTree) : Prop where
  store : t.store.IsClosed
  id_lt {id : StateId} {x : SyntaxState} : t.state? id = some x → id.index < t.nextId
  root {id : StateId} {x : SyntaxState} {c : ConstituentId} : t.state? id = some x → c ∈ x.roots →
    t.store.Issued (.constituent c)

theorem isClosed_empty : IsClosed {} := by
  have hstate (id : StateId) : state? {} id = none := Std.TreeMap.getElem?_emptyc
  refine ⟨Store.isClosed_empty, fun {id x} hx => ?_, fun {id x c} hx => ?_⟩
  · rw [hstate] at hx
    exact absurd hx (by simp)
  · rw [hstate] at hx
    exact absurd hx (by simp)

theorem IsClosed.congr (h : t.IsClosed) (hsame : t.SameStates t') : t'.IsClosed := by
  obtain ⟨hstore, hstates, hnextId⟩ := hsame
  have hstate (id : StateId) : t'.state? id = t.state? id := by rw [state?, hstates, state?]
  refine ⟨?_, fun {id x} hx => ?_, fun {id x c} hx hc => ?_⟩
  · rw [hstore]
    exact h.store
  · rw [hnextId]
    exact h.id_lt (hstate id ▸ hx)
  · rw [hstore]
    exact h.root (hstate id ▸ hx) hc

theorem IsClosed.ne_nextId (h : t.IsClosed) (hx : t.state? id = some x) : id ≠ ⟨t.nextId⟩ := by
  rintro rfl
  exact Nat.lt_irrefl _ (h.id_lt hx)

theorem state?_addStep_of_ne {step : Step} {parent : Option StateId} (hid : id ≠ ⟨t.nextId⟩) :
    ({ t with store := s }.addStep step parent).1.state? id = t.state? id :=
  (state?_addStep ..).trans (if_neg hid)

/-- A state is added whose trees have been built apart. -/
theorem IsClosed.addStep (h : t.IsClosed) (hseparate : t.store.Separate s) {step : Step}
    (hroots : ∀ c ∈ step.roots, s.Issued (.constituent c)) (parent : Option StateId) :
    ({ t with store := s }.addStep step parent).1.IsClosed := by
  have hstate := state?_addStep { t with store := s } step parent
  refine ⟨hseparate.isClosed h.store, fun {id x} hx => ?_, fun {id x c} hx hc => ?_⟩
  · rw [hstate] at hx
    split at hx
    · next hid =>
      rw [hid]
      exact Nat.lt_succ_self _
    · exact Nat.lt_succ_of_lt (h.id_lt hx)
  · rw [hstate] at hx
    split at hx
    · obtain rfl := Option.some.inj hx
      exact hroots c hc
    · exact hseparate.issued_of_issued (h.root hx hc)

/-! ### Removing states -/

theorem state?_removeStates (t : DerivationTree) (ids : List StateId) (id : StateId) :
    (t.removeStates ids).1.state? id =
      if (t.doomed ids).contains id then none else t.state? id := by
  rw [DerivationTree.removeStates]
  simp only
  split
  · next hempty => rw [Std.TreeSet.contains_of_isEmpty hempty]; rfl
  · exact state?_withoutStates ..

/-- What is kept is what the other states show. -/
theorem store_removeStates (hgone : (t.doomed ids).isEmpty = false) :
    (t.removeStates ids).1.store = t.store.retain (t.withoutStates (t.doomed ids)).shown := by
  rw [DerivationTree.removeStates, if_neg (by simp [hgone])]
  rfl

theorem mem_removeStates_iff : id ∈ (t.removeStates ids).2 ↔ (t.doomed ids).contains id = true := by
  rw [DerivationTree.removeStates]
  simp only
  split
  · next hempty => simp [Std.TreeSet.contains_of_isEmpty hempty]
  · rw [Std.TreeSet.mem_toList]
    exact Std.TreeSet.contains_iff_mem.symm

/-- Removing states does not touch the counters. -/
theorem next_removeStates (t : DerivationTree) (ids : List StateId) :
    (t.removeStates ids).1.store.nextConstituent = t.store.nextConstituent ∧
      (t.removeStates ids).1.store.nextFeature = t.store.nextFeature ∧
      (t.removeStates ids).1.store.nextGroup = t.store.nextGroup ∧
      (t.removeStates ids).1.nextId = t.nextId := by
  refine ⟨?_, ?_, ?_, nextId_removeStates t ids⟩
  all_goals
    rw [DerivationTree.removeStates]
    simp only
    split
    · rfl
    · rfl

/-- What is still there was not changed. -/
theorem linked?_removeStates_eq (hl : (t.removeStates ids).1.store.linked? l ≠ none) :
    (t.removeStates ids).1.store.linked? l = t.store.linked? l := by
  by_cases hempty : (t.doomed ids).isEmpty = true
  · rw [DerivationTree.removeStates, if_pos hempty]
  · rw [store_removeStates (Bool.eq_false_iff.mpr hempty), Store.linked?_retain] at hl ⊢
    split at hl
    · next hkept => rw [if_pos hkept]
    · exact absurd rfl hl

theorem mem_linksOf_of_removeStates (hl' : l' ∈ (t.removeStates ids).1.store.linksOf l) :
    l' ∈ t.store.linksOf l := by
  have hstored : (t.removeStates ids).1.store.linked? l ≠ none := by
    intro hnone
    rw [Store.linksOf, hnone] at hl'
    exact absurd hl' List.not_mem_nil
  rwa [Store.linksOf_congr (linked?_removeStates_eq hstored)] at hl'

theorem issued_removeStates_iff : (t.removeStates ids).1.store.Issued l ↔ t.store.Issued l := by
  obtain ⟨hconstituent, hfeature, -, -⟩ := next_removeStates t ids
  cases l with
  | constituent c => rw [Store.Issued, hconstituent, Store.Issued]
  | feature f => rw [Store.Issued, hfeature, Store.Issued]

theorem of_state?_removeStates (hx : (t.removeStates ids).1.state? id = some x) :
    t.state? id = some x := by
  rw [state?_removeStates] at hx
  split at hx
  · exact absurd hx (by simp)
  · exact hx

/-- Whatever is removed, everything has a number still. -/
theorem IsClosed.removeStates (h : t.IsClosed) (ids : List StateId) :
    (t.removeStates ids).1.IsClosed := by
  refine ⟨⟨⟨fun {l} hl => ?_⟩, fun {l l'} hl' => ?_⟩, fun {id x} hx => ?_, fun {id x c} hx hc => ?_⟩
  · have hsame := linked?_removeStates_eq hl
    exact issued_removeStates_iff.mpr (h.store.issued (hsame ▸ hl))
  · exact issued_removeStates_iff.mpr (h.store.links (mem_linksOf_of_removeStates hl'))
  · rw [nextId_removeStates]
    exact h.id_lt (of_state?_removeStates hx)
  · exact issued_removeStates_iff.mpr (h.root (of_state?_removeStates hx) hc)

theorem shows_withoutStates_iff {gone : IdentSet .state} :
    (t.withoutStates gone).Shows id l ↔ gone.contains id = false ∧ t.Shows id l := by
  unfold Shows
  rw [state?_withoutStates]
  cases hid : gone.contains id with
  | true => simp
  | false => simp [withoutStates]

/-- A state that stays keeps all that hangs below its roots. -/
theorem linked?_removeStates_of_hangs {x : SyntaxState}
    (hx : (t.removeStates ids).1.state? id = some x) {c : ConstituentId} (hc : c ∈ x.roots)
    (hl : t.store.Hangs c l) : (t.removeStates ids).1.store.linked? l = t.store.linked? l := by
  by_cases hempty : (t.doomed ids).isEmpty = true
  · rw [DerivationTree.removeStates, if_pos hempty]
  · rw [state?_removeStates] at hx
    split at hx
    · exact absurd hx (by simp)
    · next hstays =>
      rw [store_removeStates (Bool.eq_false_iff.mpr hempty), Store.linked?_retain]
      split
      · rfl
      · next hnot =>
        by_contra hstored
        -- what hangs below the root is shown by its state, which stays
        have hshows : t.Shows id l := ⟨x, hx, (hl.reaches (Ne.symm hstored)).mono fun l hmem => by
          rw [List.mem_singleton.mp hmem]
          exact Store.mem_entrances_iff.mpr ⟨c, rfl, Or.inl hc⟩⟩
        have hstill := shows_withoutStates_iff.mpr ⟨Bool.eq_false_iff.mpr hstays, hshows⟩
        exact hnot (has_shown_iff.mpr (reaches_entrances_iff.mpr ⟨id, hstill⟩))

/-- Of the trees of a state that stays the same is seen. -/
theorem face?_removeStates {x : SyntaxState} (hx : (t.removeStates ids).1.state? id = some x)
    {c : ConstituentId} (hc : c ∈ x.roots) {node : ConstituentId}
    (h : t.store.Hangs c (.constituent node)) :
    (t.removeStates ids).1.store.face? node = t.store.face? node := by
  have hnode := Store.constituent?_of_linked? (linked?_removeStates_of_hangs hx hc h)
  refine Store.face?_congr hnode fun o ho f hf => ?_
  exact Store.feature?_of_linked? (linked?_removeStates_of_hangs hx hc (h.trans (.feature ho hf)))

/-- The trees of the states that stay look as before. -/
theorem looks_removeStates {x : SyntaxState} (hx : (t.removeStates ids).1.state? id = some x)
    {c : ConstituentId} (hc : c ∈ x.roots) :
    (t.removeStates ids).1.store.linearize c = t.store.linearize c ∧
      (t.removeStates ids).1.store.display c = t.store.display c :=
  ⟨Store.linearize_congr fun _ h => face?_removeStates hx hc h,
    Store.display_congr fun _ h => face?_removeStates hx hc h⟩

end DerivationTree
end MinimalistGrammar
