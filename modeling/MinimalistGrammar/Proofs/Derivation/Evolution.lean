import MinimalistGrammar.Proofs.Archive.Loading
import MinimalistGrammar.Proofs.Derivation.Edits

/-!
# Derivation trees over whole runs

A derivation tree evolves when states are added and removed, the cursor is moved, parsers run on it,
and snapshots of trees that have evolved themselves are loaded into it. However it has evolved from
a new tree, all its parts agree, and no number that it has given out or held is given out again.

## Main definitions

* `DerivationTree.Evolves` — a tree comes about from another one by any changes in any order.

## Main results

* `DerivationTree.Evolves.isConsistent_and_le` — a tree that has evolved from a consistent one is
  consistent.
* `DerivationTree.isConsistent_of_evolves` — a tree that has evolved from a new one is consistent,
  and its next state has a new number.
-/

namespace MinimalistGrammar
namespace DerivationTree

/-- The second tree comes about from the first one by any changes in any order. The parsers may have
been used before, and the steps of one may be mixed with other changes. A snapshot that is loaded is
that of a tree which has evolved from a new one. -/
inductive Evolves : DerivationTree → DerivationTree → Prop
  | refl (t : DerivationTree) : Evolves t t
  | store {t u : DerivationTree} (h : Evolves t u) (store : Store) : Evolves t { u with store }
  | addStep {t u : DerivationTree} (h : Evolves t u) (step : Step) (parent : Option StateId) :
      Evolves t (u.addStep step parent).1
  | jumpTo {t u u' : DerivationTree} {id : StateId} (h : Evolves t u) (hu' : u.jumpTo id = .ok u') :
      Evolves t u'
  | nextStep {t u : DerivationTree} (h : Evolves t u) : Evolves t u.nextStep.1
  | previousStep {t u : DerivationTree} (h : Evolves t u) : Evolves t u.previousStep.1
  | firstStep {t u : DerivationTree} (h : Evolves t u) : Evolves t u.firstStep.1
  | lastStep {t u : DerivationTree} (h : Evolves t u) : Evolves t u.lastStep.1
  | nextParse {t u : DerivationTree} (h : Evolves t u) : Evolves t u.nextParse.1
  | previousParse {t u : DerivationTree} (h : Evolves t u) : Evolves t u.previousParse.1
  | removeStates {t u : DerivationTree} (h : Evolves t u) (ids : List StateId) :
      Evolves t (u.removeStates ids).1
  | beamStep {t u : DerivationTree} {π : Type} [Probability π] (h : Evolves t u)
      (p : BeamParser π) : Evolves t (p.step u).2.1
  | beam {t u : DerivationTree} {π : Type} [Probability π] (h : Evolves t u) (p : BeamParser π)
      (words : List String) (start : String) : Evolves t (p.parse words start u).2.1
  | monorail {t u : DerivationTree} (h : Evolves t u) (p : MonorailParser) (words : List String) :
      Evolves t (p.parse words u).2.1
  | load {t u u' v : DerivationTree} {s : Snapshot} {loaded : Loaded} (h : Evolves t u)
      (hv : Evolves {} v) (hs : v.save = .ok s) (hu' : u.load s = .ok (u', loaded)) : Evolves t u'

variable {t t' : DerivationTree}

theorem jumpTo_eq_ok_iff {id : StateId} :
    t.jumpTo id = .ok t' ↔ t.contains id = true ∧ t' = t.moveTo id := by
  rw [jumpTo]
  split
  · next hid => simp [hid, eq_comm]
  · next hid => simp [hid]

/-- A tree that has evolved from a consistent one is consistent, and its counter has not gone
back. -/
theorem Evolves.isConsistent_and_le (h : Evolves t t') (ht : t.IsConsistent) :
    t'.IsConsistent ∧ t.nextId ≤ t'.nextId := by
  -- all operations keep the invariant; those that only move the cursor keep the counter
  induction h with
  | refl => exact ⟨ht, Nat.le_refl _⟩
  | store _ store ih => exact ⟨(ih ht).1.withStore store, (ih ht).2⟩
  | addStep _ step parent ih => exact ⟨(ih ht).1.addStep step parent, Nat.le_succ_of_le (ih ht).2⟩
  | jumpTo _ hu' ih =>
    refine ⟨(ih ht).1.jumpTo hu', ?_⟩
    rw [(jumpTo_eq_ok_iff.mp hu').2]
    exact (ih ht).2
  | nextStep _ ih | previousStep _ ih | firstStep _ ih | lastStep _ ih =>
    exact ⟨(ih ht).1.goTo _, Nat.le_trans (ih ht).2 (Nat.le_of_eq (nextId_goTo ..).symm)⟩
  | nextParse _ ih | previousParse _ ih =>
    exact ⟨(ih ht).1.cycle _, Nat.le_trans (ih ht).2 (Nat.le_of_eq (nextId_cycle ..).symm)⟩
  | removeStates _ ids ih =>
    exact ⟨(ih ht).1.removeStates ids,
      Nat.le_trans (ih ht).2 (Nat.le_of_eq (nextId_removeStates ..).symm)⟩
  | @beamStep t u π _ _ p ih =>
    have hedits := p.edits_step (.refl (t := u))
    exact ⟨hedits.isConsistent (ih ht).1, Nat.le_trans (ih ht).2 hedits.nextId_le⟩
  | @beam t u π _ _ p words start ih =>
    have hedits := p.edits_parse words start (.refl (t := u))
    exact ⟨hedits.isConsistent (ih ht).1, Nat.le_trans (ih ht).2 hedits.nextId_le⟩
  | @monorail t u _ p words ih =>
    have hedits := p.edits_parse words (.refl (t := u))
    exact ⟨hedits.isConsistent (ih ht).1, Nat.le_trans (ih ht).2 hedits.nextId_le⟩
  | load _ _ hs hu' ih ihv =>
    obtain ⟨hconsistent, hle⟩ := (ih ht).1.load (ihv isConsistent_empty).1 hs hu'
    exact ⟨hconsistent, Nat.le_trans (ih ht).2 hle⟩

/-- At any time of a run that began with a new tree, all parts of the tree agree. The counter has
not gone back since any earlier time, and the number of the next state is none that the tree has
given out or held until then. -/
theorem isConsistent_of_evolves (h : Evolves {} t) (h' : Evolves t t') :
    t'.IsConsistent ∧ t.nextId ≤ t'.nextId ∧ ∀ step parent,
      t.contains (t'.addStep step parent).2 = false ∧
        .added (t'.addStep step parent).2 ∉ t.events := by
  have ht := (h.isConsistent_and_le isConsistent_empty).1
  obtain ⟨ht', hle⟩ := h'.isConsistent_and_le ht
  refine ⟨ht', hle, fun step parent => ⟨Bool.eq_false_iff.mpr fun hheld => ?_, fun hadded => ?_⟩⟩
  · exact Nat.not_lt.mpr hle (ht.fresh hheld)
  · exact Nat.not_lt.mpr hle (ht.added hadded)

/-- When the last of three states is removed, whose sibling stays, the cursor goes to their parent,
the sibling ends the active branch, and the next state has a new number. -/
theorem isConsistent_removal :
    let step : Step := { roots := [], message := "", type := .scan }
    let first := (({} : DerivationTree).addStep step none).1
    let t := ((first.addStep step (some ⟨0⟩)).1.addStep step (some ⟨0⟩)).1
    let t' := (t.removeStates [⟨2⟩]).1
    t'.IsConsistent ∧ t'.childrenOf ⟨0⟩ = [⟨1⟩] ∧ t'.current = some ⟨0⟩ ∧ t'.active = some ⟨1⟩ ∧
      (t'.addStep step none).2 = ⟨3⟩ ∧ t.contains ⟨3⟩ = false := by
  intro step first t t'
  have h : Evolves {} t := (((Evolves.refl {}).addStep step none).addStep step _).addStep step _
  obtain ⟨hconsistent, -, hnew⟩ := isConsistent_of_evolves h ((Evolves.refl t).removeStates [⟨2⟩])
  have hnext : (t'.addStep step none).2 = ⟨3⟩ := by decide +kernel
  refine ⟨hconsistent, by decide +kernel, by decide +kernel, by decide +kernel, hnext, ?_⟩
  rw [← hnext]
  exact (hnew step none).1

end DerivationTree
end MinimalistGrammar
