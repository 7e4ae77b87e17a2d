import MinimalistGrammar.Monorail.Parser
import MinimalistGrammar.Proofs.Beam.Run
import MinimalistGrammar.Proofs.Derivation.Removal

/-!
# What parsers do to derivation trees

A parser changes a derivation tree in three ways only: it builds trees in the store, it adds states,
and it removes states.

## Main definitions

* `DerivationTree.Edits` — a tree comes about from another one by such changes.

## Main results

* `BeamParser.edits_step`, `BeamParser.edits_parse`, `MonorailParser.edits_parse` — a step of a
  parser and a whole run are such changes.
* `DerivationTree.Edits.isConsistent`, `DerivationTree.Edits.nextId_le` — what such changes keep.
-/

namespace MinimalistGrammar

/-- A tree comes about from `t` when trees are built in its store and states are added and
removed. -/
inductive DerivationTree.Edits (t : DerivationTree) : DerivationTree → Prop
  | refl : Edits t t
  | store {u : DerivationTree} (h : Edits t u) (store : Store) : Edits t { u with store }
  | addStep {u : DerivationTree} (h : Edits t u) (step : Step) (parent : Option StateId) :
      Edits t (u.addStep step parent).1
  | removeStates {u : DerivationTree} (h : Edits t u) (ids : List StateId) :
      Edits t (u.removeStates ids).1

namespace DerivationTree.Edits

variable {t u : DerivationTree}

/-- Such changes keep a tree consistent. -/
theorem isConsistent (h : t.Edits u) (ht : t.IsConsistent) : u.IsConsistent := by
  induction h with
  | refl => exact ht
  | store _ store ih => exact ih.withStore store
  | addStep _ step parent ih => exact ih.addStep step parent
  | removeStates _ ids ih => exact ih.removeStates ids

/-- The counter does not go back. -/
theorem nextId_le (h : t.Edits u) : t.nextId ≤ u.nextId := by
  induction h with
  | refl => exact Nat.le_refl _
  | store _ _ ih => exact ih
  | addStep _ _ _ ih => exact Nat.le_succ_of_le ih
  | @removeStates u _ ids ih =>
    rw [nextId_removeStates]
    exact ih

end DerivationTree.Edits

/-! ### The beam parser -/

namespace BeamParser

variable {π : Type} {t u : DerivationTree}

theorem edits_logParse (p : BeamParser π) (q : Parse π) (h : t.Edits u) :
    t.Edits (p.logParse q u).2.1 :=
  (h.store _).addStep _ _

theorem edits_finish (p : BeamParser π) (status : ParseStatus) (h : t.Edits u) :
    t.Edits (p.finish status u).2.1 := by
  rw [finish]
  simp only
  split
  · exact h.removeStates _
  · exact h

variable [Probability π]

theorem edits_advance (p : BeamParser π) (q : Parse π) (h : t.Edits u) :
    t.Edits (p.advance q u).2.1 := by
  rw [tree_advance]
  exact p.edits_logParse q h

/-- A step of the beam parser adds at most one state, or ends the run. -/
theorem edits_step (p : BeamParser π) (h : t.Edits u) : t.Edits (p.step u).2.1 := by
  rcases step_cases p u with ⟨status, -, heq⟩ | ⟨-, report, -, ⟨status, heq, -⟩ | ⟨q, beam, -, heq⟩⟩
  · rw [heq]
    exact h
  · rw [heq]
    exact edits_finish _ status h
  · rw [heq]
    exact edits_advance _ q h

theorem edits_run (p : BeamParser π) (h : t.Edits u) : t.Edits (p.run u).2.1 := by
  fun_induction p.run u with
  | case1 p u p' u' status hstep =>
    have hedits := p.edits_step h
    rwa [hstep] at hedits
  | case2 p u p' u' id count hstep ih | case3 p u p' u' id hstep ih
  | case4 p u p' u' id hstep ih | case5 p u p' u' id hstep ih =>
    have hedits := p.edits_step h
    rw [hstep] at hedits
    exact ih hedits

/-- A whole run of the beam parser. -/
theorem edits_parse (p : BeamParser π) (words : List String) (start : String) (h : t.Edits u) :
    t.Edits (p.parse words start u).2.1 :=
  (p.start words start).1.edits_run h

end BeamParser

/-! ### The monorail parser -/

namespace Sentence

variable {t : DerivationTree} {s : Sentence}

theorem edits_settle (h : t.Edits s.tree) (root : ConstituentId) (message : String)
    (type : StateType) : t.Edits (s.settle root message type).1.tree :=
  (h.store _).addStep _ _

theorem edits_raiseOnce (h : t.Edits s.tree) (node root : ConstituentId)
    (pair : FeatureId × FeatureId) : t.Edits (s.raiseOnce node root pair).1.tree :=
  edits_settle (s := (s.merge node root).1.withStore _) ((h.store _).store _) _ _ _

theorem edits_raise (h : t.Edits s.tree) (raising root : Option ConstituentId) :
    t.Edits (s.raise raising root).tree := by
  fun_induction s.raise raising root with
  | case1 => exact h
  | case2 s node root pair hpair next ih => exact ih (edits_raiseOnce h node root pair)
  | case3 => exact h

theorem edits_below (h : t.Edits s.tree) : t.Edits s.below.1.tree := by
  rw [below]
  split
  · exact h
  · exact h.store _

theorem edits_addWord (h : t.Edits s.tree) (word : String) (features : Option (List Feature)) :
    t.Edits (s.addWord word features).tree := by
  -- a warning about an unknown word does not touch the tree
  have hlog : t.Edits
      (if features.isNone then s.log .warn ("unknown word " ++ word) else s).tree := by
    split
    · exact h
    · exact h
  have hbelow (store : Store) := edits_below (s := withStore _ store) (hlog.store store)
  exact edits_raise (edits_settle (s := (merge _ _ _).1) ((hbelow _).store _) _ _ _) _ _

end Sentence

namespace MonorailParser

variable {t : DerivationTree}

theorem edits_readWords (p : MonorailParser) {s : Sentence} (h : t.Edits s.tree) (n : Nat)
    (words : List String) : t.Edits (p.readWords s n words).tree := by
  induction words generalizing s n with
  | nil => exact h
  | cons word words ih =>
    rw [readWords]
    simp only
    split
    · exact h
    · exact ih (Sentence.edits_addWord (s := { s with report := s.report.ask.2 }) h word _) (n + 1)

theorem tree_announce (s : Sentence) : (announce s).tree = s.tree := by
  rw [announce]
  split <;> rfl

/-- A whole run of the monorail parser. -/
theorem edits_parse (p : MonorailParser) (words : List String) {u : DerivationTree}
    (h : t.Edits u) : t.Edits (p.parse words u).2.1 := by
  show t.Edits (announce _).tree
  rw [tree_announce]
  exact p.edits_readWords (s := { report := p.report, tree := u }) h 0 words

end MonorailParser
end MinimalistGrammar
