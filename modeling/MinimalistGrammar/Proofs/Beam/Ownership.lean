import MinimalistGrammar.Proofs.Beam.Results
import MinimalistGrammar.Proofs.Derivation.Edits
import MinimalistGrammar.Proofs.Derivation.Ownership

/-!
# The trees of a beam parser

Each step of a beam parser builds a tree of its own. So whatever parsers have run on a derivation
tree, whenever they were stopped and whatever was removed in between, every object of the store is
shown by exactly one state. When states are removed, exactly what they show is removed with them,
and the trees of the other states do not change.

## Main definitions

* `DerivationTree.Searched` — beam parsers have run on a new tree.

## Main results

* `BeamParser.covers_stepOf` — a step shows exactly what was built for it.
* `DerivationTree.Searched.exists_isOwned` — every object belongs to one state.
* `DerivationTree.existsUnique_shows_of_searched` — every object is shown by exactly one state, and
  goes with it.
-/

namespace MinimalistGrammar

/-! ### Groups of added nodes -/

theorem Store.linked?_addGroup (s : Store) (group : Group) (l : Link) :
    (s.addGroup group).1.linked? l = s.linked? l := by
  cases l <;> rfl

theorem Store.group?_addGroup (s : Store) (group : Group) (g : GroupId) :
    (s.addGroup group).1.group? g = if g = ⟨s.nextGroup⟩ then some group else s.group? g :=
  IdentMap.getElem?_insert ..

theorem Store.Separate.addGroup {s s' : Store} (h : s.Separate s') (group : Group) :
    s.Separate (s'.addGroup group).1 :=
  h.change (Nat.le_refl _) (Nat.le_refl _) fun l => Or.inl (s'.linked?_addGroup group l)

/-- A new key brings its value. -/
theorem Dict.mem_values_insert_iff {d : Dict String GroupId} {name : String} {g g' : GroupId}
    (h : d.get? name = none) : g' ∈ (d.insert name g).values ↔ g' = g ∨ g' ∈ d.values := by
  simp only [Dict.mem_values_iff, Dict.get?_insert]
  constructor
  · rintro ⟨k, hk⟩
    split at hk
    · exact Or.inl (Option.some.inj hk).symm
    · exact Or.inr ⟨k, hk⟩
  · rintro (rfl | ⟨k, hk⟩)
    · exact ⟨name, if_pos rfl⟩
    · refine ⟨k, ?_⟩
      rw [if_neg, hk]
      rintro rfl
      exact absurd (h.symm.trans hk) (by simp)

namespace BeamParser

variable {π : Type} {s s' : Store} {q : Parse π}

/-- A group of added nodes under a name of its own is one more thing that the step shows. -/
theorem covers_groupOf {step : Step} (h : step.Covers s s') (name : String)
    (hname : step.groups.get? name = none) (members : List ConstituentId)
    (hmembers : ∀ c ∈ members, s.Added s' (.constituent c)) (color : Color) :
    ({ step with groups := (groupOf s' step.groups name members color).2 } : Step).Covers s
      (groupOf s' step.groups name members color).1 := by
  unfold groupOf
  split
  · exact h
  · generalize hgroup : ({ name, members, color := some color } : Group) = group
    -- the group gets a new number, so all groups that there were stay
    have hstored {g : GroupId} (hg : g ≠ ⟨s'.nextGroup⟩) :
        (s'.addGroup group).1.group? g = s'.group? g := by
      rw [Store.group?_addGroup, if_neg hg]
    have hne {g : GroupId} (hg : g.index < s'.nextGroup) : g ≠ ⟨s'.nextGroup⟩ := by
      rintro rfl
      exact Nat.lt_irrefl _ hg
    refine ⟨h.separate.addGroup group, Nat.le_succ_of_le h.nextGroup, fun {g} hg => ?_, h.root,
      fun {g} hg => ?_, fun {g group'} hg hgroup' => ?_, fun {l} hl hlinked => ?_⟩
    · rw [hstored (hne (Nat.lt_of_lt_of_le hg h.nextGroup)), h.oldGroup hg]
    · rcases (Dict.mem_values_insert_iff hname).mp hg with rfl | hg
      · exact ⟨h.nextGroup, Nat.lt_succ_self _⟩
      · exact ⟨(h.kept hg).1, Nat.lt_succ_of_lt (h.kept hg).2⟩
    · by_cases hnew : g = ⟨s'.nextGroup⟩
      · subst hnew
        rw [Store.group?_addGroup, if_pos rfl] at hgroup'
        obtain rfl := Option.some.inj hgroup'
        refine ⟨(Dict.mem_values_insert_iff hname).mpr (Or.inl rfl), fun c hc => hmembers c ?_⟩
        rwa [← hgroup] at hc
      · rw [hstored hnew] at hgroup'
        obtain ⟨hmem, hadded⟩ := h.newGroup hg hgroup'
        exact ⟨(Dict.mem_values_insert_iff hname).mpr (Or.inr hmem), hadded⟩
    · rw [Store.linked?_addGroup] at hlinked
      exact (h.shown hl hlinked).congr fun l _ => s'.linked?_addGroup group l

theorem get?_groupOf_of_ne (s : Store) (groups : Dict String GroupId) {name z : String}
    (hz : z ≠ name) (members : List ConstituentId) (color : Color) :
    (groupOf s groups name members color).2.get? z = groups.get? z := by
  unfold groupOf
  split
  · rfl
  · exact Dict.get?_insert_of_ne hz

/-- The nodes that a step has added are nodes of its tree. -/
theorem mem_nodes_of_mem_freshNodes {tree : SurfaceTree} {c : ConstituentId}
    (h : c ∈ freshNodes q tree) : ∃ path, (path, c) ∈ tree.nodes := by
  obtain ⟨r, -, hlookup⟩ :=
    List.mem_filterMap.mp ((Store.mem_foldl_addNew_iff.mp h).resolve_left List.not_mem_nil)
  obtain ⟨before, after, heq, -⟩ := List.lookup_eq_some_iff.mp hlookup
  exact ⟨r.path, heq ▸ List.mem_append_right _ (List.mem_cons_self ..)⟩

/-- A tree that stands alone is all that a step with its root shows. -/
theorem covers_of_standsAlone {b : BuiltNode} (h : s.StandsAlone s' b) (hsame : s.SameGroups s')
    (hgroups : ∀ g group, s.group? g = some group → g.index < s.nextGroup) (message : String)
    (type : StateType) : ({ roots := [b.id], message, type } : Step).Covers s s' where
  separate := h.separate
  nextGroup := Nat.le_of_eq hsame.nextGroup.symm
  oldGroup _ := hsame.group? _
  root hc := by
    rw [List.mem_singleton.mp hc]
    exact h.root
  kept hg := absurd hg List.not_mem_nil
  newGroup {g group} hg hgroup := by
    rw [hsame.group?] at hgroup
    exact absurd (hgroups g group hgroup) (Nat.not_lt.mpr hg)
  shown hl hlinked := (h.hangs hl).reaches hlinked

/-- A step shows exactly what was built for it. -/
theorem covers_stepOf (hs : s.IsNumbered)
    (hgroups : ∀ g group, s.group? g = some group → g.index < s.nextGroup) (q : Parse π) :
    (stepOf s q).2.Covers s (stepOf s q).1 := by
  unfold stepOf SurfaceTree.build
  cases RecordTree.ofRecords q.records with
  | none =>
    -- nothing is built where there is no record for the root
    exact
      { separate := .refl hs
        nextGroup := Nat.le_refl _
        oldGroup := fun _ => rfl
        root := fun hc => absurd hc List.not_mem_nil
        kept := fun hg => absurd hg List.not_mem_nil
        newGroup := fun {g group} hg hgroup => absurd (hgroups g group hgroup) (Nat.not_lt.mpr hg)
        shown := fun hl _ => absurd hl.2 hl.1 }
  | some tree =>
    have halone := Store.standsAlone_build hs .root tree
    have hbuilt := covers_of_standsAlone halone (.build s .root tree) hgroups q.message q.stateType
    simp only [Option.map_some]
    generalize s.build .root tree = t at halone hbuilt
    have hnew :=
      covers_groupOf hbuilt "new" rfl (freshNodes q { root := t.2.id, nodes := t.2.nodes })
      (fun c hc => by
        obtain ⟨path, hmem⟩ := mem_nodes_of_mem_freshNodes hc
        exact halone.nodes hmem) newColor
    have hother := get?_groupOf_of_ne t.1 ∅ (show "movers" ≠ "new" by decide)
      (freshNodes q { root := t.2.id, nodes := t.2.nodes }) newColor
    refine covers_groupOf hnew "movers" hother _ (fun c hc => ?_) moverColor
    exact hnew.separate.added_of_mem_movers (hnew.root (List.mem_singleton_self _)) hc

end BeamParser

namespace DerivationTree

/-! ### Runs -/

/-- Beam parsers of any kind have taken steps on a new tree, in any order, and states have been
removed and the cursor has been moved in between. -/
inductive Searched : DerivationTree → Prop
  | new : Searched {}
  | beamStep {t : DerivationTree} {π : Type} [Probability π] (h : Searched t) (p : BeamParser π) :
      Searched (p.step t).2.1
  | move {t t' : DerivationTree} (h : Searched t) (hmove : t.Moves t') : Searched t'
  | removeStates {t : DerivationTree} (h : Searched t) (ids : List StateId) :
      Searched (t.removeStates ids).1

namespace Searched

variable {π : Type} [Probability π] {t : DerivationTree} (h : t.Searched)

include h

theorem stepTimes (p : BeamParser π) (n : Nat) : (p.stepTimes t n).2.1.Searched := by
  induction n generalizing p t with
  | zero => exact h
  | succ n ih => exact ih (h.beamStep p) (p.step t).1

theorem run (p : BeamParser π) : (p.run t).2.1.Searched := by
  fun_induction p.run t with
  | case1 p t p' t' status hstep =>
    have hsearched := h.beamStep p
    rwa [hstep] at hsearched
  | case2 p t p' t' id count hstep ih | case3 p t p' t' id hstep ih
  | case4 p t p' t' id hstep ih | case5 p t p' t' id hstep ih =>
    have hsearched := h.beamStep p
    rw [hstep] at hsearched
    exact ih hsearched

/-- Whole runs are steps as well. -/
theorem parse (p : BeamParser π) (words : List String) (start : String) :
    (p.parse words start t).2.1.Searched := h.run (p.start words start).1

omit [Probability π] in
theorem isConsistent : t.IsConsistent := by
  induction h with
  | new => exact isConsistent_empty
  | beamStep _ p ih => exact (p.edits_step .refl).isConsistent ih
  | move _ hmove ih => exact hmove.isConsistent ih
  | removeStates _ ids ih => exact ih.removeStates ids

end Searched

section owned

variable {π : Type} {t : DerivationTree} {owner : Link → StateId} {keeper : GroupId → StateId}

/-- What a parse shows belongs to its state. -/
theorem IsOwned.logParse (h : t.IsOwned owner keeper) (p : BeamParser π) (q : Parse π) :
    ∃ owner keeper, (p.logParse q t).2.1.IsOwned owner keeper :=
  ⟨_, _,
    h.addStep (BeamParser.covers_stepOf h.store.toIsNumbered (fun _ _ hg => (h.group hg).1) q)
      q.previous⟩

theorem IsOwned.finish (h : t.IsOwned owner keeper) (p : BeamParser π) (status : ParseStatus) :
    (p.finish status t).2.1.IsOwned owner keeper := by
  rw [BeamParser.finish]
  simp only
  split
  · exact h.removeStates _
  · exact h

/-- A step of a beam parser keeps every object with one state. -/
theorem IsOwned.beamStep [Probability π] (h : t.IsOwned owner keeper) (p : BeamParser π) :
    ∃ owner keeper, (p.step t).2.1.IsOwned owner keeper := by
  rcases p.step_cases t with ⟨status, -, heq⟩ | ⟨-, report, -, ⟨status, heq, -⟩ | ⟨q, beam, -, heq⟩⟩
  · rw [heq]
    exact ⟨owner, keeper, h⟩
  · rw [heq]
    exact ⟨owner, keeper, h.finish _ status⟩
  · rw [heq, BeamParser.advance]
    simp only
    split
    · exact h.logParse { p with report, beam, steps := p.steps + 1 } q
    · exact h.logParse { p with report, beam, steps := p.steps + 1 } q

/-- Every object belongs to one state. -/
theorem Searched.exists_isOwned (h : t.Searched) : ∃ owner keeper, t.IsOwned owner keeper := by
  induction h with
  | new => exact ⟨fun _ => ⟨0⟩, fun _ => ⟨0⟩, isOwned_empty ..⟩
  | beamStep _ p ih =>
    obtain ⟨owner, keeper, howned⟩ := ih
    exact howned.beamStep p
  | move _ hmove ih =>
    obtain ⟨owner, keeper, howned⟩ := ih
    exact ⟨owner, keeper, howned.congr hmove.sameStates⟩
  | removeStates _ ids ih =>
    obtain ⟨owner, keeper, howned⟩ := ih
    exact ⟨owner, keeper, howned.removeStates ids⟩

end owned

/-- At any time, whatever beam parsers have done on a new tree, every node, every feature occurrence
and every group of the store is shown by one state and by no other. When states are removed, with
all that come from them, exactly what they show is removed, and what the other states show, the
words of their trees and the texts of their trees are as before. -/
theorem existsUnique_shows_of_searched {t : DerivationTree} (h : t.Searched) :
    (∀ l, t.store.linked? l ≠ none → ∃! id, t.Shows id l) ∧
      (∀ g, t.store.group? g ≠ none → ∃! id, t.ShowsGroup id g) ∧
      ∀ ids, (∀ id, id ∈ (t.removeStates ids).2 ↔
          ∃ a ∈ ids, t.contains a = true ∧ t.ComesFrom id a) ∧
        t.Removes (t.removeStates ids).1 (t.removeStates ids).2 := by
  obtain ⟨owner, keeper, howned⟩ := h.exists_isOwned
  refine ⟨fun l hl => howned.existsUnique_shows hl, fun g hg => howned.existsUnique_showsGroup hg,
    fun ids => ⟨fun id => ?_, howned.removes ids⟩⟩
  rw [mem_removeStates_iff]
  exact h.isConsistent.toIsOrdered.contains_doomed_iff

/-- A state shows its roots. -/
theorem shows_root {t : DerivationTree} {id : StateId} {x : SyntaxState} {c : ConstituentId}
    (hx : t.state? id = some x) (hc : c ∈ x.roots)
    (hstored : t.store.linked? (.constituent c) ≠ none) : t.Shows id (.constituent c) :=
  ⟨x, hx, .start (Store.mem_entrances_iff.mpr ⟨c, rfl, Or.inl hc⟩) hstored⟩

/-- When the last state is removed after a run over a question, its root goes with it. The root of
the state before is shown by this state only, so it stays, with all its words. -/
theorem existsUnique_shows_question :
    let t := BeamParser.questionRun.2.1
    let t' := (t.removeStates [⟨4⟩]).1
    (∃! id, t.Shows id (.constituent ⟨10⟩)) ∧ t'.store.linked? (.constituent ⟨14⟩) = none ∧
      t'.store.linked? (.constituent ⟨10⟩) = t.store.linked? (.constituent ⟨10⟩) ∧
      t'.store.linearize ⟨10⟩ = t.store.linearize ⟨10⟩ := by
  intro t t'
  have ht : t.Searched := Searched.new.stepTimes
    (({ lexicon := .ofEntries BeamParser.questionEntries, settings := { minProbability := 0 } } :
      BeamParser Rat).start ["what", "saw"] "C").1 6
  obtain ⟨hunique, -, hremoved⟩ := existsUnique_shows_of_searched ht
  obtain ⟨-, hremoves⟩ := hremoved [⟨4⟩]
  have hgone : (t.removeStates [⟨4⟩]).2 = [⟨4⟩] := by decide +kernel
  have hstored {c : ConstituentId} (hc : (t.store.constituent? c).isSome = true) :
      t.store.linked? (.constituent c) ≠ none := by
    obtain ⟨x, hx⟩ := Option.isSome_iff_exists.mp hc
    rw [Store.linked?, hx]
    simp
  have hshows {id : StateId} {c : ConstituentId} (hroots : (t.state? id).map (·.roots) = some [c])
      (hc : (t.store.constituent? c).isSome = true) : t.Shows id (.constituent c) := by
    obtain ⟨x, hx, hroots⟩ := Option.map_eq_some_iff.mp hroots
    exact shows_root hx (hroots ▸ List.mem_singleton_self c) (hstored hc)
  have hthird : t.Shows ⟨3⟩ (.constituent ⟨10⟩) := hshows (by decide +kernel) (by decide +kernel)
  have hlast : t.Shows ⟨4⟩ (.constituent ⟨14⟩) := hshows (by decide +kernel) (by decide +kernel)
  have hten := hunique (.constituent ⟨10⟩) (hstored (by decide +kernel))
  have hstays : t'.state? ⟨3⟩ = t.state? ⟨3⟩ := by
    rw [hremoves.state?, if_neg]
    rw [hgone]
    decide
  refine ⟨hten, ?_, ?_, ?_⟩
  · refine hremoves.goes ?_ hlast
    rw [hgone]
    exact List.mem_singleton_self _
  · refine hremoves.stays fun id hid hother => ?_
    rw [hgone, List.mem_singleton] at hid
    subst hid
    exact absurd (hten.unique hthird hother) (by decide)
  · have hroots : (t.state? ⟨3⟩).map (·.roots) = some [⟨10⟩] := by decide +kernel
    obtain ⟨x, hx, hroots⟩ := Option.map_eq_some_iff.mp hroots
    exact (hremoves.looks (hstays.trans hx) (hroots ▸ List.mem_singleton_self _)).1

end DerivationTree

end MinimalistGrammar
