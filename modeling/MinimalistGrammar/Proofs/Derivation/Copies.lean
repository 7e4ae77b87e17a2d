import Mathlib.Data.List.Nodup
import Mathlib.Data.List.Perm.Subperm
import MinimalistGrammar.Proofs.Derivation.Closed

/-!
# Copies of a derivation tree

Several runs can add states to one derivation tree. What one of them adds is a copy, under other
numbers, of the tree that it would have by itself. The copy stays what it is when states are added
elsewhere and when states are removed that are not in it. Removing states of the copy can take
others along, though: a state that was there from the outset may name a number as its parent that
was not given out before.

## Main definitions

* `DerivationTree.Copies` — a tree stands in another one under new names.
* `DerivationTree.IsCounted` — the numbers of all states and parents were given out.
* `DerivationTree.IsSealed` — besides, no other state is a child of some states.

## Main results

* `DerivationTree.IsConsistent.isCounted` — every consistent tree is counted.
* `DerivationTree.Copies.mem_branch_iff` — the branches of the copy.
* `DerivationTree.Copies.addStep` — the copy grows with the tree.
* `DerivationTree.length_removeStates` — without other children, the states that are removed are
  those that were given.
-/

namespace MinimalistGrammar
namespace DerivationTree

variable {f : StateId → StateId} {t t' u : DerivationTree} {a b p : StateId}
  {own ids : List StateId}

/-! ### Numbers that were given out -/

/-- All states and all parents have numbers that were given out, be the parents there or not. -/
structure IsCounted (t : DerivationTree) : Prop where
  id_lt {id : StateId} : t.contains id = true → id.index < t.nextId
  parent_lt {id p : StateId} : t.parent? id = some p → p.index < t.nextId

/-- All states and parents have numbers that were given out, and the children of `own` are among
`own`. -/
structure IsSealed (t : DerivationTree) (own : List StateId) : Prop extends t.IsCounted where
  child {id p : StateId} : t.parent? id = some p → p ∈ own → id ∈ own

theorem IsConsistent.isCounted (h : t.IsConsistent) : t.IsCounted where
  id_lt := h.fresh
  parent_lt hp := h.fresh (h.parent hp).1

theorem IsCounted.isSealed_nil (h : t.IsCounted) : t.IsSealed [] where
  toIsCounted := h
  child _ hp := absurd hp List.not_mem_nil

theorem IsSealed.withStore (h : t.IsSealed own) (store : Store) : { t with store }.IsSealed own :=
  ⟨⟨h.id_lt, h.parent_lt⟩, h.child⟩

section addStep

variable (step : Step) (parent : Option StateId)

theorem IsCounted.addStep (h : t.IsCounted) : (t.addStep step parent).1.IsCounted where
  id_lt hid := by
    rcases (contains_addStep step parent t _).mp hid with rfl | hid
    · exact Nat.lt_succ_self _
    · exact Nat.lt_succ_of_lt (h.id_lt hid)
  parent_lt hp := by
    rw [parent?_addStep] at hp
    split at hp
    · exact Nat.lt_succ_of_lt (h.id_lt (Option.filter_eq_some_iff.mp hp).2)
    · exact Nat.lt_succ_of_lt (h.parent_lt hp)

/-- A state is added elsewhere. -/
theorem IsSealed.addStep (h : t.IsSealed own) (hparent : ∀ p, parent = some p → p ∉ own) :
    (t.addStep step parent).1.IsSealed own where
  toIsCounted := h.toIsCounted.addStep step parent
  child hp hown := by
    rw [parent?_addStep] at hp
    split at hp
    · exact absurd hown (hparent _ (Option.filter_eq_some_iff.mp hp).1)
    · exact h.child hp hown

/-- The new state is one more of `own`. -/
theorem IsSealed.addStep_own (h : t.IsSealed own) :
    (t.addStep step parent).1.IsSealed (own ++ [⟨t.nextId⟩]) where
  toIsCounted := h.toIsCounted.addStep step parent
  child hp hown := by
    rw [parent?_addStep] at hp
    split at hp
    · next hid =>
      rw [hid]
      exact List.mem_append_right _ (List.mem_singleton_self _)
    · rcases List.mem_append.mp hown with hown | hown
      · exact List.mem_append_left _ (h.child hp hown)
      · -- nothing has the new number as its parent
        rw [List.mem_singleton.mp hown] at hp
        exact absurd (h.parent_lt hp) (Nat.lt_irrefl _)

end addStep

theorem parent?_of_parent?_removeStates (h : (t.removeStates ids).1.parent? b = some p) :
    t.parent? b = some p := by
  obtain ⟨x, hx, hp⟩ := Option.bind_eq_some_iff.mp h
  exact Option.bind_eq_some_iff.mpr ⟨x, of_state?_removeStates hx, hp⟩

theorem IsSealed.removeStates (h : t.IsSealed own) (ids : List StateId) :
    (t.removeStates ids).1.IsSealed own where
  id_lt hid := by
    obtain ⟨x, hx⟩ := contains_iff.mp hid
    rw [nextId_removeStates]
    exact h.id_lt (contains_iff.mpr ⟨x, of_state?_removeStates hx⟩)
  parent_lt hp := by
    rw [nextId_removeStates]
    exact h.parent_lt (parent?_of_parent?_removeStates hp)
  child hp := h.child (parent?_of_parent?_removeStates hp)

/-! ### What is removed along -/

theorem nodup_removeStates (t : DerivationTree) (ids : List StateId) :
    (t.removeStates ids).2.Nodup := by
  rw [DerivationTree.removeStates]
  simp only
  split
  · exact List.nodup_nil
  · exact Std.TreeSet.distinct_toList.imp fun hne heq =>
      hne (Std.LawfulEqCmp.compare_eq_iff_eq.mpr heq)

theorem contains_doomed_of_mem (ha : a ∈ ids) (hcontains : t.contains a = true) :
    (t.doomed ids).contains a = true := by
  rw [doomed, Std.TreeMap.foldl_eq_foldl_toList]
  refine contains_foldl_withOrphan ?_
  rw [Std.TreeSet.contains_ofList, List.contains_iff_mem, List.mem_filter]
  exact ⟨ha, hcontains⟩

/-- What is removed has every property that the given states have and that children take over. -/
theorem of_contains_doomed {P : StateId → Prop} (hids : ∀ a ∈ ids, P a)
    (hchild : ∀ b p, t.parent? b = some p → P p → P b)
    (h : (t.doomed ids).contains a = true) : P a := by
  rw [doomed, Std.TreeMap.foldl_eq_foldl_toList] at h
  refine of_contains_foldl_withOrphan (fun a ha => ?_) (fun e he p hp => ?_) h
  · rw [Std.TreeSet.contains_ofList, List.contains_iff_mem, List.mem_filter] at ha
    exact hids a ha.1
  · have hstate : t.state? e.1 = some e.2 := Std.TreeMap.mem_toList_iff_getElem?_eq_some.mp he
    exact hchild e.1 p (by rw [parent?, hstate]; exact hp)

/-- At least the states that were given are removed. -/
theorem length_le_length_removeStates (hids : ∀ a ∈ ids, t.contains a = true) (hnodup : ids.Nodup) :
    ids.length ≤ (t.removeStates ids).2.length := by
  refine (List.subperm_of_subset hnodup fun a ha => ?_).length_le
  exact mem_removeStates_iff.mpr (contains_doomed_of_mem ha (hids a ha))

/-- If they have no other children, no others are removed. -/
theorem length_removeStates (hids : ∀ a ∈ ids, t.contains a = true) (hnodup : ids.Nodup)
    (hchild : ∀ b p, t.parent? b = some p → p ∈ ids → b ∈ ids) :
    (t.removeStates ids).2.length = ids.length := by
  refine Nat.le_antisymm ?_ (length_le_length_removeStates hids hnodup)
  refine (List.subperm_of_subset (nodup_removeStates t ids) fun a ha => ?_).length_le
  exact of_contains_doomed (P := (· ∈ ids)) (fun _ h => h) hchild (mem_removeStates_iff.mp ha)

/-- States whose parents are among them stay if others are removed. -/
theorem state?_removeStates_of_notMem (hids : ∀ a ∈ ids, a ∉ own)
    (hparent : ∀ b p, t.parent? b = some p → b ∈ own → p ∈ own) (ha : a ∈ own) :
    (t.removeStates ids).1.state? a = t.state? a := by
  rw [state?_removeStates]
  split
  · next hdoomed =>
    refine absurd ha (of_contains_doomed (P := (· ∉ own)) hids ?_ hdoomed)
    exact fun b p hp hnot hb => hnot (hparent b p hp hb)
  · rfl

/-! ### Copies -/

/-- The tree `t'` stands in `t` under the names that `f` gives: its states are states of `t`, and
their parents are those of `t'`. -/
structure Copies (f : StateId → StateId) (t t' : DerivationTree) : Prop where
  contains {b : StateId} : t'.contains b = true → t.contains (f b) = true
  parent? {b : StateId} : t'.contains b = true → t.parent? (f b) = (t'.parent? b).map f

/-- A new tree has no states to stand anywhere. -/
theorem copies_empty (f : StateId → StateId) (t : DerivationTree) : t.Copies f {} := by
  have hnone (b : StateId) : ({} : DerivationTree).contains b = false :=
    contains_eq_false_of_isEmpty rfl
  exact ⟨fun {b} hb => absurd ((hnone b).symm.trans hb) (by simp),
    fun {b} hb => absurd ((hnone b).symm.trans hb) (by simp)⟩

namespace Copies

variable (h : Copies f t t')
include h

/-- A copy is not touched where its states stay. -/
theorem congr (hstate : ∀ b, t'.contains b = true → u.state? (f b) = t.state? (f b)) :
    Copies f u t' where
  contains hb := by
    rw [contains_iff, hstate _ hb, ← contains_iff]
    exact h.contains hb
  parent? hb := by
    rw [DerivationTree.parent?, hstate _ hb]
    exact h.parent? hb

theorem withStore (store store' : Store) : { t with store }.Copies f { t' with store := store' } :=
  ⟨h.contains, h.parent?⟩

theorem size_le (hf : f.Injective) : t'.size ≤ t.size := by
  have hnodup : t'.states.keys.Nodup :=
    Std.TreeMap.distinct_keys.imp fun hne heq => hne (Std.LawfulEqCmp.compare_eq_iff_eq.mpr heq)
  have hsubset : t'.states.keys.map f ⊆ t.states.keys := by
    intro a ha
    obtain ⟨b, hb, rfl⟩ := List.mem_map.mp ha
    exact mem_keys_states_iff.mpr (h.contains (mem_keys_states_iff.mp hb))
  have hle := (List.subperm_of_subset (List.Nodup.map hf hnodup) hsubset).length_le
  rwa [List.length_map, Std.TreeMap.length_keys, Std.TreeMap.length_keys] at hle

/-- The way up in a copy. -/
theorem ancestorsWithin_eq (hordered : t'.IsOrdered) (n : Nat) (hb : t'.contains b = true) :
    t.ancestorsWithin n (some (f b)) = (t'.ancestorsWithin n (some b)).map f := by
  induction n generalizing b with
  | zero => rfl
  | succ n ih =>
    rw [ancestorsWithin, ancestorsWithin, h.parent? hb, List.map_cons]
    cases hp : t'.parent? b with
    | none => rw [Option.map_none, ancestorsWithin_none, ancestorsWithin_none, List.map_nil]
    | some p => rw [Option.map_some, ih (hordered.parent hp).1]

/-- The branches of a copy. -/
theorem mem_branch_iff (hf : f.Injective) (hordered : t'.IsOrdered) (hb : t'.contains b = true) :
    f a ∈ t.branch (f b) ↔ a ∈ t'.branch b := by
  -- the greater tree has states enough for the way up in the lesser one
  have hn : (t'.states.keys.filter (·.index < b.index)).length < t.size + 1 := by
    refine Nat.lt_succ_of_le (Nat.le_trans (List.length_filter_le ..) ?_)
    rw [Std.TreeMap.length_keys]
    exact h.size_le hf
  rw [hordered.mem_branch_iff, branch, List.mem_reverse, ancestors, if_pos (h.contains hb),
    h.ancestorsWithin_eq hordered _ hb, List.mem_map_of_injective hf,
    hordered.mem_ancestorsWithin_iff hn]
  exact (and_iff_right hb).symm

/-- A state is added to a tree and to its copy. -/
theorem addStep (hf : f.Injective) (hnew : f ⟨t'.nextId⟩ = ⟨t.nextId⟩) {previous : Option StateId}
    (hprevious : ∀ p, previous = some p → t'.contains p = true) (step step' : Step) :
    Copies f (t.addStep step (previous.map f)).1 (t'.addStep step' previous).1 := by
  have hiff (b : StateId) : f b = ⟨t.nextId⟩ ↔ b = ⟨t'.nextId⟩ := by
    rw [← hnew]
    exact hf.eq_iff
  -- the parent is a state in both
  have hparent : previous.filter t'.contains = previous ∧
      (previous.map f).filter t.contains = previous.map f := by
    cases previous with
    | none => exact ⟨rfl, rfl⟩
    | some p =>
      have hp := hprevious p rfl
      exact ⟨Option.filter_some_pos hp, Option.filter_some_pos (h.contains hp)⟩
  refine ⟨fun {b} hb => ?_, fun {b} hb => ?_⟩
  · rw [contains_addStep, hiff]
    exact ((contains_addStep step' previous t' b).mp hb).imp_right h.contains
  · rw [parent?_addStep, parent?_addStep, hparent.1, hparent.2]
    by_cases heq : b = ⟨t'.nextId⟩
    · rw [if_pos ((hiff b).mpr heq), if_pos heq]
    · rw [if_neg fun hb => heq ((hiff b).mp hb), if_neg heq]
      exact h.parent? (((contains_addStep step' previous t' b).mp hb).resolve_left heq)

end Copies

end DerivationTree
end MinimalistGrammar
