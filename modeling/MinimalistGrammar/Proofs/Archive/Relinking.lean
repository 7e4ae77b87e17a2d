import MinimalistGrammar.Archive.Tree
import MinimalistGrammar.Proofs.Derivation.Consistency

/-!
# Linking states anew

When states have come and gone one by one, the lists of children are made anew from the parents, and
the cursor is set where it was. This makes a consistent tree of any states with parents of lesser
numbers.

## Main results

* `DerivationTree.isConsistent_relink` — a tree with ordered states is consistent when it is linked.
-/

namespace MinimalistGrammar
namespace DerivationTree

variable {t : DerivationTree} {id p : StateId} {children : IdentMap .state (List StateId)}
  {l : List (StateId × SyntaxState)}

/-! ### Lists of children -/

/-- States come behind the children that their parent has. -/
theorem getD_foldl_linkChild :
    (l.foldl (fun children e => linkChild children e.1 e.2) children)[p]?.getD [] =
      children[p]?.getD [] ++ (l.filter (·.2.parent == some p)).map (·.1) := by
  induction l generalizing children with
  | nil => simp
  | cons e l ih =>
    rw [List.foldl_cons, ih, linkChild, List.filter_cons]
    cases hparent : e.2.parent with
    | none => simp
    | some q =>
      simp only [IdentMap.getElem?_alter]
      by_cases hpq : p = q
      · subst hpq
        simp
      · simp [hpq, Ne.symm hpq]

theorem contains_foldl_linkChild :
    (l.foldl (fun children e => linkChild children e.1 e.2) children).contains p = true ↔
      children.contains p = true ∨ ∃ e ∈ l, e.2.parent = some p := by
  induction l generalizing children with
  | nil => simp
  | cons e l ih =>
    rw [List.foldl_cons, ih, linkChild]
    simp only [List.mem_cons, exists_eq_or_imp]
    rw [← or_assoc]
    refine or_congr_left ?_
    cases hparent : e.2.parent with
    | none => simp
    | some q => simp [Std.TreeMap.contains_alter, Std.LawfulEqCmp.compare_eq_iff_eq, or_comm]

theorem childrenOf_relink (t : DerivationTree) (p : StateId) :
    t.relink.childrenOf p = (t.states.toList.filter (·.2.parent == some p)).map (·.1) := by
  have hempty : (t.states.map fun _ _ => ([] : List StateId))[p]?.getD [] = [] := by
    rw [Std.TreeMap.getElem?_map]
    cases t.states[p]? <;> rfl
  refine childrenOf_eq.trans ?_
  show (linkChildren t.states)[p]?.getD [] = _
  rw [linkChildren, Std.TreeMap.foldl_eq_foldl_toList, getD_foldl_linkChild, hempty,
    List.nil_append]

theorem mem_toList_states_iff {s : SyntaxState} :
    (id, s) ∈ t.states.toList ↔ t.state? id = some s :=
  Std.TreeMap.mem_toList_iff_getElem?_eq_some

/-- The lists of children that are made anew say the same as the parents. -/
theorem IsOrdered.isLinked_relink (h : t.IsOrdered) : t.relink.IsLinked := by
  refine ⟨⟨h.id, h.parent⟩, fun id => ?_, fun p => ?_, fun {p id} => ?_⟩
  · show (linkChildren t.states).contains id = t.states.contains id
    rw [linkChildren, Std.TreeMap.foldl_eq_foldl_toList, Bool.eq_iff_iff, contains_foldl_linkChild,
      Std.TreeMap.contains_map, or_iff_left_iff_imp]
    rintro ⟨⟨child, s⟩, hmem, hparent⟩
    have hp : t.parent? child = some id := by
      rw [parent?, mem_toList_states_iff.mp hmem]
      exact hparent
    exact (h.parent hp).1
  · rw [childrenOf_relink, List.pairwise_map]
    refine List.Pairwise.filter _ ?_
    refine Std.TreeMap.ordered_keys_toList.imp fun {a b} hab => ?_
    rw [Ident.compare_def] at hab
    exact Nat.compare_eq_lt.mp hab
  · rw [childrenOf_relink, List.mem_map]
    show _ ↔ t.parent? id = some p
    rw [parent?, Option.bind_eq_some_iff]
    constructor
    · rintro ⟨⟨child, s⟩, hmem, rfl⟩
      obtain ⟨hmem, hparent⟩ := List.mem_filter.mp hmem
      exact ⟨s, mem_toList_states_iff.mp hmem, by simpa using hparent⟩
    · rintro ⟨s, hs, hparent⟩
      exact ⟨(id, s), List.mem_filter.mpr ⟨mem_toList_states_iff.mpr hs, by simpa using hparent⟩,
        rfl⟩

/-! ### The cursor and the counter -/

/-- The last key has the greatest number. -/
theorem index_lt_of_contains (hid : t.contains id = true) :
    id.index < t.states.keys.getLast?.elim 0 fun id => id.index + 1 := by
  have hmem := mem_keys_states_iff.mpr hid
  cases hlast : t.states.keys.getLast? with
  | none =>
    rw [List.getLast?_eq_none_iff.mp hlast] at hmem
    exact absurd hmem (by simp)
  | some last =>
    obtain ⟨before, heq⟩ := List.getLast?_eq_some_iff.mp hlast
    have hincreasing := IdentMap.increasing_keys t.states
    rw [heq] at hmem hincreasing
    rcases List.mem_append.mp hmem with hmem | hmem
    · have hlt := (List.pairwise_append.mp hincreasing).2.2 id hmem last (List.mem_singleton_self _)
      exact Nat.lt_succ_of_lt hlt
    · rw [List.mem_singleton.mp hmem]
      exact Nat.lt_succ_self _

theorem nextId_le_relink (t : DerivationTree) : t.nextId ≤ t.relink.nextId :=
  Nat.le_max_left ..

/-- States that are linked anew make a consistent tree, if the cursor is at one of them. -/
theorem isConsistent_relink (h : t.IsOrdered)
    (hadded : ∀ {id : StateId}, .added id ∈ t.events → id.index < t.nextId)
    (hcurrent : t.isEmpty = false → ∃ id, t.current = some id ∧ t.contains id = true) :
    t.relink.IsConsistent := by
  have hlinked := h.isLinked_relink
  have hfilter : t.relink.current = t.current.filter t.contains := rfl
  have hlists : t.relink.children = { t with children := linkChildren t.states }.children := rfl
  have hactive : t.relink.active =
      t.relink.current.map { t with children := linkChildren t.states }.firstTerminal := rfl
  refine ⟨hlinked, fun {id} hid => ?_, fun {id} hid => ?_, fun hempty => ?_, fun hne => ?_⟩
  · exact Nat.lt_of_lt_of_le (index_lt_of_contains (t := t) hid) (Nat.le_max_right ..)
  · rcases mem_events_notify.mp hid with hid | heq
    · exact Nat.lt_of_lt_of_le (hadded hid) (nextId_le_relink t)
    · exact absurd heq (by simp)
  · have hnone : t.relink.current = none := by
      rw [hfilter, Option.filter_eq_none_iff]
      intro id _
      rw [contains_eq_false_of_isEmpty (t := t) hempty]
      exact Bool.false_ne_true
    exact ⟨hnone, by rw [hactive, hnone, Option.map_none]⟩
  · obtain ⟨id, hid, hcontains⟩ := hcurrent hne
    have hstays : t.relink.current = some id := by
      rw [hfilter, hid, Option.filter_some_pos hcontains]
    refine ⟨id, t.relink.firstTerminal id, hstays, ?_, hcontains, ?_, ?_, ?_⟩
    · rw [hactive, hstays, Option.map_some, firstTerminal_congr hlists]
    · exact hlinked.contains_firstTerminal hcontains
    · exact List.isEmpty_iff.mp (hlinked.isTerminal_firstTerminal id)
    · exact hlinked.mem_branch_firstTerminal hcontains

end DerivationTree
end MinimalistGrammar
