import MinimalistGrammar.Derivation.Navigation
import MinimalistGrammar.Proofs.Derivation.Lineage

/-!
# Consistent derivation trees

A derivation tree keeps its parent links twice, and has a cursor and a counter besides. All of them
agree in a new tree, and adding states and moving the cursor keeps it so.

## Main definitions

* `DerivationTree.IsAt` — where the cursor is.
* `DerivationTree.IsConsistent` — all parts of a derivation tree agree.

## Main results

* `DerivationTree.IsConsistent.addStep`, `DerivationTree.IsConsistent.jumpTo`,
  `DerivationTree.IsConsistent.goTo`, `DerivationTree.IsConsistent.cycle` — the changes of a tree
  keep it consistent.
-/

namespace MinimalistGrammar
namespace DerivationTree

variable {t t' : DerivationTree} {id a p : StateId}

/-- The cursor is at a state of the active branch, which ends at a state without children. -/
structure IsAt (t : DerivationTree) (current active : StateId) : Prop where
  current_eq : t.current = some current
  active_eq : t.active = some active
  contains_current : t.contains current = true
  contains_active : t.contains active = true
  isTerminal : t.childrenOf active = []
  mem_branch : current ∈ t.branch active

/-- All parts of a derivation tree agree: parents are states with lesser numbers, the lists of
children say the same, no number that is in use or was given out is given out again, and the cursor
is on the active branch, unless there is no state. -/
structure IsConsistent (t : DerivationTree) : Prop extends IsLinked t where
  fresh {id : StateId} (h : t.contains id = true) : id.index < t.nextId
  added {id : StateId} (h : .added id ∈ t.events) : id.index < t.nextId
  empty (h : t.isEmpty = true) : t.current = none ∧ t.active = none
  cursor (h : t.isEmpty = false) : ∃ current active, t.IsAt current active

/-! ### What does not touch the states -/

theorem ancestorsWithin_congr (h : t'.states = t.states) (n : Nat) (id : Option StateId) :
    t'.ancestorsWithin n id = t.ancestorsWithin n id := by
  induction n generalizing id with
  | zero => rfl
  | succ n ih =>
    cases id with
    | none => rfl
    | some id =>
      have hparent : t'.parent? id = t.parent? id := by rw [parent?, state?, h]; rfl
      rw [ancestorsWithin, ancestorsWithin, ih, hparent]

/-- Branches depend on the states alone. -/
theorem branch_congr (h : t'.states = t.states) (id : StateId) : t'.branch id = t.branch id := by
  have hcontains : t'.contains id = t.contains id := by rw [contains, h]; rfl
  have hsize : t'.size = t.size := by rw [size, h]; rfl
  rw [branch, branch, ancestors, ancestors, hcontains, hsize, ancestorsWithin_congr h]

theorem firstTerminalWithin_congr (h : t'.children = t.children) (n : Nat) (id : StateId) :
    t'.firstTerminalWithin n id = t.firstTerminalWithin n id := by
  induction n generalizing id with
  | zero => rfl
  | succ n ih =>
    have hlist : t'.childrenOf id = t.childrenOf id := by rw [childrenOf, h]; rfl
    rw [firstTerminalWithin, firstTerminalWithin, hlist]
    split
    · rfl
    · exact ih _

/-- The ends of branches depend on the lists of children alone. -/
theorem firstTerminal_congr (h : t'.children = t.children) (id : StateId) :
    t'.firstTerminal id = t.firstTerminal id := by
  rw [firstTerminal, h, firstTerminalWithin_congr h]
  rfl

theorem IsLinked.congr (h : t.IsLinked) (hstates : t'.states = t.states)
    (hchildren : t'.children = t.children) : t'.IsLinked := by
  have hstate (id : StateId) : t'.state? id = t.state? id := by rw [state?, hstates]; rfl
  have hcontains (id : StateId) : t'.contains id = t.contains id := by rw [contains, hstates]; rfl
  have hparent (id : StateId) : t'.parent? id = t.parent? id := by rw [parent?, hstate]; rfl
  have hlist (id : StateId) : t'.childrenOf id = t.childrenOf id := by
    rw [childrenOf, hchildren]; rfl
  refine ⟨⟨fun hid => h.id (hstate _ ▸ hid), fun hp => ?_⟩, fun id => ?_, fun p => ?_, ?_⟩
  · rw [hcontains]
    exact h.parent (hparent _ ▸ hp)
  · rw [hchildren, hcontains, h.listed]
  · rw [hlist]
    exact h.increasing p
  · intro p id
    rw [hlist, hparent, h.mem_childrenOf_iff]

theorem IsAt.congr {current active : StateId} (h : t.IsAt current active)
    (hstates : t'.states = t.states) (hchildren : t'.children = t.children)
    (hcurrent : t'.current = t.current) (hactive : t'.active = t.active) :
    t'.IsAt current active where
  current_eq := hcurrent.trans h.current_eq
  active_eq := hactive.trans h.active_eq
  contains_current := by rw [contains, hstates]; exact h.contains_current
  contains_active := by rw [contains, hstates]; exact h.contains_active
  isTerminal := by rw [childrenOf, hchildren]; exact h.isTerminal
  mem_branch := by rw [branch_congr hstates]; exact h.mem_branch

/-- The trees that the states show are of no account. -/
theorem IsConsistent.withStore (h : t.IsConsistent) (store : Store) :
    { t with store }.IsConsistent where
  toIsLinked := h.toIsLinked.congr rfl rfl
  fresh := h.fresh
  added := h.added
  empty := h.empty
  cursor hne := by
    obtain ⟨current, active, hat⟩ := h.cursor hne
    exact ⟨current, active, hat.congr rfl rfl rfl rfl⟩

theorem mem_events_notify {e e' : TreeEvent} : e ∈ (t.notify e').events ↔ e ∈ t.events ∨ e = e' :=
  Array.mem_push

/-- Subscribers may learn about anything but a new state. -/
theorem IsConsistent.notify (h : t.IsConsistent) {e : TreeEvent} (he : ∀ id, e ≠ .added id) :
    (t.notify e).IsConsistent where
  toIsLinked := h.toIsLinked.congr rfl rfl
  fresh := h.fresh
  added hid := (mem_events_notify.mp hid).elim h.added fun heq => absurd heq.symm (he _)
  empty := h.empty
  cursor hne := by
    obtain ⟨current, active, hat⟩ := h.cursor hne
    exact ⟨current, active, hat.congr rfl rfl rfl rfl⟩

/-- A new tree is consistent. -/
theorem isConsistent_empty : ({} : DerivationTree).IsConsistent where
  id h := by simp [state?] at h
  parent h := by simp [parent?, state?] at h
  listed _ := rfl
  increasing p := by
    have hnil : ({} : DerivationTree).childrenOf p = [] := by simp [childrenOf]
    rw [hnil]
    exact .nil
  mem_childrenOf_iff := by simp [childrenOf, parent?, state?]
  fresh h := by simp [contains] at h
  added h := by simp at h
  empty _ := ⟨rfl, rfl⟩
  cursor h := by simp [isEmpty] at h

/-! ### Moving the cursor -/

theorem IsLinked.exists_isAt_moveTo (h : t.IsLinked)
    (hactive : ∀ a, t.active = some a → t.contains a = true ∧ t.childrenOf a = [])
    (hid : t.contains id = true) : ∃ active, (t.moveTo id).IsAt id active := by
  have hstates : (t.moveTo id).states = t.states := rfl
  have hbranch (b : StateId) : (t.moveTo id).branch b = t.branch b := branch_congr hstates b
  cases hon : t.onActive id with
  | true =>
    obtain ⟨a, ha, hmem⟩ := (Option.any_eq_true ..).mp hon
    obtain ⟨hcontains, hterminal⟩ := hactive a ha
    refine ⟨a, rfl, ?_, hid, hcontains, hterminal, ?_⟩
    · rw [moveTo, hon, if_pos rfl]
      exact ha
    · rw [hbranch, branch, List.mem_reverse]
      exact List.contains_iff_mem.mp hmem
  | false =>
    refine ⟨t.firstTerminal id, rfl, ?_, hid, h.contains_firstTerminal hid, ?_, ?_⟩
    · rw [moveTo, hon, if_neg Bool.false_ne_true]
      rfl
    · exact List.isEmpty_iff.mp (h.isTerminal_firstTerminal id)
    · rw [hbranch]
      exact h.mem_branch_firstTerminal hid

/-- Going to a state keeps a tree consistent, also if a branch that ends at a state without children
was made active before. -/
theorem IsConsistent.moveTo (h : t.IsConsistent) {active : Option StateId}
    (hactive : ∀ a, active = some a → t.contains a = true ∧ t.childrenOf a = [])
    (hid : t.contains id = true) : ({ t with active }.moveTo id).IsConsistent where
  toIsLinked := h.toIsLinked.congr rfl rfl
  fresh := h.fresh
  added hadded := (mem_events_notify.mp hadded).elim h.added (by simp)
  empty hempty := absurd (hempty.symm.trans (isEmpty_eq_false hid)) (by simp)
  cursor _ := by
    have hlinked : { t with active }.IsLinked := h.toIsLinked.congr rfl rfl
    exact ⟨id, hlinked.exists_isAt_moveTo hactive hid⟩

theorem IsConsistent.contains_of_active (h : t.IsConsistent) (ha : t.active = some a) :
    t.contains a = true ∧ t.childrenOf a = [] := by
  cases hempty : t.isEmpty with
  | true => simp [(h.empty hempty).2] at ha
  | false =>
    obtain ⟨current, active, hat⟩ := h.cursor hempty
    obtain rfl := Option.some.inj (ha.symm.trans hat.active_eq)
    exact ⟨hat.contains_active, hat.isTerminal⟩

theorem IsConsistent.jumpTo (h : t.IsConsistent) (ht' : t.jumpTo id = .ok t') :
    t'.IsConsistent := by
  rw [DerivationTree.jumpTo] at ht'
  split at ht'
  · next hid =>
    obtain rfl := Except.ok.inj ht'
    exact h.moveTo (fun a => h.contains_of_active) hid
  · exact absurd ht' (by simp)

theorem goTo_of_contains (hid : t.contains id = true) :
    t.goTo (some id) = (t.moveTo id, some id) := by
  rw [goTo, Option.filter_some_pos hid]

theorem IsConsistent.goTo (h : t.IsConsistent) (target : Option StateId) :
    (t.goTo target).1.IsConsistent := by
  rw [DerivationTree.goTo]
  split
  · exact h
  · next id hid =>
    exact h.moveTo (fun a => h.contains_of_active) (Option.filter_eq_some_iff.mp hid).2

theorem mem_branches_iff : a ∈ t.branches ↔ t.contains a = true ∧ t.childrenOf a = [] := by
  rw [branches, List.mem_filter, mem_keys_states_iff, isTerminal, List.isEmpty_iff]

theorem IsConsistent.cycle (h : t.IsConsistent) (choose : Nat → Nat → Nat) :
    (t.cycle choose).1.IsConsistent := by
  rw [DerivationTree.cycle]
  split
  · exact h
  · next id hid =>
    have hbranch := mem_branches_iff.mp (List.mem_of_getElem? hid)
    rw [goTo_of_contains (t := { t with active := some id }) hbranch.1]
    refine h.moveTo (fun a ha => ?_) hbranch.1
    rwa [← Option.some.inj ha]

theorem nextId_goTo (t : DerivationTree) (target : Option StateId) :
    (t.goTo target).1.nextId = t.nextId := by
  rw [goTo]
  split <;> rfl

theorem nextId_cycle (t : DerivationTree) (choose : Nat → Nat → Nat) :
    (t.cycle choose).1.nextId = t.nextId := by
  rw [cycle]
  split
  · rfl
  · exact nextId_goTo ..

/-! ### Adding states -/

section add

variable (step : Step) (parent : Option StateId)

theorem childrenOf_eq : t.childrenOf id = t.children[id]?.getD [] :=
  Std.TreeMap.getD_eq_getD_getElem?

theorem parent?_addStep (t : DerivationTree) (id : StateId) :
    (t.addStep step parent).1.parent? id =
      if id = ⟨t.nextId⟩ then parent.filter t.contains else t.parent? id := by
  rw [parent?, state?_addStep]
  split <;> rfl

theorem contains_addStep (t : DerivationTree) (id : StateId) :
    (t.addStep step parent).1.contains id = true ↔ id = ⟨t.nextId⟩ ∨ t.contains id = true := by
  rw [contains_iff, state?_addStep]
  split
  · next hid => simp [hid]
  · next hid => rw [← contains_iff, or_iff_right hid]

/-- No state is its own parent: the new one is none before it is added. -/
theorem filter_contains_ne (hnew : t.contains ⟨t.nextId⟩ = false) :
    parent.filter t.contains ≠ some ⟨t.nextId⟩ := fun heq =>
  absurd ((Option.filter_eq_some_iff.mp heq).2.symm.trans hnew) (by simp)

omit parent in
/-- A new state has an empty list of children, and is last on the list of its parent. -/
theorem getElem?_children_addStep (t : DerivationTree) {parent : Option StateId}
    (hparent : parent.filter t.contains ≠ some ⟨t.nextId⟩) (id : StateId) :
    (t.addStep step parent).1.children[id]? = if id = ⟨t.nextId⟩ then some [] else
      (t.children[id]?).map fun l => if parent.filter t.contains = some id then l ++
        [⟨t.nextId⟩] else l := by
  have hinsert (p : StateId) : (t.children.insert ⟨t.nextId⟩ [])[p]? =
      if p = ⟨t.nextId⟩ then some [] else t.children[p]? := IdentMap.getElem?_insert ..
  rw [addStep]
  simp only [DerivationTree.notify]
  cases hfilter : parent.filter t.contains with
  | none =>
    rw [Option.elim_none, hinsert]
    simp
  | some q =>
    have hne : ⟨t.nextId⟩ ≠ q := fun heq => hparent (heq ▸ hfilter)
    rw [Option.elim_some, IdentMap.getElem?_modify, hinsert]
    by_cases hid : id = q
    · rw [hid, if_pos rfl, if_neg (Ne.symm hne), if_neg (Ne.symm hne)]
      simp
    · rw [if_neg hid]
      simp [Ne.symm hid]

/-- A new state has no children, and is the last child of its parent. -/
theorem childrenOf_addStep (h : t.IsLinked) (hnew : t.contains ⟨t.nextId⟩ = false) (p : StateId) :
    (t.addStep step parent).1.childrenOf p =
      if p = ⟨t.nextId⟩ then []
      else if parent.filter t.contains = some p then t.childrenOf p ++ [⟨t.nextId⟩]
      else t.childrenOf p := by
  rw [childrenOf_eq, childrenOf_eq,
    getElem?_children_addStep step t (filter_contains_ne parent hnew)]
  split
  · rfl
  split
  · next hp =>
    -- the parent is a state, so it has a list
    obtain ⟨l, hl⟩ : ∃ l, t.children[p]? = some l := by
      rw [← Option.isSome_iff_exists, ← Std.TreeMap.contains_eq_isSome_getElem?, h.listed]
      exact (Option.filter_eq_some_iff.mp hp).2
    rw [hl]
    rfl
  · rw [Option.map_id']

theorem IsOrdered.addStep (h : t.IsOrdered)
    (hfresh : ∀ {id}, t.contains id = true → id.index < t.nextId) :
    (t.addStep step parent).1.IsOrdered where
  id {id s} hid := by
    rw [state?_addStep] at hid
    split at hid
    · next heq => rw [heq, ← Option.some.inj hid]
    · exact h.id hid
  parent {id p} hp := by
    rw [parent?_addStep] at hp
    rw [contains_addStep]
    split at hp
    · next heq =>
      have hcontains := (Option.filter_eq_some_iff.mp hp).2
      rw [heq]
      exact ⟨Or.inr hcontains, hfresh hcontains⟩
    · exact ⟨Or.inr (h.parent hp).1, (h.parent hp).2⟩

/-- The new state is listed, and no other one. -/
theorem IsLinked.listed_addStep (h : t.IsLinked) (id : StateId) :
    (t.addStep step parent).1.children.contains id = (t.addStep step parent).1.contains id := by
  have hlisted : (t.addStep step parent).1.children.contains id =
      (t.children.insert ⟨t.nextId⟩ []).contains id := by
    rw [DerivationTree.addStep]
    simp only [DerivationTree.notify]
    cases parent.filter t.contains with
    | none => rfl
    | some q => exact Std.TreeMap.contains_modify
  rw [hlisted, Std.TreeMap.contains_insert, h.listed, DerivationTree.addStep]
  exact Std.TreeMap.contains_insert.symm

/-- The lists of children say the same as the parents of the states. -/
theorem IsLinked.mem_childrenOf_addStep_iff (h : t.IsLinked) (hnew : t.contains ⟨t.nextId⟩ = false)
    (p id : StateId) : id ∈ (t.addStep step parent).1.childrenOf p ↔
      (t.addStep step parent).1.parent? id = some p := by
  rw [childrenOf_addStep step parent h hnew, parent?_addStep]
  -- nothing has the new state as its parent
  have hne : parent.filter t.contains ≠ some ⟨t.nextId⟩ ∧ t.parent? id ≠ some ⟨t.nextId⟩ :=
    ⟨filter_contains_ne parent hnew, fun heq => absurd ((h.parent heq).1.symm.trans hnew) (by simp)⟩
  -- and it has not been a child
  have hnone : t.parent? ⟨t.nextId⟩ ≠ some p := fun heq =>
    absurd ((contains_of_parent? heq).symm.trans hnew) (by simp)
  by_cases hp : p = ⟨t.nextId⟩
  · rw [if_pos hp, hp]
    split <;> simp [hne]
  · rw [if_neg hp]
    by_cases hid : id = ⟨t.nextId⟩
    · rw [if_pos hid, hid]
      split
      · next heq => simp [heq]
      · next heq => simp [h.mem_childrenOf_iff, hnone, heq]
    · rw [if_neg hid]
      split
      · simp [h.mem_childrenOf_iff, hid]
      · exact h.mem_childrenOf_iff

theorem IsLinked.addStep (h : t.IsLinked)
    (hfresh : ∀ {id}, t.contains id = true → id.index < t.nextId) :
    (t.addStep step parent).1.IsLinked := by
  have hnew : t.contains ⟨t.nextId⟩ = false :=
    Bool.eq_false_iff.mpr fun hcontains => Nat.lt_irrefl _ (hfresh hcontains)
  refine ⟨h.toIsOrdered.addStep step parent hfresh, h.listed_addStep step parent, fun p => ?_,
    h.mem_childrenOf_addStep_iff step parent hnew _ _⟩
  rw [childrenOf_addStep step parent h hnew]
  split
  · exact .nil
  split
  · -- the new state has the greatest number
    refine List.pairwise_append.mpr ⟨h.increasing p, List.pairwise_singleton .., ?_⟩
    intro a ha b hb
    rw [List.mem_singleton.mp hb]
    exact hfresh (contains_of_parent? (h.mem_childrenOf_iff.mp ha))
  · exact h.increasing p

/-- Adding a state keeps a tree consistent. -/
theorem IsConsistent.addStep (h : t.IsConsistent) : (t.addStep step parent).1.IsConsistent := by
  have hlinked := h.toIsLinked.addStep step parent h.fresh
  have hcontains := (contains_addStep step parent t ⟨t.nextId⟩).mpr (Or.inl rfl)
  have hterminal : (t.addStep step parent).1.childrenOf ⟨t.nextId⟩ = [] := by
    rw [childrenOf_addStep step parent h.toIsLinked, if_pos rfl]
    exact Bool.eq_false_iff.mpr fun hcontains => Nat.lt_irrefl _ (h.fresh hcontains)
  refine ⟨hlinked, fun {id} hid => ?_, fun {id} hid => ?_, fun hempty => ?_, fun _ => ?_⟩
  · rcases (contains_addStep step parent t id).mp hid with rfl | hid
    · exact Nat.lt_succ_self _
    · exact Nat.lt_succ_of_lt (h.fresh hid)
  · rcases mem_events_notify.mp hid with hid | heq
    · exact Nat.lt_succ_of_lt (h.added hid)
    · rw [TreeEvent.added.inj heq]
      exact Nat.lt_succ_self _
  · exact absurd (hempty.symm.trans (isEmpty_eq_false hcontains)) (by simp)
  · exact ⟨⟨t.nextId⟩, ⟨t.nextId⟩, rfl, rfl, hcontains, hcontains, hterminal,
      hlinked.mem_branch_iff.mpr ⟨hcontains, .refl _⟩⟩

end add

end DerivationTree
end MinimalistGrammar
