import MinimalistGrammar.Derivation.Pruning
import MinimalistGrammar.Proofs.Derivation.Consistency

/-!
# Removing states from a consistent tree

With a state go all that come from it, and no others. What is left is linked as before, and the
cursor finds a place on a branch that is left.

## Main results

* `DerivationTree.IsOrdered.contains_doomed_iff` — which states are removed.
* `DerivationTree.IsConsistent.removeStates` — what is left is consistent.
-/

namespace MinimalistGrammar
namespace DerivationTree

variable {t : DerivationTree} {id a p : StateId} {found gone : IdentSet .state}
  {l : List (StateId × SyntaxState)} {ids : List StateId}

/-! ### What is removed -/

/-- What is found has every property that the first states have and that states take over from their
parents. -/
theorem of_contains_foldl_withOrphan {P : StateId → Prop}
    (hfound : ∀ a, found.contains a = true → P a)
    (hchild : ∀ e ∈ l, ∀ p, e.2.parent = some p → P p → P e.1)
    (h : (l.foldl (fun found e => withOrphan found e.1 e.2) found).contains a = true) : P a := by
  induction l generalizing found with
  | nil => exact hfound a h
  | cons e l ih =>
    rw [List.foldl_cons] at h
    refine ih (fun b hb => ?_) (fun e he => hchild e (List.mem_cons_of_mem _ he)) h
    rw [withOrphan] at hb
    split at hb
    · next hparent =>
      obtain ⟨p, hp, hmem⟩ := (Option.any_eq_true ..).mp hparent
      rw [Std.TreeSet.contains_insert, Bool.or_eq_true] at hb
      rcases hb with heq | hb
      · rw [← Std.LawfulEqCmp.compare_eq_iff_eq.mp (eq_of_beq heq)]
        exact hchild e (List.mem_cons_self ..) p hp (hfound p hmem)
      · exact hfound b hb
    · exact hfound b hb

theorem contains_foldl_withOrphan (h : found.contains a = true) :
    (l.foldl (fun found e => withOrphan found e.1 e.2) found).contains a = true := by
  induction l generalizing found with
  | nil => exact h
  | cons e l ih =>
    rw [List.foldl_cons]
    refine ih ?_
    rw [withOrphan]
    split
    · rw [Std.TreeSet.contains_insert, h, Bool.or_true]
    · exact h

/-- With a parent all its children are found, since they come behind it. -/
theorem contains_foldl_withOrphan_of_parent (hl : l.Pairwise (·.1.index < ·.1.index))
    (hparent : ∀ e ∈ l, ∀ p, e.2.parent = some p → p.index < e.1.index)
    {e : StateId × SyntaxState} (he : e ∈ l) (hp : e.2.parent = some p)
    (h : (l.foldl (fun found e => withOrphan found e.1 e.2) found).contains p = true) :
    (l.foldl (fun found e => withOrphan found e.1 e.2) found).contains e.1 = true := by
  induction l generalizing found with
  | nil => exact absurd he (by simp)
  | cons e' l ih =>
    obtain ⟨hhead, htail⟩ := List.pairwise_cons.mp hl
    rw [List.foldl_cons] at h ⊢
    rcases List.mem_cons.mp he with rfl | he
    · have hlt := hparent e (List.mem_cons_self ..) p hp
      -- the parent was found before, as only greater numbers are still to come
      have hfound : found.contains p = true := by
        have hp' := of_contains_foldl_withOrphan
          (P := fun a => (withOrphan found e.1 e.2).contains a = true ∨ a ∈ l.map (·.1))
          (fun a ha => Or.inl ha) (fun e he _ _ _ => Or.inr (List.mem_map_of_mem he)) h
        rcases hp' with hp' | hp'
        · rw [withOrphan] at hp'
          split at hp'
          · rw [Std.TreeSet.contains_insert, Bool.or_eq_true] at hp'
            refine hp'.resolve_left fun heq => ?_
            rw [Std.LawfulEqCmp.compare_eq_iff_eq.mp (eq_of_beq heq)] at hlt
            exact Nat.lt_irrefl _ hlt
          · exact hp'
        · obtain ⟨e', he', rfl⟩ := List.mem_map.mp hp'
          exact absurd hlt (Nat.lt_asymm (hhead e' he'))
      refine contains_foldl_withOrphan ?_
      rw [withOrphan, hp, Option.any_some, if_pos hfound]
      exact Std.TreeSet.contains_insert_self
    · exact ih htail (fun e he => hparent e (List.mem_cons_of_mem _ he)) he h

/-- Exactly the states that come from one of `ids` are removed. -/
theorem IsOrdered.contains_doomed_iff (h : t.IsOrdered) :
    (t.doomed ids).contains a = true ↔ ∃ id ∈ ids, t.contains id = true ∧ t.ComesFrom a id := by
  have hfirst (a : StateId) : (Std.TreeSet.ofList (ids.filter t.contains)).contains a = true ↔
      a ∈ ids ∧ t.contains a = true := by
    rw [Std.TreeSet.contains_ofList, List.contains_iff_mem, List.mem_filter]
  have hstate {e : StateId × SyntaxState} (he : e ∈ t.states.toList) : t.state? e.1 = some e.2 :=
    Std.TreeMap.mem_toList_iff_getElem?_eq_some.mp he
  have hparent {e : StateId × SyntaxState} (he : e ∈ t.states.toList) {p : StateId}
      (hp : e.2.parent = some p) : t.parent? e.1 = some p := by
    rw [parent?, hstate he]
    exact hp
  rw [doomed, Std.TreeMap.foldl_eq_foldl_toList]
  -- in one pass by number: a state is marked when its parent, which has a smaller number, is
  constructor
  · refine of_contains_foldl_withOrphan (P := fun a => ∃ id ∈ ids, t.contains id = true ∧
      t.ComesFrom a id) (fun a ha => ?_) fun e he p hp hfound => ?_
    · obtain ⟨hid, hmem⟩ := (hfirst a).mp ha
      exact ⟨a, hid, hmem, .refl a⟩
    · obtain ⟨id, hid, hmem, hcomes⟩ := hfound
      exact ⟨id, hid, hmem, .up (hparent he hp) hcomes⟩
  · rintro ⟨id, hid, hmem, hcomes⟩
    induction hcomes with
    | refl => exact contains_foldl_withOrphan ((hfirst _).mpr ⟨hid, hmem⟩)
    | @up a p id hp _ ih =>
      obtain ⟨s, hs, hp⟩ := Option.bind_eq_some_iff.mp hp
      have he : (a, s) ∈ t.states.toList := Std.TreeMap.mem_toList_iff_getElem?_eq_some.mpr hs
      refine contains_foldl_withOrphan_of_parent ?_
        (fun e he p hp => (h.parent (hparent he hp)).2) he hp (ih hid hmem)
      refine Std.TreeMap.ordered_keys_toList.imp fun {a b} hab => ?_
      rw [Ident.compare_def] at hab
      exact Nat.compare_eq_lt.mp hab

/-- What comes from a removed state is removed. -/
theorem IsOrdered.contains_doomed_of_comesFrom (h : t.IsOrdered) {b : StateId}
    (hb : t.ComesFrom b a) (ha : (t.doomed ids).contains a = true) :
    (t.doomed ids).contains b = true := by
  obtain ⟨id, hid, hmem, hcomes⟩ := h.contains_doomed_iff.mp ha
  exact h.contains_doomed_iff.mpr ⟨id, hid, hmem, hb.trans hcomes⟩

/-! ### What is left -/

theorem state?_withoutStates (t : DerivationTree) (gone : IdentSet .state) (id : StateId) :
    (t.withoutStates gone).state? id = if gone.contains id then none else t.state? id := by
  refine Std.TreeMap.getElem?_filter'.trans ?_
  rw [state?]
  cases gone.contains id <;> cases t.states[id]? <;> rfl

theorem contains_withoutStates (t : DerivationTree) (gone : IdentSet .state) (id : StateId) :
    (t.withoutStates gone).contains id = true ↔
      t.contains id = true ∧ gone.contains id = false := by
  rw [contains_iff, contains_iff, state?_withoutStates]
  cases gone.contains id <;> simp

theorem parent?_withoutStates (t : DerivationTree) (gone : IdentSet .state) (id : StateId) :
    (t.withoutStates gone).parent? id = if gone.contains id then none else t.parent? id := by
  rw [parent?, state?_withoutStates]
  split <;> rfl

theorem childrenOf_withoutStates (t : DerivationTree) (gone : IdentSet .state) (p : StateId) :
    (t.withoutStates gone).childrenOf p =
      if gone.contains p then [] else (t.childrenOf p).filter (! gone.contains ·) := by
  have hlist : (t.withoutStates gone).children[p]? =
      if gone.contains p then none
      else t.children[p]?.map fun children => children.filter (! gone.contains ·) := by
    refine Std.TreeMap.getElem?_map.trans ?_
    rw [Std.TreeMap.getElem?_filter']
    cases gone.contains p <;> cases t.children[p]? <;> rfl
  rw [childrenOf_eq, childrenOf_eq, hlist]
  split
  · rfl
  · cases t.children[p]? <;> rfl

/-- What is left when states are removed with their children is linked as before. -/
theorem IsLinked.withoutStates (h : t.IsLinked)
    (hgone : ∀ {id p}, t.parent? id = some p → gone.contains p = true → gone.contains id = true) :
    (t.withoutStates gone).IsLinked := by
  -- a state that stays keeps its parent, as the children of removed states are removed
  refine ⟨⟨fun {id s} hid => ?_, fun {id p} hp => ?_⟩, fun id => ?_, fun p => ?_, fun {p id} => ?_⟩
  · rw [state?_withoutStates] at hid
    split at hid
    · exact absurd hid (by simp)
    · exact h.id hid
  · rw [parent?_withoutStates] at hp
    rw [contains_withoutStates]
    split at hp
    · exact absurd hp (by simp)
    · next hid =>
      exact ⟨⟨(h.parent hp).1, Bool.eq_false_iff.mpr fun hp' => hid (hgone hp hp')⟩,
        (h.parent hp).2⟩
  · rw [Bool.eq_iff_iff, contains_withoutStates, ← h.listed]
    refine (Std.TreeMap.contains_map (t := t.children.filter _) ▸ ?_)
    rw [Std.TreeMap.contains_iff_mem, Std.TreeMap.mem_filter]
    simp
  · rw [childrenOf_withoutStates]
    split
    · exact .nil
    · exact (h.increasing p).filter _
  · rw [childrenOf_withoutStates, parent?_withoutStates]
    cases hp : gone.contains p <;> cases hid : gone.contains id
    · simp [h.mem_childrenOf_iff, hid]
    · simp [hid]
    · simp only [if_true, List.not_mem_nil, false_iff]
      exact fun hparent => absurd (hid.symm.trans (hgone hparent hp)) (by simp)
    · simp

/-! ### The cursor -/

/-- The cursor goes to the survivor, or to the last state. If the active branch is kept, it comes
from the survivor. -/
theorem IsLinked.exists_isAt_settle (h : t.IsLinked) (hne : t.isEmpty = false)
    {survivor : Option StateId} (hsurvivor : ∀ id, survivor = some id → t.contains id = true)
    (hkept : ∀ a, t.active = some a → t.contains a = true →
      ∃ id, survivor = some id ∧ t.ComesFrom a id) :
    ∃ current active, (t.settle survivor).IsAt current active := by
  have hstates : (t.settle survivor).states = t.states := rfl
  have hbranch (id : StateId) : (t.settle survivor).branch id = t.branch id :=
    branch_congr hstates id
  -- without a survivor the cursor goes to the last state, which is there
  obtain ⟨current, hcurrent, hcontains⟩ :
      ∃ id, survivor.or t.states.keys.getLast? = some id ∧ t.contains id = true := by
    cases survivor with
    | some id => exact ⟨id, rfl, hsurvivor id rfl⟩
    | none =>
      cases hlast : t.states.keys.getLast? with
      | some id => exact ⟨id, rfl, mem_keys_states_iff.mp (List.mem_of_getLast? hlast)⟩
      | none =>
        have hkeys := Std.TreeMap.isEmpty_keys (t := t.states)
        rw [List.getLast?_eq_none_iff.mp hlast] at hkeys
        exact absurd (hkeys.trans hne) (by simp)
  have hactive : (t.settle survivor).active =
      if (t.active.any fun a => t.contains a && t.isTerminal a) = true then t.active
      else some (t.firstTerminal current) := by
    rw [settle, hcurrent]
    rfl
  split at hactive
  · next hkeep =>
    obtain ⟨a, ha, hmem⟩ := (Option.any_eq_true ..).mp hkeep
    obtain ⟨hmem, hterminal⟩ := Bool.and_eq_true_iff.mp hmem
    obtain ⟨id, rfl, hcomes⟩ := hkept a ha hmem
    obtain rfl := Option.some.inj hcurrent
    refine ⟨id, a, rfl, hactive.trans ha, hcontains, hmem, List.isEmpty_iff.mp hterminal, ?_⟩
    rw [hbranch]
    exact h.mem_branch_iff.mpr ⟨hmem, hcomes⟩
  · refine ⟨current, t.firstTerminal current, hcurrent, hactive, hcontains,
      h.contains_firstTerminal hcontains, List.isEmpty_iff.mp (h.isTerminal_firstTerminal current),
      ?_⟩
    rw [hbranch]
    exact h.mem_branch_firstTerminal hcontains

theorem settle_of_isEmpty (h : t.isEmpty = true) :
    (t.settle none).current = none ∧ (t.settle none).active = none := by
  have hkeys : t.states.keys = [] := by
    rw [← List.isEmpty_iff, Std.TreeMap.isEmpty_keys]
    exact h
  have hnone : (t.active.any fun a => t.contains a && t.isTerminal a) = false := by
    rw [Option.any_eq_false]
    intro a _
    rw [contains_eq_false_of_isEmpty h, Bool.false_and]
  simp [settle, hkeys, hnone]

/-- Removing states keeps a tree consistent. -/
theorem IsConsistent.removeStates (h : t.IsConsistent) (ids : List StateId) :
    (t.removeStates ids).1.IsConsistent := by
  rw [DerivationTree.removeStates]
  simp only
  split
  · exact h
  generalize hgone : t.doomed ids = gone
  have hclosed {id a : StateId} (hcomes : t.ComesFrom id a) (ha : gone.contains a = true) :
      gone.contains id = true := by
    subst hgone
    exact h.contains_doomed_of_comesFrom hcomes ha
  generalize hsurvivor : (t.current.bind fun id => (t.ancestors id).find? (! gone.contains ·)) =
    survivor
  have hlinked : (t.withoutStates gone).collectGarbage.IsLinked :=
    (h.toIsLinked.withoutStates fun hp hgone => hclosed (.of_parent? hp) hgone).congr rfl rfl
  have hcontains (id : StateId) : (t.withoutStates gone).collectGarbage.contains id = true ↔
      t.contains id = true ∧ gone.contains id = false := contains_withoutStates t gone id
  have hsurvives (id : StateId) (hid : survivor = some id) :
      (t.withoutStates gone).collectGarbage.contains id = true := by
    obtain ⟨current, -, hfind⟩ := Option.bind_eq_some_iff.mp (hsurvivor.trans hid)
    obtain ⟨hmem, hcomes⟩ := h.mem_ancestors_iff.mp (List.mem_of_find?_eq_some hfind)
    refine (hcontains id).mpr ⟨h.contains_of_comesFrom hmem hcomes, ?_⟩
    simpa using List.find?_some hfind
  -- a kept branch has the cursor on it, which was not removed and so is where it was
  have hkept (a : StateId) (ha : t.active = some a)
      (hmem : (t.withoutStates gone).collectGarbage.contains a = true) :
      ∃ id, survivor = some id ∧ (t.withoutStates gone).collectGarbage.ComesFrom a id := by
    obtain ⟨hmem, hstays⟩ := (hcontains a).mp hmem
    obtain ⟨current, active, hat⟩ := h.cursor (isEmpty_eq_false hmem)
    obtain rfl := Option.some.inj (ha.symm.trans hat.active_eq)
    obtain ⟨-, hcomes⟩ := h.mem_branch_iff.mp hat.mem_branch
    have hnone (b : StateId) (hb : t.ComesFrom a b) : gone.contains b = false :=
      Bool.eq_false_iff.mpr fun hb' => absurd (hstays.symm.trans (hclosed hb hb')) (by simp)
    refine ⟨current, ?_, hcomes.of_parent?_eq fun b p hb hp => ?_⟩
    · rw [← hsurvivor, hat.current_eq, Option.bind_some, ancestors, if_pos hat.contains_current,
        ancestorsWithin, List.find?_cons_of_pos]
      rw [hnone current hcomes]
      rfl
    · refine (parent?_withoutStates t gone b).trans ?_
      rw [hnone b hb]
      exact hp
  refine IsConsistent.notify ?_ (by simp)
  refine ⟨hlinked.congr rfl rfl, fun hid => h.fresh ((hcontains _).mp hid).1, h.added,
    fun hempty => ?_, fun hne => hlinked.exists_isAt_settle hne hsurvives hkept⟩
  have hnone : survivor = none := Option.eq_none_iff_forall_ne_some.mpr fun id hid =>
    absurd ((hsurvives id hid).symm.trans (contains_eq_false_of_isEmpty hempty)) (by simp)
  rw [hnone]
  exact settle_of_isEmpty hempty

theorem nextId_removeStates (t : DerivationTree) (ids : List StateId) :
    (t.removeStates ids).1.nextId = t.nextId := by
  rw [DerivationTree.removeStates]
  simp only
  split <;> rfl

end DerivationTree
end MinimalistGrammar
