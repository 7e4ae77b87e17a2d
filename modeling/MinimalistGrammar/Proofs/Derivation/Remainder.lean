import MinimalistGrammar.Proofs.Derivation.Keeping

/-!
# What is left of a tree

When states are removed, those that come from them go with them, and no others. The states that stay
are as they were, up to the lists of their children. Of the store exactly that is left which they
show, so nothing that is left refers to something that went. The cursor goes up to the nearest state
that is left, or else to the last one.

For this parents have to be states with lesser numbers, whatever is in the store and wherever the
cursor is.

## Main definitions

* `DerivationTree.IsRemainder` — a tree is what another one has left.

## Main results

* `DerivationTree.isRemainder_removeStates` — what is left when states are removed.
-/

namespace MinimalistGrammar
namespace DerivationTree

variable {t : DerivationTree} {id a : StateId} {l l' : Link} {g : GroupId} {ids : List StateId}

/-- The tree `t'` is what is left of `t` when the states `ids` are to be removed, and `gone` are the
states that went. -/
structure IsRemainder (t t' : DerivationTree) (ids gone : List StateId) : Prop where
  mem_gone_iff {a : StateId} : a ∈ gone ↔ ∃ id ∈ ids, t.contains id = true ∧ t.ComesFrom a id
  increasing : gone.Pairwise (·.index < ·.index)
  unchanged : gone = [] → t' = t
  state? (id : StateId) : t'.state? id = if id ∈ gone then none else t.state? id
  childrenOf (p : StateId) :
    t'.childrenOf p = if p ∈ gone then [] else (t.childrenOf p).filter (· ∉ gone)
  isLinked : t.IsLinked → t'.IsLinked
  /-- All is left that a state shows which stays, and nothing else. -/
  stored_iff {l : Link} : gone ≠ [] → (t'.store.linked? l ≠ none ↔ ∃ id, id ∉ gone ∧ t.Shows id l)
  storedGroup_iff {g : GroupId} : gone ≠ [] →
    (t'.store.group? g ≠ none ↔ ∃ id, id ∉ gone ∧ t.ShowsGroup id g)
  /-- What is left is what it was. -/
  linked? {l : Link} : t'.store.linked? l ≠ none → t'.store.linked? l = t.store.linked? l
  group? {g : GroupId} : t'.store.group? g ≠ none → t'.store.group? g = t.store.group? g
  /-- So is all to which something refers that is left. -/
  link {l l' : Link} : l' ∈ t'.store.linksOf l → t'.store.linked? l' = t.store.linked? l'
  member {g : GroupId} {group : Group} {c : ConstituentId} : t'.store.group? g = some group →
    c ∈ group.members → t'.store.linked? (.constituent c) = t.store.linked? (.constituent c)
  root {id : StateId} {x : SyntaxState} {c : ConstituentId} : t'.state? id = some x → c ∈ x.roots →
    t'.store.linked? (.constituent c) = t.store.linked? (.constituent c)
  kept {id : StateId} {x : SyntaxState} {g : GroupId} : t'.state? id = some x →
    g ∈ x.groups.values →
    t'.store.group? g = t.store.group? g
  /-- The cursor is at the nearest state on the way up that is left, or else at the last one. -/
  cursor : gone ≠ [] →
    (∃ c a, t.current = some c ∧ t.ComesFrom c a ∧ t'.contains a = true ∧
      (∀ b, t.ComesFrom c b → t'.contains b = true → t.ComesFrom a b) ∧ t'.current = some a) ∨
    (∀ c a, t.current = some c → t.ComesFrom c a → t'.contains a = false) ∧
      ∀ a, t'.current = some a ↔
        t'.contains a = true ∧ ∀ b, t'.contains b = true → b.index ≤ a.index

/-! ### The states -/

theorem removeStates_of_isEmpty (hempty : (t.doomed ids).isEmpty = true) :
    t.removeStates ids = (t, []) := by
  rw [DerivationTree.removeStates, if_pos hempty]

theorem removeStates_eq_nil_iff : (t.removeStates ids).2 = [] ↔ (t.doomed ids).isEmpty = true := by
  constructor
  · intro hnil
    refine Std.TreeSet.isEmpty_iff_forall_contains.mpr fun a => Bool.eq_false_iff.mpr fun ha => ?_
    exact absurd (hnil ▸ mem_removeStates_iff.mpr ha) List.not_mem_nil
  · exact fun hempty => congrArg Prod.snd (removeStates_of_isEmpty hempty)

theorem increasing_removeStates (t : DerivationTree) (ids : List StateId) :
    (t.removeStates ids).2.Pairwise (·.index < ·.index) := by
  rw [DerivationTree.removeStates]
  simp only
  split
  · exact .nil
  · refine Std.TreeSet.ordered_toList.imp fun {a b} hab => ?_
    rw [Ident.compare_def] at hab
    exact Nat.compare_eq_lt.mp hab

theorem childrenOf_removeStates (t : DerivationTree) (ids : List StateId) (p : StateId) :
    (t.removeStates ids).1.childrenOf p =
      if (t.doomed ids).contains p then []
      else (t.childrenOf p).filter (! (t.doomed ids).contains ·) := by
  by_cases hempty : (t.doomed ids).isEmpty = true
  · have hnone (a : StateId) :
        (t.doomed ids).contains a = false := Std.TreeSet.contains_of_isEmpty hempty
    rw [removeStates_of_isEmpty hempty, hnone, if_neg Bool.false_ne_true]
    exact (List.filter_eq_self.mpr fun a _ => by rw [hnone]; rfl).symm
  · rw [DerivationTree.removeStates, if_neg hempty]
    exact childrenOf_withoutStates t _ p

theorem IsLinked.removeStates (h : t.IsLinked) (ids : List StateId) :
    (t.removeStates ids).1.IsLinked := by
  rw [DerivationTree.removeStates]
  simp only
  split
  · exact h
  · refine (h.withoutStates fun hp hgone => ?_).congr rfl rfl
    exact h.contains_doomed_of_comesFrom (.of_parent? hp) hgone

/-! ### The store -/

/-- All is left that a state shows which stays, and nothing else. -/
theorem linked?_removeStates_ne_none_iff (hgone : (t.doomed ids).isEmpty = false) :
    (t.removeStates ids).1.store.linked? l ≠ none ↔
      ∃ id, (t.doomed ids).contains id = false ∧ t.Shows id l := by
  have hkept : (t.withoutStates (t.doomed ids)).shown.has l = true ↔
      ∃ id, (t.doomed ids).contains id = false ∧ t.Shows id l := by
    simp only [has_shown_iff, reaches_entrances_iff, shows_withoutStates_iff]
  rw [store_removeStates hgone, Store.linked?_retain, ← hkept]
  split
  · next hhas =>
    obtain ⟨id, -, hshows⟩ := hkept.mp hhas
    exact iff_of_true hshows.linked?_ne_none hhas
  · next hnot => exact iff_of_false (fun hne => hne rfl) hnot

theorem group?_removeStates_ne_none_iff (hgone : (t.doomed ids).isEmpty = false) :
    (t.removeStates ids).1.store.group? g ≠ none ↔
      ∃ id, (t.doomed ids).contains id = false ∧ t.ShowsGroup id g := by
  have hkept : (t.withoutStates (t.doomed ids)).shown.groups.contains g = true ↔
      ∃ id, (t.doomed ids).contains id = false ∧ t.ShowsGroup id g := by
    simp only [← showsGroup_withoutStates_iff]
    rw [contains_groups_shown_iff]
    simp only [ShowsGroup, Option.ne_none_iff_exists', exists_and_left]
  rw [store_removeStates hgone, Store.group?_retain, ← hkept]
  split
  · next hhas =>
    obtain ⟨id, -, -, -, -, hstored⟩ := hkept.mp hhas
    exact iff_of_true hstored hhas
  · next hnot => exact iff_of_false (fun hne => hne rfl) hnot

/-- Groups that are left are what they were. -/
theorem group?_removeStates_eq (hg : (t.removeStates ids).1.store.group? g ≠ none) :
    (t.removeStates ids).1.store.group? g = t.store.group? g := by
  by_cases hempty : (t.doomed ids).isEmpty = true
  · rw [removeStates_of_isEmpty hempty]
  · rw [store_removeStates (Bool.eq_false_iff.mpr hempty), Store.group?_retain] at hg ⊢
    split at hg
    · next hkept => rw [if_pos hkept]
    · exact absurd rfl hg

/-- An object that a state shows, if it is there at all, is what it was as long as the state
stays. -/
theorem linked?_removeStates_of_shows (hid : (t.removeStates ids).1.contains id = true)
    (hl : t.store.linked? l ≠ none → t.Shows id l) :
    (t.removeStates ids).1.store.linked? l = t.store.linked? l := by
  by_cases hstored : t.store.linked? l = none
  · by_contra hne
    exact hne (linked?_removeStates_eq fun hnone => hne (hnone.trans hstored.symm))
  · exact (keepsState_removeStates hid).linked? (hl hstored)

theorem group?_removeStates_of_showsGroup (hid : (t.removeStates ids).1.contains id = true)
    (hg : t.store.group? g ≠ none → t.ShowsGroup id g) :
    (t.removeStates ids).1.store.group? g = t.store.group? g := by
  by_cases hstored : t.store.group? g = none
  · by_contra hne
    exact hne (group?_removeStates_eq fun hnone => hne (hnone.trans hstored.symm))
  · exact (keepsState_removeStates hid).group? (hg hstored)

/-- Nothing that is left refers to something that went. -/
theorem linked?_removeStates_of_link (hl' : l' ∈ (t.removeStates ids).1.store.linksOf l) :
    (t.removeStates ids).1.store.linked? l' = t.store.linked? l' := by
  by_cases hempty : (t.doomed ids).isEmpty = true
  · rw [removeStates_of_isEmpty hempty]
  have hstored : (t.removeStates ids).1.store.linked? l ≠ none := by
    intro hnone
    rw [Store.linksOf, hnone] at hl'
    exact absurd hl' List.not_mem_nil
  obtain ⟨id, hstays, x, hx, hreaches⟩ :=
    (linked?_removeStates_ne_none_iff (Bool.eq_false_iff.mpr hempty)).mp hstored
  have hid := (contains_removeStates t ids id).mpr ⟨contains_iff.mpr ⟨x, hx⟩, hstays⟩
  exact linked?_removeStates_of_shows hid fun hl =>
    ⟨x, hx, hreaches.step (mem_linksOf_of_removeStates hl') hl⟩

theorem linked?_removeStates_of_member {group : Group} {c : ConstituentId}
    (hgroup : (t.removeStates ids).1.store.group? g = some group) (hc : c ∈ group.members) :
    (t.removeStates ids).1.store.linked? (.constituent c) = t.store.linked? (.constituent c) := by
  by_cases hempty : (t.doomed ids).isEmpty = true
  · rw [removeStates_of_isEmpty hempty]
  have hstored : (t.removeStates ids).1.store.group? g ≠ none := by simp [hgroup]
  have hold : t.store.group? g = some group := (group?_removeStates_eq hstored).symm.trans hgroup
  obtain ⟨id, hstays, x, hx, hg, -⟩ :=
    (group?_removeStates_ne_none_iff (Bool.eq_false_iff.mpr hempty)).mp hstored
  have hid := (contains_removeStates t ids id).mpr ⟨contains_iff.mpr ⟨x, hx⟩, hstays⟩
  refine linked?_removeStates_of_shows hid fun hl => ⟨x, hx, .start ?_ hl⟩
  exact Store.mem_entrances_iff.mpr ⟨c, rfl, Or.inr ⟨g, hg, group, hold, hc⟩⟩

/-! ### The cursor -/

/-- The last of the states has the greatest number. -/
theorem getLast?_keys_states_iff : t.states.keys.getLast? = some a ↔
    t.contains a = true ∧ ∀ b, t.contains b = true → b.index ≤ a.index := by
  have hlast {c : StateId} (hc : t.states.keys.getLast? = some c) :
      t.contains c = true ∧ ∀ b, t.contains b = true → b.index ≤ c.index := by
    refine ⟨mem_keys_states_iff.mp (List.mem_of_getLast? hc), fun b hb => ?_⟩
    have hincreasing := IdentMap.increasing_keys t.states
    have hb := mem_keys_states_iff.mpr hb
    rw [← List.dropLast_append_getLast? c hc] at hincreasing hb
    rcases List.mem_append.mp hb with hb | hb
    · exact Nat.le_of_lt
        ((List.pairwise_append.mp hincreasing).2.2 b hb c (List.mem_singleton_self c))
    · exact Nat.le_of_eq (List.mem_singleton.mp hb ▸ rfl)
  refine ⟨hlast, fun ⟨ha, hgreatest⟩ => ?_⟩
  cases hc : t.states.keys.getLast? with
  | none =>
    rw [List.getLast?_eq_none_iff] at hc
    exact absurd (mem_keys_states_iff.mpr ha) (hc ▸ List.not_mem_nil)
  | some c =>
    obtain ⟨hcontains, hle⟩ := hlast hc
    exact congrArg some (congrArg Ident.mk (Nat.le_antisymm (hgreatest c hcontains) (hle a ha)))

theorem current_removeStates (hgone : (t.doomed ids).isEmpty = false) :
    (t.removeStates ids).1.current =
      (t.current.bind fun id => (t.ancestors id).find? (! (t.doomed ids).contains ·)).or
        (t.removeStates ids).1.states.keys.getLast? := by
  rw [DerivationTree.removeStates, if_neg (by simp [hgone])]
  rfl

/-- The cursor goes up to the nearest state that is left. -/
theorem IsOrdered.cursor_removeStates (h : t.IsOrdered) (hgone : (t.doomed ids).isEmpty = false) :
    (∃ c a, t.current = some c ∧ t.ComesFrom c a ∧ (t.removeStates ids).1.contains a = true ∧
      (∀ b, t.ComesFrom c b → (t.removeStates ids).1.contains b = true → t.ComesFrom a b) ∧
        (t.removeStates ids).1.current = some a) ∨
    (∀ c a, t.current = some c → t.ComesFrom c a → (t.removeStates ids).1.contains a = false) ∧
      (t.removeStates ids).1.current = (t.removeStates ids).1.states.keys.getLast? := by
  rw [current_removeStates hgone]
  cases hsurvivor : t.current.bind fun id =>
    (t.ancestors id).find? (! (t.doomed ids).contains ·) with
  | some a =>
    obtain ⟨c, hcurrent, hfind⟩ := Option.bind_eq_some_iff.mp hsurvivor
    have hc := (h.mem_ancestors_iff.mp (List.mem_of_find?_eq_some hfind)).1
    obtain ⟨hcomes, hnearest⟩ := h.find?_ancestors hc hfind
    have hstays : (t.doomed ids).contains a = false := by simpa using List.find?_some hfind
    refine Or.inl ⟨c, a, hcurrent, hcomes, ?_, fun b hb hleft => hnearest b hb ?_, rfl⟩
    · exact (contains_removeStates t ids a).mpr ⟨h.contains_of_comesFrom hc hcomes, hstays⟩
    · rw [((contains_removeStates t ids b).mp hleft).2]
      rfl
  | none =>
    refine Or.inr ⟨fun c a hcurrent hcomes => Bool.eq_false_iff.mpr fun hleft => ?_, rfl⟩
    obtain ⟨ha, hstays⟩ := (contains_removeStates t ids a).mp hleft
    rw [hcurrent, Option.bind_some, List.find?_eq_none] at hsurvivor
    refine hsurvivor a (h.mem_ancestors_iff.mpr ⟨hcomes.contains ha, hcomes⟩) ?_
    rw [hstays]
    rfl

/-! ### What is left -/

/-- With some states go exactly those that come from them, and exactly what no other state shows;
nothing that is left refers to something that went, and the cursor is at the nearest state that is
left. -/
theorem isRemainder_removeStates (h : t.IsOrdered) (ids : List StateId) :
    t.IsRemainder (t.removeStates ids).1 ids (t.removeStates ids).2 where
  mem_gone_iff := mem_removeStates_iff.trans h.contains_doomed_iff
  increasing := increasing_removeStates t ids
  unchanged hnil := congrArg Prod.fst (removeStates_of_isEmpty (removeStates_eq_nil_iff.mp hnil))
  state? id := by
    rw [state?_removeStates]
    simp only [mem_removeStates_iff]
  childrenOf p := by
    rw [childrenOf_removeStates]
    simp only [mem_removeStates_iff, Bool.not_eq_true, Bool.decide_eq_false]
  isLinked hlinked := hlinked.removeStates ids
  stored_iff {l} hne := by
    have hgone := Bool.eq_false_iff.mpr (mt removeStates_eq_nil_iff.mpr hne)
    simp only [linked?_removeStates_ne_none_iff hgone, mem_removeStates_iff, Bool.not_eq_true]
  storedGroup_iff {g} hne := by
    have hgone := Bool.eq_false_iff.mpr (mt removeStates_eq_nil_iff.mpr hne)
    simp only [group?_removeStates_ne_none_iff hgone, mem_removeStates_iff, Bool.not_eq_true]
  linked? := linked?_removeStates_eq
  group? := group?_removeStates_eq
  link := linked?_removeStates_of_link
  member := linked?_removeStates_of_member
  root {id x c} hx hc := by
    refine linked?_removeStates_of_shows (contains_iff.mpr ⟨x, hx⟩) fun hl => ?_
    exact ⟨x, of_state?_removeStates hx,
      .start (Store.mem_entrances_iff.mpr ⟨c, rfl, Or.inl hc⟩) hl⟩
  kept {id x g} hx hg := group?_removeStates_of_showsGroup (contains_iff.mpr ⟨x, hx⟩) fun hstored =>
    ⟨x, of_state?_removeStates hx, hg, hstored⟩
  cursor hne := by
    have hgone := Bool.eq_false_iff.mpr (mt removeStates_eq_nil_iff.mpr hne)
    refine (h.cursor_removeStates hgone).imp_right fun ⟨hnone, hcurrent⟩ => ⟨hnone, fun a => ?_⟩
    rw [hcurrent]
    exact getLast?_keys_states_iff

/-- A tree with one more state, which comes from the current one and shows a new leaf. -/
def showLeaf (t : DerivationTree) (label : String) : DerivationTree :=
  let leaf := t.store.addLeaf label [.categorial "d"]
  ({ t with store := leaf.1 }.addStep { roots := [leaf.2], message := label, type := .scan }
    t.current).1

/-- Of three states that come from one another the first one is left when the second one is removed.
It has no children any more, and the cursor goes to it. -/
theorem isRemainder_showLeaf :
    let t := ((({} : DerivationTree).showLeaf "the").showLeaf "old").showLeaf "king"
    let left := t.removeStates [⟨1⟩, ⟨7⟩]
    t.IsOrdered ∧ left.2 = [⟨1⟩, ⟨2⟩] ∧ left.1.current = some ⟨0⟩ ∧ left.1.childrenOf ⟨0⟩ = [] ∧
      t.IsRemainder left.1 [⟨1⟩, ⟨7⟩] left.2 := by
  intro t left
  have hnext {u : DerivationTree} (hu : u.IsConsistent) (label : String) :
      (u.showLeaf label).IsConsistent :=
    (hu.withStore _).addStep _ _
  have h : t.IsOrdered := (hnext (hnext (hnext isConsistent_empty "the") "old") "king").toIsOrdered
  exact ⟨h, by decide +kernel, by decide +kernel, by decide +kernel, isRemainder_removeStates h _⟩

end DerivationTree
end MinimalistGrammar
