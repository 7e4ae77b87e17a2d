import MinimalistGrammar.Proofs.Derivation.Closed

/-!
# States that own what they show

When every step shows exactly what was added for it, every object of the store is shown by one
state, and by no other. So states can be removed with all they show, and the other states do not
change.

## Main definitions

* `Step.Covers` — a step shows exactly what has been added to a store.
* `DerivationTree.IsOwned` — every object belongs to the only state that shows it.
* `DerivationTree.Removes` — some states have been removed with exactly what they showed.

## Main results

* `DerivationTree.IsOwned.addStep`, `DerivationTree.IsOwned.removeStates` — what belongs to a state
  stays with it.
* `DerivationTree.IsOwned.removes` — what is removed with some states, and what stays.
-/

namespace MinimalistGrammar
namespace DerivationTree

variable {t t' : DerivationTree} {id a : StateId} {l l' : Link} {g : GroupId} {ids : List StateId}

/-! ### Owners -/

/-- Every object belongs to the state that `owner` says, and every group to the state that `keeper`
says: the state shows it, and all that is linked to it belongs to the same state. -/
structure IsOwned (t : DerivationTree) (owner : Link → StateId) (keeper : GroupId → StateId) : Prop
    extends t.IsClosed where
  owner_links {l l' : Link} : l' ∈ t.store.linksOf l → owner l' = owner l
  group {g : GroupId} {group : Group} :
      t.store.group? g = some group → g.index < t.store.nextGroup ∧
    ∀ c ∈ group.members, t.store.Issued (.constituent c) ∧ owner (.constituent c) = keeper g
  owner_root {id : StateId} {x : SyntaxState} {c : ConstituentId} : t.state? id = some x →
    c ∈ x.roots →
    owner (.constituent c) = id
  kept {id : StateId} {x : SyntaxState} {g : GroupId} : t.state? id = some x → g ∈ x.groups.values →
    g.index < t.store.nextGroup ∧ keeper g = id
  shows {l : Link} : t.store.linked? l ≠ none → t.Shows (owner l) l
  showsGroup {g : GroupId} : t.store.group? g ≠ none → t.ShowsGroup (keeper g) g

theorem isOwned_empty (owner : Link → StateId) (keeper : GroupId → StateId) :
    IsOwned {} owner keeper := by
  have hgroup (g : GroupId) : Store.group? {} g = none := Std.TreeMap.getElem?_emptyc
  have hstate (id : StateId) : state? {} id = none := Std.TreeMap.getElem?_emptyc
  refine ⟨isClosed_empty, fun {l l'} hl' => ?_, fun h => ?_, fun h => ?_, fun h => ?_,
    fun h => absurd (Store.linked?_empty _) h, fun h => absurd (hgroup _) h⟩
  · rw [Store.linksOf, Store.linked?_empty] at hl'
    exact absurd hl' List.not_mem_nil
  · rw [hgroup] at h
    exact absurd h (by simp)
  all_goals
    rw [hstate] at h
    exact absurd h (by simp)

namespace IsOwned

variable {owner : Link → StateId} {keeper : GroupId → StateId} (h : t.IsOwned owner keeper)

include h

/-- A state shows only what belongs to it. -/
theorem owner_eq (hl : t.Shows id l) : owner l = id := by
  obtain ⟨x, hx, hl⟩ := hl
  induction hl with
  | start hmem _ =>
    obtain ⟨c, rfl, hc | ⟨g, hg, group, hgroup, hc⟩⟩ := Store.mem_entrances_iff.mp hmem
    · exact h.owner_root hx hc
    · rw [((h.group hgroup).2 c hc).2, (h.kept hx hg).2]
  | step _ hl' _ ih => rw [h.owner_links hl', ih]

theorem keeper_eq (hg : t.ShowsGroup id g) : keeper g = id := by
  obtain ⟨x, hx, hg, -⟩ := hg
  exact (h.kept hx hg).2

/-- Every object is shown by one state, and by no other. -/
theorem existsUnique_shows (hl : t.store.linked? l ≠ none) : ∃! id, t.Shows id l :=
  ⟨owner l, h.shows hl, fun _ hl' => (h.owner_eq hl').symm⟩

/-- Every group is shown by one state, and by no other. -/
theorem existsUnique_showsGroup (hg : t.store.group? g ≠ none) : ∃! id, t.ShowsGroup id g :=
  ⟨keeper g, h.showsGroup hg, fun _ hg' => (h.keeper_eq hg').symm⟩

theorem congr (hsame : t.SameStates t') : t'.IsOwned owner keeper := by
  have hclosed := h.toIsClosed.congr hsame
  obtain ⟨hstore, hstates, -⟩ := hsame
  have hstate (id : StateId) : t'.state? id = t.state? id := by rw [state?, hstates, state?]
  exact
    { toIsClosed := hclosed
      owner_links := by rw [hstore]; exact h.owner_links
      group := by rw [hstore]; exact h.group
      owner_root := fun {id x c} hx => h.owner_root (hstate id ▸ hx)
      kept := fun {id x g} hx => by rw [hstore]; exact h.kept (hstate id ▸ hx)
      shows := fun {l} hl => (h.shows (hstore ▸ hl)).congr (hstate _) (fun _ _ => by rw [hstore])
        fun _ _ => by rw [hstore]
      showsGroup := fun {g} hg => (h.showsGroup (hstore ▸ hg)).congr (hstate _) (by rw [hstore]) }

end IsOwned

/-! ### Adding a state -/

end DerivationTree

/-- A step shows exactly what has been added to a store since it was `s`. -/
structure Step.Covers (step : Step) (s s' : Store) : Prop where
  separate : s.Separate s'
  nextGroup : s.nextGroup ≤ s'.nextGroup
  oldGroup {g : GroupId} : g.index < s.nextGroup → s'.group? g = s.group? g
  root {c : ConstituentId} : c ∈ step.roots → s.Added s' (.constituent c)
  kept {g : GroupId} : g ∈ step.groups.values → s.nextGroup ≤ g.index ∧ g.index < s'.nextGroup
  newGroup {g : GroupId} {group : Group} : s.nextGroup ≤ g.index → s'.group? g = some group →
    g ∈ step.groups.values ∧ ∀ c ∈ group.members, s.Added s' (.constituent c)
  shown {l : Link} : s.Added s' l → s'.linked? l ≠ none → s'.Reaches (step.roots.map .constituent) l

namespace DerivationTree

variable {t t' : DerivationTree} {id a : StateId} {l l' : Link} {g : GroupId} {ids : List StateId}
  {owner : Link → StateId} {keeper : GroupId → StateId}

open Classical in
/-- What has been added since the store was `s` belongs to the state `id`. -/
noncomputable def ownerSince (s : Store) (owner : Link → StateId) (id : StateId)
    (l : Link) : StateId :=
  if s.Issued l then owner l else id

/-- The groups that have been added since the store was `s` belong to the state `id`. -/
def keeperSince (s : Store) (keeper : GroupId → StateId) (id : StateId) (g : GroupId) : StateId :=
  if g.index < s.nextGroup then keeper g else id

theorem ownerSince_of_issued {s : Store} (hl : s.Issued l) : ownerSince s owner id l = owner l :=
  if_pos hl

theorem ownerSince_of_not_issued {s : Store} (hl : ¬s.Issued l) : ownerSince s owner id l = id :=
  if_neg hl

theorem keeperSince_of_lt {s : Store} (hg : g.index < s.nextGroup) :
    keeperSince s keeper id g = keeper g :=
  if_pos hg

theorem keeperSince_of_le {s : Store} (hg : s.nextGroup ≤ g.index) :
    keeperSince s keeper id g = id :=
  if_neg (Nat.not_lt.mpr hg)

section addStep

variable {step : Step} {s' : Store} (h : t.IsOwned owner keeper) (hcovers : step.Covers t.store s')
  (parent : Option StateId)

include hcovers

/-- The new state shows all that was added for it. -/
theorem shows_addStep_of_added (hl : t.store.Added s' l) (hstored : s'.linked? l ≠ none) :
    ({ t with store := s' }.addStep step parent).1.Shows ⟨t.nextId⟩ l := by
  refine ⟨_, (state?_addStep ..).trans (if_pos rfl),
    (hcovers.shown hl hstored).mono fun l hmem => ?_⟩
  obtain ⟨c, hc, rfl⟩ := List.mem_map.mp hmem
  exact Store.mem_entrances_iff.mpr ⟨c, rfl, Or.inl hc⟩

include h

/-- The states that there were show what they showed. -/
theorem IsOwned.shows_addStep (hl : t.Shows id l) :
    ({ t with store := s' }.addStep step parent).1.Shows id l := by
  have ⟨x, hx, _⟩ := hl
  refine hl.congr (state?_addStep_of_ne (h.ne_nextId hx)) (fun l hl => ?_) fun g hg => ?_
  · exact hcovers.separate.old (h.store.issued hl.linked?_ne_none)
  · obtain ⟨x, hx, hg, -⟩ := hg
    exact hcovers.oldGroup (h.kept hx hg).1

theorem IsOwned.showsGroup_addStep (hg : t.ShowsGroup id g) :
    ({ t with store := s' }.addStep step parent).1.ShowsGroup id g := by
  have ⟨x, hx, hmem, _⟩ := hg
  exact hg.congr (state?_addStep_of_ne (h.ne_nextId hx)) (hcovers.oldGroup (h.kept hx hmem).1)

/-- What a step shows belongs to its state, and everything else belongs to the state to which it
belonged. -/
theorem IsOwned.addStep : ({ t with store := s' }.addStep step parent).1.IsOwned
    (ownerSince t.store owner ⟨t.nextId⟩) (keeperSince t.store keeper ⟨t.nextId⟩) := by
  have hissued {l : Link} (hl : t.store.Issued l) :
      s'.Issued l := hcovers.separate.issued_of_issued hl
  have hstate := state?_addStep { t with store := s' } step parent
  -- what is old belongs to whom it belonged, and what is new is what the step covers
  refine
    { toIsClosed := h.toIsClosed.addStep hcovers.separate (fun c hc => (hcovers.root hc).2) parent
      owner_links := ?links
      group := ?group
      owner_root := ?root
      kept := ?kept
      shows := ?shows
      showsGroup := ?showsGroup }
  case links =>
    intro l l' (hl' : l' ∈ s'.linksOf l)
    by_cases hl : t.store.Issued l
    · rw [Store.linksOf_congr (hcovers.separate.old hl)] at hl'
      rw [ownerSince_of_issued hl, ownerSince_of_issued (h.store.links hl'), h.owner_links hl']
    · obtain ⟨hnot, -⟩ := hcovers.separate.links hl hl'
      rw [ownerSince_of_not_issued hl, ownerSince_of_not_issued hnot]
  case group =>
    intro g group hgroup
    by_cases hg : g.index < t.store.nextGroup
    · obtain ⟨-, hmembers⟩ := h.group ((hcovers.oldGroup hg).symm.trans hgroup)
      refine ⟨Nat.lt_of_lt_of_le hg hcovers.nextGroup, fun c hc => ?_⟩
      obtain ⟨hissued', heq⟩ := hmembers c hc
      exact ⟨hissued hissued', by rw [ownerSince_of_issued hissued', keeperSince_of_lt hg, heq]⟩
    · have hle := Nat.not_lt.mp hg
      obtain ⟨hmem, hmembers⟩ := hcovers.newGroup hle hgroup
      refine ⟨(hcovers.kept hmem).2, fun c hc => ?_⟩
      obtain ⟨hnot, hissued'⟩ := hmembers c hc
      exact ⟨hissued', by rw [ownerSince_of_not_issued hnot, keeperSince_of_le hle]⟩
  case root =>
    intro id x c hx hc
    rw [hstate] at hx
    split at hx
    · next hid =>
      obtain rfl := Option.some.inj hx
      rw [ownerSince_of_not_issued (hcovers.root hc).1, hid]
    · rw [ownerSince_of_issued (h.root hx hc), h.owner_root hx hc]
  case kept =>
    intro id x g hx hg
    rw [hstate] at hx
    split at hx
    · next hid =>
      obtain rfl := Option.some.inj hx
      obtain ⟨hle, hlt⟩ := hcovers.kept hg
      exact ⟨hlt, by rw [keeperSince_of_le hle, hid]⟩
    · obtain ⟨hlt, heq⟩ := h.kept hx hg
      exact ⟨Nat.lt_of_lt_of_le hlt hcovers.nextGroup, by rw [keeperSince_of_lt hlt, heq]⟩
  case shows =>
    intro l hl
    by_cases hissued' : t.store.Issued l
    · have hold : t.store.linked? l ≠ none := (hcovers.separate.old hissued').symm ▸ hl
      rw [ownerSince_of_issued hissued']
      exact h.shows_addStep hcovers parent (h.shows hold)
    · rw [ownerSince_of_not_issued hissued']
      exact shows_addStep_of_added hcovers parent ⟨hissued', hcovers.separate.issued hl⟩ hl
  case showsGroup =>
    intro g hg
    by_cases hlt : g.index < t.store.nextGroup
    · have hold : t.store.group? g ≠ none := (hcovers.oldGroup hlt).symm ▸ hg
      rw [keeperSince_of_lt hlt]
      exact h.showsGroup_addStep hcovers parent (h.showsGroup hold)
    · have hle := Nat.not_lt.mp hlt
      obtain ⟨group, hgroup⟩ := Option.ne_none_iff_exists'.mp hg
      rw [keeperSince_of_le hle]
      exact ⟨_, (hstate _).trans (if_pos rfl), (hcovers.newGroup hle hgroup).1, hg⟩

end addStep

/-! ### Removing states -/

theorem showsGroup_withoutStates_iff {gone : IdentSet .state} :
    (t.withoutStates gone).ShowsGroup id g ↔ gone.contains id = false ∧ t.ShowsGroup id g := by
  unfold ShowsGroup
  rw [state?_withoutStates]
  cases hid : gone.contains id with
  | true => simp
  | false => simp [withoutStates]

/-- What stays if it was there and is not gone is there unless it is gone. -/
theorem ite_eq_ite_of_iff {α : Type} {o : Option α} {stays : Prop} [Decidable stays] {gone : Bool}
    (h : stays ↔ gone = false ∧ o ≠ none) :
    (if stays then o else none) = if gone then none else o := by
  cases hgone : gone with
  | true => rw [if_neg (by simp [h, hgone]), if_pos rfl]
  | false =>
    rw [if_neg Bool.false_ne_true]
    split
    · rfl
    · next hnot =>
      rw [h, not_and_not_right] at hnot
      exact (hnot hgone).symm

namespace IsOwned

variable (h : t.IsOwned owner keeper) (ids)

include h

/-- With some states goes exactly what belongs to them. -/
theorem linked?_removeStates (l : Link) : (t.removeStates ids).1.store.linked? l =
    if (t.doomed ids).contains (owner l) then none else t.store.linked? l := by
  by_cases hempty : (t.doomed ids).isEmpty = true
  · rw [Std.TreeSet.contains_of_isEmpty hempty, DerivationTree.removeStates, if_pos hempty]
    rfl
  · rw [store_removeStates (Bool.eq_false_iff.mpr hempty)]
    have hshown : (t.withoutStates (t.doomed ids)).shown.has l = true ↔
        (t.doomed ids).contains (owner l) = false ∧ t.store.linked? l ≠ none := by
      rw [has_shown_iff, reaches_entrances_iff]
      constructor
      · rintro ⟨id, hid⟩
        obtain ⟨hstays, hshows⟩ := shows_withoutStates_iff.mp hid
        rw [h.owner_eq hshows]
        exact ⟨hstays, hshows.linked?_ne_none⟩
      · rintro ⟨hstays, hstored⟩
        exact ⟨owner l, shows_withoutStates_iff.mpr ⟨hstays, h.shows hstored⟩⟩
    rw [Store.linked?_retain]
    exact ite_eq_ite_of_iff hshown

/-- With some states go exactly the groups that belong to them. -/
theorem group?_removeStates (g : GroupId) : (t.removeStates ids).1.store.group? g =
    if (t.doomed ids).contains (keeper g) then none else t.store.group? g := by
  by_cases hempty : (t.doomed ids).isEmpty = true
  · rw [Std.TreeSet.contains_of_isEmpty hempty, DerivationTree.removeStates, if_pos hempty]
    rfl
  · rw [store_removeStates (Bool.eq_false_iff.mpr hempty)]
    have hshown : (t.withoutStates (t.doomed ids)).shown.groups.contains g = true ↔
        (t.doomed ids).contains (keeper g) = false ∧ t.store.group? g ≠ none := by
      rw [contains_groups_shown_iff]
      constructor
      · rintro ⟨id, x, group, hx, hg, hgroup⟩
        obtain ⟨hstays, hshows⟩ := showsGroup_withoutStates_iff.mp
          (⟨x, hx, hg, Option.ne_none_iff_exists'.mpr ⟨group, hgroup⟩⟩ :
            (t.withoutStates (t.doomed ids)).ShowsGroup id g)
        rw [h.keeper_eq hshows]
        exact ⟨hstays, Option.ne_none_iff_exists'.mpr ⟨group, hgroup⟩⟩
      · rintro ⟨hstays, hstored⟩
        obtain ⟨x, hx, hg, hstored⟩ :=
          showsGroup_withoutStates_iff.mpr ⟨hstays, h.showsGroup hstored⟩
        obtain ⟨group, hgroup⟩ := Option.ne_none_iff_exists'.mp hstored
        exact ⟨keeper g, x, group, hx, hg, hgroup⟩
    rw [Store.group?_retain]
    exact ite_eq_ite_of_iff hshown

/-- What a state shows stays as long as the state stays. -/
theorem shows_removeStates (hstays : (t.doomed ids).contains id = false) (hl : t.Shows id l) :
    (t.removeStates ids).1.Shows id l := by
  refine hl.congr ?_ (fun l hl => ?_) fun g hg => ?_
  · rw [state?_removeStates, hstays]
    rfl
  · rw [h.linked?_removeStates ids, h.owner_eq hl, hstays]
    rfl
  · rw [h.group?_removeStates ids, h.keeper_eq hg, hstays]
    rfl

/-- What is left belongs to the states to which it belonged. -/
theorem removeStates : (t.removeStates ids).1.IsOwned owner keeper := by
  obtain ⟨-, -, hgroup, -⟩ := next_removeStates t ids
  -- what is still there belongs to a state that is not removed
  have hlinked {l : Link} (hl : (t.removeStates ids).1.store.linked? l ≠ none) :
      (t.doomed ids).contains (owner l) = false := by
    rw [h.linked?_removeStates ids] at hl
    cases hgone : (t.doomed ids).contains (owner l) with
    | true => exact absurd (by rw [hgone]; rfl) hl
    | false => rfl
  have hgroups {g : GroupId} (hg : (t.removeStates ids).1.store.group? g ≠ none) :
      (t.doomed ids).contains (keeper g) = false ∧
        (t.removeStates ids).1.store.group? g = t.store.group? g := by
    rw [h.group?_removeStates ids] at hg ⊢
    cases hgone : (t.doomed ids).contains (keeper g) with
    | true => exact absurd (by rw [hgone]; rfl) hg
    | false => exact ⟨rfl, rfl⟩
  refine
    { toIsClosed := h.toIsClosed.removeStates ids
      owner_links := fun {l l'} hl' => h.owner_links (mem_linksOf_of_removeStates hl')
      group := fun {g group} hg => ?_
      owner_root := fun hx hc => h.owner_root (of_state?_removeStates hx) hc
      kept := fun hx hg => hgroup ▸ h.kept (of_state?_removeStates hx) hg
      shows := fun {l} hl => ?_
      showsGroup := fun {g} hg => ?_ }
  · rw [(hgroups (by rw [hg]; simp)).2] at hg
    obtain ⟨hlt, hmembers⟩ := h.group hg
    exact ⟨hgroup ▸ hlt,
      fun c hc => ⟨issued_removeStates_iff.mpr (hmembers c hc).1, (hmembers c hc).2⟩⟩
  · exact h.shows_removeStates ids (hlinked hl) (h.shows (linked?_removeStates_eq hl ▸ hl))
  · obtain ⟨hstays, heq⟩ := hgroups hg
    refine (h.showsGroup (heq ▸ hg)).congr ?_ heq
    rw [state?_removeStates, hstays]
    rfl

end IsOwned

/-- Some states have been removed with exactly what they showed, and the others are as they were. -/
structure Removes (t t' : DerivationTree) (gone : List StateId) : Prop where
  state? (id : StateId) : t'.state? id = if id ∈ gone then none else t.state? id
  goes {id : StateId} {l : Link} : id ∈ gone → t.Shows id l → t'.store.linked? l = none
  stays {l : Link} : (∀ id ∈ gone, ¬t.Shows id l) → t'.store.linked? l = t.store.linked? l
  goesGroup {id : StateId} {g : GroupId} : id ∈ gone → t.ShowsGroup id g → t'.store.group? g = none
  staysGroup {g : GroupId} :
      (∀ id ∈ gone, ¬t.ShowsGroup id g) → t'.store.group? g = t.store.group? g
  shows {id : StateId} {l : Link} : id ∉ gone → (t'.Shows id l ↔ t.Shows id l)
  looks {id : StateId} {x : SyntaxState} {c : ConstituentId} : t'.state? id = some x → c ∈ x.roots →
    t'.store.linearize c = t.store.linearize c ∧ t'.store.display c = t.store.display c

/-- Removing states removes exactly what they show. -/
theorem IsOwned.removes (h : t.IsOwned owner keeper) (ids : List StateId) :
    t.Removes (t.removeStates ids).1 (t.removeStates ids).2 where
  state? id := by
    rw [state?_removeStates]
    simp only [mem_removeStates_iff]
  goes hid hl := by
    rw [h.linked?_removeStates ids, h.owner_eq hl, if_pos (mem_removeStates_iff.mp hid)]
  stays {l} hnot := by
    rw [h.linked?_removeStates ids]
    split
    · next hgone =>
      by_contra hstored
      exact hnot _ (mem_removeStates_iff.mpr hgone) (h.shows (Ne.symm hstored))
    · rfl
  goesGroup hid hg := by
    rw [h.group?_removeStates ids, h.keeper_eq hg, if_pos (mem_removeStates_iff.mp hid)]
  staysGroup {g} hnot := by
    rw [h.group?_removeStates ids]
    split
    · next hgone =>
      by_contra hstored
      exact hnot _ (mem_removeStates_iff.mpr hgone) (h.showsGroup (Ne.symm hstored))
    · rfl
  shows {id l} hid := by
    rw [mem_removeStates_iff, Bool.not_eq_true] at hid
    refine ⟨fun hl => ?_, h.shows_removeStates ids hid⟩
    have hstored := hl.linked?_ne_none
    -- what is shown afterwards has the owner that it had before
    have howner := (h.removeStates ids).owner_eq hl
    rw [h.linked?_removeStates ids, howner, hid] at hstored
    exact howner ▸ h.shows hstored
  looks hx hc := looks_removeStates hx hc

end DerivationTree
end MinimalistGrammar
