import MinimalistGrammar.Proofs.Derivation.Copies
import MinimalistGrammar.Proofs.Derivation.Ownership
import MinimalistGrammar.Proofs.Tree.Landing

/-!
# States that are kept

Whatever is added to a derivation tree and whatever is removed from it, a state that stays keeps its
fields, all nodes, features and groups that it shows, and the words and the texts of its trees. This
does not ask for a tree in which every object is shown by one state only: what is removed is what no
state that stays shows.

## Main definitions

* `DerivationTree.IsWellFormed` — all parts of a tree agree, and everything in it has a number.
* `DerivationTree.KeepsState` — a state is what it was, with all that it shows.

## Main results

* `DerivationTree.IsWellFormed.keepsState_addStep`, `DerivationTree.keepsState_removeStates` — what
  is added and removed does not touch the states that stay.
-/

namespace MinimalistGrammar
namespace DerivationTree

/-- All parts of a tree agree, and its states, all that they show and all groups have numbers that
were given out. -/
structure IsWellFormed (t : DerivationTree) : Prop extends t.IsConsistent, t.IsClosed where
  group {g : GroupId} {group : Group} : t.store.group? g = some group → g.index < t.store.nextGroup

/-- A new tree is well-formed. -/
theorem isWellFormed_empty : IsWellFormed {} where
  toIsConsistent := isConsistent_empty
  toIsClosed := isClosed_empty
  group {g group} hgroup := by
    have hnone : Store.group? {} g = none := Std.TreeMap.getElem?_emptyc
    exact absurd (hnone.symm.trans hgroup) (by simp)

/-- A state is in another tree what it is in this one: its fields, the objects and the groups that
it shows, and the words and the texts of its trees are the same. -/
structure KeepsState (t t' : DerivationTree) (id : StateId) : Prop where
  state? : t'.state? id = t.state? id
  linked? {l : Link} : t.Shows id l → t'.store.linked? l = t.store.linked? l
  group? {g : GroupId} : t.ShowsGroup id g → t'.store.group? g = t.store.group? g
  looks {x : SyntaxState} {c : ConstituentId} : t.state? id = some x → c ∈ x.roots →
    t'.store.linearize c = t.store.linearize c ∧ t'.store.display c = t.store.display c

variable {t u v : DerivationTree} {id : StateId} {l : Link} {g : GroupId} {ids : List StateId}

theorem KeepsState.refl (t : DerivationTree) (id : StateId) : t.KeepsState t id :=
  ⟨rfl, fun _ => rfl, fun _ => rfl, fun _ _ => ⟨rfl, rfl⟩⟩

/-- What is kept shows what it showed. -/
theorem KeepsState.shows (h : t.KeepsState u id) (hl : t.Shows id l) : u.Shows id l :=
  hl.congr h.state? (fun _ => h.linked?) fun _ => h.group?

theorem KeepsState.showsGroup (h : t.KeepsState u id) (hg : t.ShowsGroup id g) :
    u.ShowsGroup id g :=
  hg.congr h.state? (h.group? hg)

theorem KeepsState.trans (h : t.KeepsState u id) (h' : u.KeepsState v id) : t.KeepsState v id where
  state? := h'.state?.trans h.state?
  linked? hl := (h'.linked? (h.shows hl)).trans (h.linked? hl)
  group? hg := (h'.group? (h.showsGroup hg)).trans (h.group? hg)
  looks {x c} hx hc := by
    obtain ⟨hwords, htext⟩ := h.looks hx hc
    obtain ⟨hwords', htext'⟩ := h'.looks (h.state?.trans hx) hc
    exact ⟨hwords'.trans hwords, htext'.trans htext⟩

/-! ### Adding a state -/

section addStep

variable {step : Step} {s : Store} (h : t.IsWellFormed) (hcovers : step.Covers t.store s)
  (parent : Option StateId)

include h hcovers

theorem IsWellFormed.addStep : ({ t with store := s }.addStep step parent).1.IsWellFormed where
  toIsConsistent := (h.toIsConsistent.withStore s).addStep step parent
  toIsClosed := h.toIsClosed.addStep hcovers.separate (fun _ hc => (hcovers.root hc).2) parent
  group {g group} hgroup := by
    by_cases hg : g.index < t.store.nextGroup
    · exact Nat.lt_of_lt_of_le hg hcovers.nextGroup
    · exact (hcovers.kept (hcovers.newGroup (Nat.not_lt.mp hg) hgroup).1).2

/-- What is added does not touch the states that there were. -/
theorem IsWellFormed.keepsState_addStep (hid : t.contains id = true) :
    t.KeepsState ({ t with store := s }.addStep step parent).1 id where
  state? := by
    obtain ⟨x, hx⟩ := contains_iff.mp hid
    exact state?_addStep_of_ne (h.ne_nextId hx)
  linked? hl := hcovers.separate.old (h.store.issued hl.linked?_ne_none)
  group? hg := by
    obtain ⟨-, -, -, hstored⟩ := hg
    obtain ⟨group, hgroup⟩ := Option.ne_none_iff_exists'.mp hstored
    exact hcovers.oldGroup (h.group hgroup)
  looks {x c} hx hc := by
    have hface (node : ConstituentId) (hnode : t.store.Hangs c (.constituent node)) :
        s.face? node = t.store.face? node :=
      (hcovers.separate.lands h.store).face? (h.store.issued_of_hangs (h.root hx hc) hnode)
    exact ⟨Store.linearize_congr hface, Store.display_congr hface⟩

end addStep

/-! ### Removing states -/

theorem contains_removeStates (t : DerivationTree) (ids : List StateId) (id : StateId) :
    (t.removeStates ids).1.contains id = true ↔
      t.contains id = true ∧ (t.doomed ids).contains id = false := by
  rw [contains_iff, contains_iff, state?_removeStates]
  cases (t.doomed ids).contains id <;> simp

/-- What is removed does not touch the states that stay. -/
theorem keepsState_removeStates (hid : (t.removeStates ids).1.contains id = true) :
    t.KeepsState (t.removeStates ids).1 id := by
  obtain ⟨-, hstays⟩ := (contains_removeStates t ids id).mp hid
  have hstate : (t.removeStates ids).1.state? id = t.state? id := by
    rw [state?_removeStates, hstays]
    rfl
  by_cases hempty : (t.doomed ids).isEmpty = true
  · rw [DerivationTree.removeStates, if_pos hempty]
    exact .refl t id
  have hstore := store_removeStates (Bool.eq_false_iff.mpr hempty)
  refine ⟨hstate, ?_, ?_, fun hx => looks_removeStates (hstate.trans hx)⟩
  · intro l hl
    have hkept : (t.withoutStates (t.doomed ids)).shown.has l = true :=
      has_shown_iff.mpr (reaches_entrances_iff.mpr ⟨id, shows_withoutStates_iff.mpr ⟨hstays, hl⟩⟩)
    rw [hstore, Store.linked?_retain, if_pos hkept]
  · intro g hg
    obtain ⟨x, hx, hmem, hstored⟩ := showsGroup_withoutStates_iff.mpr ⟨hstays, hg⟩
    obtain ⟨group, hgroup⟩ := Option.ne_none_iff_exists'.mp hstored
    have hkept : (t.withoutStates (t.doomed ids)).shown.groups.contains g = true :=
      contains_groups_shown_iff.mpr ⟨id, x, group, hx, hmem, hgroup⟩
    rw [hstore, Store.group?_retain, if_pos hkept]

theorem IsWellFormed.removeStates (h : t.IsWellFormed) (ids : List StateId) :
    (t.removeStates ids).1.IsWellFormed where
  toIsConsistent := h.toIsConsistent.removeStates ids
  toIsClosed := h.toIsClosed.removeStates ids
  group {g group} hgroup := by
    obtain ⟨-, -, hnext, -⟩ := next_removeStates t ids
    rw [hnext]
    by_cases hempty : (t.doomed ids).isEmpty = true
    · rw [DerivationTree.removeStates, if_pos hempty] at hgroup
      exact h.group hgroup
    · rw [store_removeStates (Bool.eq_false_iff.mpr hempty), Store.group?_retain] at hgroup
      split at hgroup
      · exact h.group hgroup
      · exact absurd hgroup (by simp)

/-- What stays comes from what it came from. -/
theorem IsOrdered.comesFrom_removeStates_iff (h : t.IsOrdered) {a : StateId}
    (hid : (t.doomed ids).contains id = false) :
    (t.removeStates ids).1.ComesFrom id a ↔ t.ComesFrom id a := by
  constructor
  · exact fun hcomes => hcomes.of_parent?_eq fun b p _ hp => parent?_of_parent?_removeStates hp
  · intro hcomes
    apply hcomes.of_parent?_eq
    intro b p hb hp
    have hstays : (t.doomed ids).contains b = false :=
      Bool.eq_false_iff.mpr fun hgone => absurd (h.contains_doomed_of_comesFrom hb hgone)
        (by simp [hid])
    rw [parent?, state?_removeStates, hstays]
    exact hp

/-- The branch to a state that stays is what it was. -/
theorem IsConsistent.mem_branch_removeStates_iff (h : t.IsConsistent) {a : StateId}
    (hid : (t.doomed ids).contains id = false) :
    a ∈ (t.removeStates ids).1.branch id ↔ a ∈ t.branch id := by
  rw [(h.removeStates ids).mem_branch_iff, h.mem_branch_iff, contains_removeStates,
    h.comesFrom_removeStates_iff hid, and_iff_left hid]

end DerivationTree
end MinimalistGrammar
