import MinimalistGrammar.Archive.Tree
import MinimalistGrammar.Proofs.Tree.Reachable

/-!
# What the states of a derivation tree show

The states show what can be reached from their roots and from the members of their groups.

## Main definitions

* `DerivationTree.entrances` — the links from which one gets to all that the states show.
* `DerivationTree.Shows`, `DerivationTree.ShowsGroup` — what one state shows.

## Main results

* `DerivationTree.has_shown_iff`, `DerivationTree.contains_groups_shown_iff` — what the states show.
* `DerivationTree.reaches_entrances_iff` — what the states show is what one of them shows.
-/

namespace MinimalistGrammar
namespace DerivationTree

variable {t t' : DerivationTree} {id : StateId} {l : Link} {g : GroupId}

/-- The links from which one gets to all that the states show. -/
def entrances (t : DerivationTree) : List Link :=
  t.store.entrances (t.states.values.flatMap (·.roots)) (t.states.values.flatMap (·.groups.values))

theorem mem_values_states_iff {x : SyntaxState} :
    x ∈ t.states.values ↔ ∃ id, t.state? id = some x :=
  IdentMap.mem_values_iff ..

theorem mem_entrances_iff : l ∈ t.entrances ↔ ∃ id x c, t.state? id = some x ∧ l = .constituent c ∧
    (c ∈ x.roots ∨ ∃ g ∈ x.groups.values, ∃ group,
      t.store.group? g = some group ∧ c ∈ group.members) := by
  unfold entrances
  simp only [Store.mem_entrances_iff, List.mem_flatMap, mem_values_states_iff]
  constructor
  · rintro ⟨c, rfl, ⟨x, ⟨id, hx⟩, hc⟩ | ⟨g, ⟨x, ⟨id, hx⟩, hg⟩, group, hgroup, hc⟩⟩
    · exact ⟨id, x, c, hx, rfl, Or.inl hc⟩
    · exact ⟨id, x, c, hx, rfl, Or.inr ⟨g, hg, group, hgroup, hc⟩⟩
  · rintro ⟨id, x, c, hx, rfl, hc | ⟨g, hg, group, hgroup, hc⟩⟩
    · exact ⟨c, rfl, Or.inl ⟨x, ⟨id, hx⟩, hc⟩⟩
    · exact ⟨c, rfl, Or.inr ⟨g, ⟨x, ⟨id, hx⟩, hg⟩, group, hgroup, hc⟩⟩

theorem has_shown_iff :
    t.shown.has l = true ↔ t.store.Reaches t.entrances l := Store.has_reachable_iff

theorem contains_groups_shown_iff : t.shown.groups.contains g = true ↔
    ∃ id x group, t.state? id = some x ∧ g ∈ x.groups.values ∧ t.store.group? g = some group := by
  unfold shown
  simp only [Store.contains_groups_reachable_iff, List.mem_flatMap, mem_values_states_iff]
  constructor
  · rintro ⟨⟨x, ⟨id, hx⟩, hg⟩, group, hgroup⟩
    exact ⟨id, x, group, hx, hg, hgroup⟩
  · rintro ⟨id, x, group, hx, hg, hgroup⟩
    exact ⟨⟨x, ⟨id, hx⟩, hg⟩, group, hgroup⟩

/-! ### What one state shows -/

/-- A state shows what can be reached from its roots and from the members of its groups. -/
def Shows (t : DerivationTree) (id : StateId) (l : Link) : Prop :=
  ∃ x, t.state? id = some x ∧ t.store.Reaches (t.store.entrances x.roots x.groups.values) l

/-- A state shows its groups. -/
def ShowsGroup (t : DerivationTree) (id : StateId) (g : GroupId) : Prop :=
  ∃ x, t.state? id = some x ∧ g ∈ x.groups.values ∧ t.store.group? g ≠ none

theorem Shows.linked?_ne_none (h : t.Shows id l) : t.store.linked? l ≠ none := by
  obtain ⟨x, -, hl⟩ := h
  exact hl.linked?_ne_none

/-- What the states show is what one of them shows. -/
theorem reaches_entrances_iff : t.store.Reaches t.entrances l ↔ ∃ id, t.Shows id l := by
  constructor
  · intro h
    induction h with
    | start hl h =>
      obtain ⟨id, x, c, hx, rfl, hc⟩ := mem_entrances_iff.mp hl
      exact ⟨id, x, hx, .start (Store.mem_entrances_iff.mpr ⟨c, rfl, hc⟩) h⟩
    | step _ hl' h ih =>
      obtain ⟨id, x, hx, hl⟩ := ih
      exact ⟨id, x, hx, hl.step hl' h⟩
  · rintro ⟨id, x, hx, hl⟩
    refine hl.mono fun l' hl' => ?_
    obtain ⟨c, rfl, hc⟩ := Store.mem_entrances_iff.mp hl'
    exact mem_entrances_iff.mpr ⟨id, x, c, hx, rfl, hc⟩

/-- A state shows the same in another tree if all that it shows is as it was. -/
theorem Shows.congr (h : t.Shows id l) (hstate : t'.state? id = t.state? id)
    (hlinked : ∀ l, t.Shows id l → t'.store.linked? l = t.store.linked? l)
    (hgroup : ∀ g, t.ShowsGroup id g → t'.store.group? g = t.store.group? g) : t'.Shows id l := by
  obtain ⟨x, hx, hl⟩ := h
  refine ⟨x, hstate.trans hx, (hl.congr fun l hl => hlinked l ⟨x, hx, hl⟩).mono fun l hmem => ?_⟩
  obtain ⟨c, rfl, hc | ⟨g, hg, group, hgroup', hc⟩⟩ := Store.mem_entrances_iff.mp hmem
  · exact Store.mem_entrances_iff.mpr ⟨c, rfl, Or.inl hc⟩
  · refine Store.mem_entrances_iff.mpr ⟨c, rfl, Or.inr ⟨g, hg, group, ?_, hc⟩⟩
    rw [hgroup g ⟨x, hx, hg, by rw [hgroup']; simp⟩, hgroup']

theorem ShowsGroup.congr (h : t.ShowsGroup id g) (hstate : t'.state? id = t.state? id)
    (hgroup : t'.store.group? g = t.store.group? g) : t'.ShowsGroup id g := by
  obtain ⟨x, hx, hg, hstored⟩ := h
  exact ⟨x, hstate.trans hx, hg, hgroup ▸ hstored⟩

end DerivationTree
end MinimalistGrammar
