import MinimalistGrammar.Proofs.Archive.Logging

/-!
# What is saved

A snapshot is made of records, and goes from one to the next by the references in them; what a tree
shows is found by the links between its objects. Both find the same: the references in the record of
an object are its links, and neither leads to an object that is not there, or else nothing is saved.

## Main results

* `DerivationTree.IsLive.of_mem_keys` — what a live object is linked to is live.
* `DerivationTree.leads_iff_mem_liveKeys` — references lead from the tree to what is live.
* `DerivationTree.saved_iff` — **what is saved of a graph, and of a tree**.
-/

namespace MinimalistGrammar
namespace DerivationTree

variable {t : DerivationTree} {s : Snapshot} {key : String} {object : Object} {k k' : ObjectKey}
  {l : Link}

/-! ### What is live -/

/-- The object to which a link leads is live if the link leads from what the states show to it. -/
theorem isLive_of_key_eq (hl : l.key = k.text) (hobject : t.objectOf? k = some object)
    (hreaches : t.store.linked? l ≠ none → t.store.Reaches t.entrances l) : t.IsLive k := by
  cases l with
  | constituent id =>
    obtain rfl : .object id = k := ObjectKey.eq_of_text_eq (.object id) k hl
    obtain ⟨c, hc, -⟩ := Option.map_eq_some_iff.mp hobject
    exact has_shown_iff.mpr (hreaches (by simp [Store.linked?, hc]))
  | feature id =>
    obtain rfl : .object id = k := ObjectKey.eq_of_text_eq (.object id) k hl
    obtain ⟨f, hf, -⟩ := Option.map_eq_some_iff.mp hobject
    exact has_shown_iff.mpr (hreaches (by simp [Store.linked?, hf]))

/-- What a live object is linked to is live, if it is there. -/
theorem IsLive.of_mem_keys {object' : Object} (h : t.IsLive k)
    (hobject : t.objectOf? k = some object) (hkey : k'.text ∈ object.keys)
    (hobject' : t.objectOf? k' = some object') : t.IsLive k' := by
  have hstate {id : StateId} (hid : id.key = k'.text) : t.IsLive k' := by
    obtain rfl : .object id = k' := ObjectKey.eq_of_text_eq (.object id) k' hid
    obtain ⟨x, hx, -⟩ := Option.map_eq_some_iff.mp hobject'
    exact contains_iff.mpr ⟨x, hx⟩
  -- states are live if they are there, and all else if a state leads to it
  cases k with
  | tree =>
    obtain rfl := Option.some.inj hobject
    rcases List.mem_append.mp hkey with hkey | hkey <;> obtain ⟨id, -, hid⟩ :=
      List.mem_map.mp hkey <;>
      exact hstate hid
  | @object kind id =>
    cases kind with
    | state =>
      obtain ⟨x, hx, rfl⟩ := Option.map_eq_some_iff.mp hobject
      rcases List.mem_append.mp hkey with hkey | hkey
      · obtain ⟨root, hroot, htext⟩ := List.mem_map.mp hkey
        refine isLive_of_key_eq (l := .constituent root) htext hobject' fun hlinked =>
          .start ?_ hlinked
        exact mem_entrances_iff.mpr ⟨id, x, root, hx, rfl, .inl hroot⟩
      · obtain ⟨g, hg, htext⟩ := List.mem_map.mp hkey
        obtain rfl : .object g = k' := ObjectKey.eq_of_text_eq (.object g) k' htext
        obtain ⟨group, hgroup, -⟩ := Option.map_eq_some_iff.mp hobject'
        exact contains_groups_shown_iff.mpr ⟨id, x, group, hx, hg, hgroup⟩
    | constituent =>
      obtain ⟨c, hc, rfl⟩ := Option.map_eq_some_iff.mp hobject
      obtain ⟨l, hl, htext⟩ := List.mem_map.mp hkey
      refine isLive_of_key_eq htext hobject' (.step (has_shown_iff.mp h) ?_)
      rwa [Store.linksOf_constituent hc]
    | feature =>
      obtain ⟨f, hf, rfl⟩ := Option.map_eq_some_iff.mp hobject
      obtain ⟨l, hl, htext⟩ := List.mem_map.mp hkey
      refine isLive_of_key_eq htext hobject' (.step (has_shown_iff.mp h) ?_)
      rwa [Store.linksOf_feature hf]
    | group =>
      obtain ⟨group, hgroup, rfl⟩ := Option.map_eq_some_iff.mp hobject
      obtain ⟨sid, x, -, hx, hg, -⟩ := contains_groups_shown_iff.mp h
      obtain ⟨c, hc, htext⟩ := List.mem_map.mp hkey
      refine isLive_of_key_eq (l := .constituent c) htext hobject' fun hlinked => .start ?_ hlinked
      exact mem_entrances_iff.mpr ⟨sid, x, c, hx, rfl, .inr ⟨id, hg, group, hgroup, hc⟩⟩

/-! ### What references lead to -/

/-- References lead from one live object to another, if no object is missing. -/
theorem exists_isLive_of_leads (hs : t.save = .ok s)
    (h : (t.source treeClass).Leads treeClass key) :
    ∃ k : ObjectKey, k.text = key ∧ t.IsLive k := by
  have hrecord := Source.exists_save_iff.mp ⟨s, hs⟩
  induction h with
  | refl => exact ⟨.tree, rfl, trivial⟩
  | step hlead hr href ih =>
    obtain ⟨k, rfl, hk⟩ := ih
    obtain ⟨k', object, htext, -, hobject, hrecord'⟩ := exists_object_of_record hr
    obtain rfl := ObjectKey.eq_of_text_eq k' k htext
    -- what is referred to is there, as its record was found
    obtain ⟨r', hr'⟩ := hrecord _ (hlead.step hr href)
    obtain ⟨k'', object', htext', -, hobject', -⟩ := exists_object_of_record hr'
    refine ⟨k'', htext', hk.of_mem_keys hobject ?_ hobject'⟩
    rw [htext']
    exact (Object.exists_mem_references_iff hrecord').mp ⟨_, href, rfl⟩

/-- References lead from the tree to what is live. -/
theorem leads_iff_mem_liveKeys (hs : t.save = .ok s) :
    (t.source treeClass).Leads treeClass key ↔ key ∈ t.liveKeys := by
  refine ⟨fun h => mem_liveKeys_iff.mpr (exists_isLive_of_leads hs h), fun hkey => ?_⟩
  obtain ⟨r, hr⟩ := Dict.contains_iff.mp (contains_of_mem_liveKeys hs hkey)
  exact ((Source.get?_records_eq_some_iff hs).mp hr).1

theorem contains_records_iff (hs : t.save = .ok s) :
    s.records.contains key = true ↔ (t.source treeClass).Leads treeClass key := by
  rw [Dict.contains_iff]
  constructor
  · rintro ⟨r, hr⟩
    exact ((Source.get?_records_eq_some_iff hs).mp hr).1
  · intro hlead
    obtain ⟨r, hr⟩ := Source.exists_save_iff.mp ⟨s, hs⟩ key hlead
    exact ⟨r, (Source.get?_records_eq_some_iff hs).mpr ⟨hlead, hr⟩⟩

/-- **What is saved of a graph, and of a tree.** A graph is saved if all that references lead to
from the root has a record, and then just these records are saved. Of a tree these are the records
of the tree, of its states, and of all that a search from their roots and groups finds, which is
what is in use. -/
theorem saved_iff :
    (∀ (source : Source SaveError) (root : String),
      ((∃ s, source.save root = .ok s) ↔
        ∀ key, source.Leads root key → ∃ r, source.record key = .ok (some r)) ∧
      ∀ s, source.save root = .ok s → s.root = root ∧ ∀ key r,
        s.records.get? key = some r ↔ source.Leads root key ∧ source.record key = .ok (some r)) ∧
    ∀ (t : DerivationTree) (s : Snapshot), t.save = .ok s → ∀ key,
      let found := t.store.reachable (t.states.values.flatMap (·.roots))
        (t.states.values.flatMap (·.groups.values))
      s.records.contains key = (Target.existing t treeClass).contains key ∧
      (s.records.contains key = true ↔
        key = treeClass ∨ (∃ id, t.contains id = true ∧ key = id.key) ∨
        (∃ l, found.has l = true ∧ key = l.key) ∨ ∃ g, found.groups.contains g = true ∧
          key = g.key) := by
  refine ⟨fun source root => ⟨Source.exists_save_iff, fun s hs => ⟨?_, fun key r => ?_⟩⟩,
    fun t s hs key => ?_⟩
  · exact (Source.get?_records_of_save hs).1
  · exact Source.get?_records_eq_some_iff hs
  · intro found
    have hlive : s.records.contains key = true ↔ key ∈ t.liveKeys :=
      (contains_records_iff hs).trans (leads_iff_mem_liveKeys hs)
    refine ⟨?_, (hlive.trans mem_liveKeys_iff).trans ⟨?_, ?_⟩⟩
    · rw [Bool.eq_iff_iff, hlive, contains_existing_iff]
    · rintro ⟨k, rfl, hk⟩
      cases k with
      | tree => exact .inl rfl
      | @object kind id =>
        cases kind with
        | state => exact .inr (.inl ⟨id, hk, rfl⟩)
        | constituent => exact .inr (.inr (.inl ⟨.constituent id, hk, rfl⟩))
        | feature => exact .inr (.inr (.inl ⟨.feature id, hk, rfl⟩))
        | group => exact .inr (.inr (.inr ⟨id, hk, rfl⟩))
    · rintro (rfl | ⟨id, hid, rfl⟩ | ⟨l, hl, rfl⟩ | ⟨g, hg, rfl⟩)
      · exact ⟨.tree, rfl, trivial⟩
      · exact ⟨.object id, rfl, hid⟩
      · cases l with
        | constituent id => exact ⟨.object id, rfl, hl⟩
        | feature id => exact ⟨.object id, rfl, hl⟩
      · exact ⟨.object g, rfl, hg⟩

/-- A tree with one leaf is saved, and the leaf with it, since it is in use. -/
theorem saved_iff_leafTree : ∃ s, (leafTree "john").save = .ok s ∧ s.root = treeClass ∧
    (∀ key, s.records.contains key = (Target.existing (leafTree "john") treeClass).contains key) ∧
    s.records.contains "Constituent0" = true ∧ s.records.get? "Constituent1" = none := by
  obtain ⟨s, hs⟩ := exists_save_of_isClosed (t := leafTree "john") (by decide +kernel)
  obtain ⟨hroot, hrecords⟩ := (saved_iff.1 ((leafTree "john").source treeClass) treeClass).2 s hs
  have hsaved := saved_iff.2 (leafTree "john") s hs
  refine ⟨s, hs, hroot, fun key => (hsaved key).1, (hsaved "Constituent0").2.mpr ?_, ?_⟩
  · refine .inr
      (.inr (.inl ⟨.constituent ⟨0⟩, Store.has_reachable_iff.mpr (.start ?_ ?_), by decide⟩))
    · decide +kernel
    · decide +kernel
  · rw [Option.eq_none_iff_forall_ne_some]
    intro r hr
    obtain ⟨k, object, htext, -, hobject, -⟩ := exists_object_of_record ((hrecords _ r).mp hr).2
    obtain rfl : k = .object (k := .constituent) ⟨1⟩ := ObjectKey.eq_of_text_eq k _ htext
    have hnone : (leafTree "john").objectOf? (.object (k := .constituent) ⟨1⟩) = none := rfl
    rw [hnone] at hobject
    cases hobject

end DerivationTree
end MinimalistGrammar
