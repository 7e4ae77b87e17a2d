import MinimalistGrammar.Proofs.Archive.Roundtrip
import MinimalistGrammar.Proofs.Derivation.Shown

/-!
# Trees that were saved and loaded

A tree into which another one has been loaded has the states of the other one and shows all that it
shows. Its own snapshot is the one that was loaded, but for the counter, and to load this again
changes nothing.

## Main definitions

* `DerivationTree.ShowsAs` — a tree has the states of another one and shows the same.
* `DerivationTree.IsSame` — two trees have the same objects, lists, cursor and counters.
* `Snapshot.withNextId` — a snapshot with another counter for states.

## Main results

* `DerivationTree.exists_restored` — what was saved can be loaded into any tree, which then shows
  it.
-/

namespace MinimalistGrammar
namespace DerivationTree

variable {t t' v : DerivationTree} {s : Snapshot} {key : String} {object : Object} {k : ObjectKey}
  {l : Link} {g : GroupId}

/-! ### What a snapshot has -/

theorem contains_of_save (hs : v.save = .ok s) : s.records.contains treeClass = true := by
  obtain ⟨records, hrecords, rfl⟩ := map_eq_ok_iff.mp hs
  have hwalk := Source.isWalk_of_walk hrecords
  obtain ⟨r, hr⟩ := hwalk.root
  exact Dict.contains_iff.mpr ⟨r, (Dict.get?_ofList_eq_some_iff hwalk.distinct).mpr hr⟩

/-- A snapshot has all objects to which one is linked that it has. -/
theorem contains_of_mem_keys (hs : v.save = .ok s) (hk : s.records.contains k.text = true)
    (hobject : v.objectOf? k = some object) (hkey : key ∈ object.keys) :
    s.records.contains key = true := by
  obtain ⟨r, hr⟩ := Dict.contains_iff.mp hk
  obtain ⟨k', object', htext, -, hobject', hrecord⟩ := exists_object_of_save hs hr
  obtain rfl := ObjectKey.eq_of_text_eq _ _ htext
  obtain rfl := Option.some.inj (hobject.symm.trans hobject')
  obtain ⟨ref, href, rfl⟩ := Object.exists_mem_references hrecord hkey
  obtain ⟨records, hrecords, rfl⟩ := map_eq_ok_iff.mp hs
  have hwalk := Source.isWalk_of_walk hrecords
  obtain ⟨r', hr'⟩ := hwalk.closed ((Dict.get?_ofList_eq_some_iff hwalk.distinct).mp hr) href
  exact Dict.contains_iff.mpr ⟨r', (Dict.get?_ofList_eq_some_iff hwalk.distinct).mpr hr'⟩

theorem contains_key_of_state? (hs : v.save = .ok s) {id : StateId} {x : SyntaxState}
    (hx : v.state? id = some x) : s.records.contains id.key = true := by
  refine contains_of_mem_keys (k := .tree) hs (contains_of_save hs) rfl ?_
  refine List.mem_append_left _ (List.mem_map_of_mem ?_)
  exact mem_keys_states_iff.mpr (contains_iff.mpr ⟨x, hx⟩)

/-- A snapshot has what the states show. -/
theorem contains_key_of_state (hs : v.save = .ok s) {id : StateId} {x : SyntaxState}
    (hx : v.state? id = some x) :
    (∀ root ∈ x.roots, s.records.contains root.key = true) ∧
      ∀ g ∈ x.groups.values, s.records.contains g.key = true := by
  have hsaved := contains_key_of_state? hs hx
  have hobject : v.objectOf? (.object id) = some (.state x) := congrArg (Option.map _) hx
  refine ⟨fun root hroot => ?_, fun g hg => ?_⟩
  · exact contains_of_mem_keys (k := .object id) hs hsaved hobject
      (List.mem_append_left _ (List.mem_map_of_mem hroot))
  · exact contains_of_mem_keys (k := .object id) hs hsaved hobject
      (List.mem_append_right _ (List.mem_map_of_mem hg))

/-- A snapshot has all to which one is linked that it has. -/
theorem contains_key_of_mem_linksOf (hs : v.save = .ok s) {l' : Link}
    (hl : s.records.contains l.key = true) (hl' : l' ∈ v.store.linksOf l) :
    s.records.contains l'.key = true := by
  unfold Store.linksOf at hl'
  cases l with
  | constituent id =>
    cases hc : v.store.constituent? id with
    | none => simp [Store.linked?, hc] at hl'
    | some c =>
      simp only [Store.linked?, hc, Option.map_some, Option.elim_some, Sum.elim_inl] at hl'
      exact contains_of_mem_keys (k := .object id) hs hl (congrArg (Option.map _) hc)
        (List.mem_map_of_mem hl')
  | feature id =>
    cases hf : v.store.feature? id with
    | none => simp [Store.linked?, hf] at hl'
    | some f =>
      simp only [Store.linked?, hf, Option.map_some, Option.elim_some, Sum.elim_inr] at hl'
      exact contains_of_mem_keys (k := .object id) hs hl (congrArg (Option.map _) hf)
        (List.mem_map_of_mem hl')

theorem contains_key_of_mem_members (hs : v.save = .ok s) {group : Group} {c : ConstituentId}
    (hg : s.records.contains g.key = true) (hgroup : v.store.group? g = some group)
    (hc : c ∈ group.members) : s.records.contains c.key = true :=
  contains_of_mem_keys (k := .object g) hs hg (congrArg (Option.map _) hgroup)
    (List.mem_map_of_mem hc)

theorem contains_key_of_mem_entrances (hs : v.save = .ok s) (hl : l ∈ v.entrances) :
    s.records.contains l.key = true := by
  obtain ⟨id, x, c, hx, rfl, hc | ⟨g, hg, group, hgroup, hc⟩⟩ := mem_entrances_iff.mp hl
  · exact (contains_key_of_state hs hx).1 c hc
  · exact contains_key_of_mem_members hs ((contains_key_of_state hs hx).2 g hg) hgroup hc

/-- A snapshot has all that the states show. -/
theorem contains_key_of_reaches (hs : v.save = .ok s) (hl : v.store.Reaches v.entrances l) :
    s.records.contains l.key = true := by
  induction hl with
  | start hl _ => exact contains_key_of_mem_entrances hs hl
  | step _ hl' _ ih => exact contains_key_of_mem_linksOf hs ih hl'

theorem contains_of_mem_liveKeys (hs : v.save = .ok s) (hkey : key ∈ v.liveKeys) :
    s.records.contains key = true := by
  obtain ⟨k, rfl, hk⟩ := mem_liveKeys_iff.mp hkey
  cases k with
  | tree => exact contains_of_save hs
  | @object kind id =>
    cases kind with
    | state =>
      obtain ⟨x, hx⟩ := contains_iff.mp hk
      exact contains_key_of_state? hs hx
    | constituent => exact contains_key_of_reaches (l := .constituent id) hs (has_shown_iff.mp hk)
    | feature => exact contains_key_of_reaches (l := .feature id) hs (has_shown_iff.mp hk)
    | group =>
      obtain ⟨_, x, group, hx, hg, -⟩ := contains_groups_shown_iff.mp hk
      exact (contains_key_of_state hs hx).2 id hg

/-! ### What is shown when it has been loaded -/

/-- The numbers of all states are below the counter. -/
theorem IsConsistent.reserved_le (h : v.IsConsistent) (hobject : v.objectOf? k = some object) :
    object.reserved .state ≤ v.nextId := by
  cases k with
  | tree =>
    obtain rfl := Option.some.inj hobject
    exact Nat.le_refl _
  | @object kind id =>
    cases kind <;> obtain ⟨a, ha, rfl⟩ := Option.map_eq_some_iff.mp hobject
    · have hid := h.id ha
      subst hid
      exact h.fresh (contains_iff.mpr ⟨a, ha⟩)
    all_goals exact Nat.zero_le _

namespace IsRestoration

variable (h : t.IsRestoration v s t') (hs : v.save = .ok s)

include h

theorem state?_of_contains {id : StateId} (hid : s.records.contains id.key = true) :
    t'.state? id = v.state? id :=
  Option.map_injective (fun _ _ => Object.state.inj) (h.saved (k := .object id) (by simp) hid)

theorem linked?_of_contains (hl : s.records.contains l.key = true) :
    t'.store.linked? l = v.store.linked? l := by
  cases l with
  | constituent id =>
    have hobject := h.saved (k := .object id) (by simp) hl
    have hc : t'.store.constituent? id = v.store.constituent? id :=
      Option.map_injective (fun _ _ heq => (Object.constituent.inj heq).2) hobject
    rw [Store.linked?, hc, Store.linked?]
  | feature id =>
    have hobject := h.saved (k := .object id) (by simp) hl
    have hf : t'.store.feature? id = v.store.feature? id :=
      Option.map_injective (fun _ _ heq => (Object.feature.inj heq).2) hobject
    rw [Store.linked?, hf, Store.linked?]

theorem group?_of_contains (hg : s.records.contains g.key = true) :
    t'.store.group? g = v.store.group? g :=
  Option.map_injective (fun _ _ heq => (Object.group.inj heq).2)
    (h.saved (k := .object g) (by simp) hg)

include hs

/-- The states are those of the tree that was saved. -/
theorem state?_eq (id : StateId) : t'.state? id = v.state? id := by
  by_cases hid : s.records.contains id.key = true
  · exact h.state?_of_contains hid
  · have hv : v.state? id = none := by
      cases hx : v.state? id with
      | none => rfl
      | some x => exact absurd (contains_key_of_state? hs hx) hid
    have hobject := h.others (k := .object id) (by simp) (Bool.not_eq_true _ ▸ hid)
    have ht : t'.objectOf? (.object id) = none := by
      rw [hobject]
      split
      · rfl
      · next hdead =>
        have hmissing : t.state? id = none := by
          cases hx : t.state? id with
          | none => rfl
          | some x => exact absurd (key_mem_liveKeys_iff.mpr (contains_iff.mpr ⟨x, hx⟩)) hdead
        exact congrArg (Option.map _) hmissing
    rw [hv]
    exact Option.map_eq_none_iff.mp ht

theorem mem_entrances_iff : l ∈ t'.entrances ↔ l ∈ v.entrances := by
  rw [DerivationTree.mem_entrances_iff, DerivationTree.mem_entrances_iff]
  simp only [h.state?_eq hs]
  refine exists_congr fun id => exists_congr fun x => exists_congr fun c =>
    and_congr_right fun hx => and_congr_right fun _ =>
      or_congr_right (exists_congr fun g => and_congr_right fun hg => ?_)
  rw [h.group?_of_contains ((contains_key_of_state hs hx).2 g hg)]

/-- What is shown are the nodes and features that the saved tree shows, and they are the same. -/
theorem reaches_iff : t'.store.Reaches t'.entrances l ↔ v.store.Reaches v.entrances l := by
  constructor
  · intro hl
    induction hl with
    | start hl hlinked =>
      have hl := (h.mem_entrances_iff hs).mp hl
      refine .start hl ?_
      rwa [← h.linked?_of_contains (contains_key_of_mem_entrances hs hl)]
    | step _ hl' hlinked ih =>
      have hsaved := contains_key_of_reaches hs ih
      rw [Store.linksOf_congr (h.linked?_of_contains hsaved)] at hl'
      refine ih.step hl' ?_
      rwa [← h.linked?_of_contains (contains_key_of_mem_linksOf hs hsaved hl')]
  · intro hl
    have hsame := hl.congr fun l hl => h.linked?_of_contains (contains_key_of_reaches hs hl)
    exact hsame.trans fun l hl hlinked => .start ((h.mem_entrances_iff hs).mpr hl) hlinked

theorem has_shown : t'.shown.has l = v.shown.has l := by
  rw [Bool.eq_iff_iff, has_shown_iff, has_shown_iff, h.reaches_iff hs]

theorem contains_groups_shown : t'.shown.groups.contains g = v.shown.groups.contains g := by
  rw [Bool.eq_iff_iff, contains_groups_shown_iff, contains_groups_shown_iff]
  simp only [h.state?_eq hs]
  refine exists_congr fun id => exists_congr fun x => exists_congr fun group =>
    and_congr_right fun hx => and_congr_right fun hg => ?_
  rw [h.group?_of_contains ((contains_key_of_state hs hx).2 g hg)]

/-- The counter goes on from where both trees have been. -/
theorem nextId_eq (hv : v.IsConsistent) : t'.nextId = max t.nextId v.nextId := by
  have hle (n : Nat) := h.counter_le_iff .state n
  apply Nat.le_antisymm
  · refine (hle _).mpr ⟨Nat.le_max_left .., fun k object _ hobject => ?_⟩
    have hreserved := hv.reserved_le hobject
    exact Nat.le_trans hreserved (Nat.le_max_right ..)
  · obtain ⟨ht, hsaved⟩ := (hle t'.nextId).mp (Nat.le_refl _)
    have hv' : v.nextId ≤ t'.nextId := hsaved .tree _ (contains_of_save hs) rfl
    exact Nat.max_le.mpr ⟨ht, hv'⟩

end IsRestoration

/-! ### Lists of children -/

/-- The lists of children depend on the parents alone. -/
theorem IsLinked.childrenOf_congr (h : t.IsLinked) (h' : t'.IsLinked)
    (hparent : ∀ id, t'.parent? id = t.parent? id) (p : StateId) :
    t'.childrenOf p = t.childrenOf p := by
  have hincreasing {l : List StateId} (hl : l.Pairwise (·.index < ·.index)) :
      l.Pairwise fun a b => compare a b = .lt :=
    hl.imp fun hab => by rw [Ident.compare_def]; exact Nat.compare_eq_lt.mpr hab
  refine eq_of_increasing (hincreasing (h'.increasing p)) (hincreasing (h.increasing p))
    fun id => ?_
  rw [h'.mem_childrenOf_iff, h.mem_childrenOf_iff, hparent]

theorem keys_congr {kind : Kind} {α β : Type} {m : IdentMap kind α} {m' : IdentMap kind β}
    (h : ∀ id, m'.contains id = m.contains id) : m'.keys = m.keys :=
  eq_of_increasing Std.TreeMap.ordered_keys Std.TreeMap.ordered_keys fun id => by
    rw [Std.TreeMap.mem_keys, Std.TreeMap.mem_keys, Std.TreeMap.mem_iff_contains,
      Std.TreeMap.mem_iff_contains, h]

/-- So do the ends of branches. -/
theorem IsLinked.firstTerminal_eq (h : t.IsLinked) (h' : t'.IsLinked)
    (hstate : ∀ id, t'.state? id = t.state? id) (id : StateId) :
    t'.firstTerminal id = t.firstTerminal id := by
  have hcontains (id : StateId) : t'.contains id = t.contains id := by
    rw [Bool.eq_iff_iff, contains_iff, contains_iff, hstate]
  have hparent (id : StateId) : t'.parent? id = t.parent? id := by
    rw [parent?, hstate]
    rfl
  have hlists (n : Nat) (id : StateId) :
      t'.firstTerminalWithin n id = t.firstTerminalWithin n id := by
    induction n generalizing id with
    | zero => rfl
    | succ n ih =>
      rw [firstTerminalWithin, firstTerminalWithin, h.childrenOf_congr h' hparent]
      split
      · rfl
      · exact ih _
  have hkeys : t'.children.keys = t.children.keys :=
    keys_congr fun id => by rw [h.listed, h'.listed, hcontains]
  have hsize : t'.children.size = t.children.size := by
    rw [← Std.TreeMap.length_keys, hkeys, Std.TreeMap.length_keys]
  rw [firstTerminal, hsize, hlists, firstTerminal]

end DerivationTree

/-! ### The snapshot of a loaded tree -/

/-- The record of a tree with another counter. -/
def Record.withNextId (r : Record) (n : Nat) : Record :=
  { r with fields := r.fields.insert "next_id" (.int n) }

/-- A snapshot with another counter for states. -/
def Snapshot.withNextId (s : Snapshot) (n : Nat) : Snapshot :=
  (s.records.get? treeClass).elim s fun r =>
    { s with records := s.records.insert treeClass (r.withNextId n) }

theorem Snapshot.contains_withNextId {s : Snapshot} (h : s.records.contains treeClass = true)
    (n : Nat) (key : String) : (s.withNextId n).records.contains key = s.records.contains key := by
  obtain ⟨r, hr⟩ := Dict.contains_iff.mp h
  unfold withNextId Dict.contains
  rw [hr, Option.elim_some, Dict.get?_insert]
  split
  · next hkey => rw [hkey, hr, Option.isSome_some, Option.isSome_some]
  · rfl

/-- The counter is the last field of a tree's record that is written. -/
theorem Object.record_tree {states : List StateId} {current : Option StateId} {n m : Nat}
    {key : String} {r : Record} (h : (tree states current n).record key = .ok r) :
    (tree states current m).record key = .ok (r.withNextId m) ∧
      r.fields.get? "next_id" = some (.int n) := by
  unfold record at h
  obtain ⟨r₁, h₁, h⟩ := bind_eq_ok_iff.mp h
  obtain ⟨r₂, h₂, h⟩ := bind_eq_ok_iff.mp h
  obtain rfl := Except.ok.inj h
  refine ⟨bind_eq_ok_iff.mpr ⟨r₁, h₁, bind_eq_ok_iff.mpr ⟨r₂, h₂, congrArg Except.ok ?_⟩⟩, ?_⟩
  · unfold Record.withNextId
    refine congrArg (Record.mk _) (Dict.ext_get? fun field => ?_)
    simp only [Dict.get?_insert]
    split <;> rfl
  · exact Dict.get?_insert_self

/-- The counter is no reference. -/
theorem Record.references_withNextId {r : Record} {n : Nat}
    (h : r.fields.get? "next_id" = some (.int n)) (m : Nat) (key : String) :
    (r.withNextId m).references key = r.references key := by
  obtain ⟨before, after, heq, heq'⟩ := Dict.exists_entries_insert h (.int m)
  unfold references withNextId
  rw [heq', heq]
  simp [Value.references]

namespace DerivationTree

variable {t t' v : DerivationTree} {s : Snapshot}

theorem IsRestoration.keys_states (h : t.IsRestoration v s t') (hs : v.save = .ok s) :
    t'.states.keys = v.states.keys :=
  keys_congr fun id => by
    have hcontains : t'.contains id = v.contains id := by
      rw [Bool.eq_iff_iff, contains_iff, contains_iff, h.state?_eq hs]
    exact hcontains

/-- The record of an object in the tree that was saved, after this has been loaded. -/
theorem IsRestoration.record_eq (h : t.IsRestoration v s t') (hs : v.save = .ok s) {key : String}
    {r : Record} (hr : s.records.get? key = some r) :
    (t'.source treeClass).record key =
        .ok (some (if key = treeClass then r.withNextId t'.nextId else r)) ∧
      (if key = treeClass then r.withNextId t'.nextId else r).references key =
        r.references key := by
  obtain ⟨k, object, rfl, hkey, hobject, hrecord⟩ := exists_object_of_save hs hr
  have hplain : isPlainKey k.text = true := by
    unfold isPlainKey
    rw [hkey, Option.any_some, beq_self_eq_true]
  have hsource : (t'.source treeClass).record k.text = t'.record k.text := by
    show (if k.text == treeClass || isPlainKey k.text then _ else _) = _
    rw [hplain, Bool.or_true, if_pos rfl]
  rw [hsource, DerivationTree.record, object?, hkey, Option.bind_some]
  by_cases hk : k = .tree
  · subst hk
    obtain rfl := Option.some.inj hobject
    obtain ⟨hrecord', hfield⟩ := Object.record_tree hrecord (m := t'.nextId)
    rw [if_pos (show ObjectKey.tree.text = treeClass from rfl)]
    refine ⟨?_, Record.references_withNextId hfield _ _⟩
    show (Object.record _ (.tree t'.states.keys t'.current t'.nextId)).map some = _
    rw [h.keys_states hs, h.current, hrecord']
    rfl
  · have hne : k.text ≠ treeClass := fun heq => hk (ObjectKey.eq_of_text_eq k .tree heq)
    rw [if_neg hne, h.saved hk (Dict.contains_iff.mpr ⟨r, hr⟩), hobject]
    refine ⟨?_, rfl⟩
    show (object.record k.text).map some = _
    rw [hrecord]
    rfl

/-- The snapshot of a tree into which another one has been loaded is that of the other one, but for
the counter. -/
theorem IsRestoration.save_eq (h : t.IsRestoration v s t') (hs : v.save = .ok s) :
    t'.save = .ok (s.withNextId t'.nextId) := by
  have hrecord {key : String} {r : Record} (hr : s.records.get? key = some r) := h.record_eq hs hr
  obtain ⟨r, hr⟩ := Dict.contains_iff.mp (contains_of_save hs)
  obtain ⟨records, hrecords, rfl⟩ := map_eq_ok_iff.mp hs
  have hdistinct := (Source.isWalk_of_walk hrecords).distinct
  have hget {key : String} {r : Record} :
      (Dict.ofList records).get? key = some r ↔ (key, r) ∈ records :=
    Dict.get?_ofList_eq_some_iff hdistinct
  -- both walks find the same keys, and the records differ in the counter of the tree
  have hwalk : (t'.source treeClass).walk unknownObject treeClass = _ :=
    Source.walk_map (f := fun key r => if key = treeClass then r.withNextId t'.nextId else r)
      hrecords fun hmem => hrecord (hget.mpr hmem)
  unfold save saveFrom Source.save Snapshot.withNextId
  rw [hwalk, hr]
  refine congrArg Except.ok
    (congrArg (Snapshot.mk treeClass) (Dict.ext_get? fun key => Option.ext fun r' => ?_))
  have hdistinct' : (records.map fun e =>
      (e.1, if e.1 = treeClass then e.2.withNextId t'.nextId else e.2)).Pairwise (·.1 ≠ ·.1) :=
    List.pairwise_map.mpr hdistinct
  rw [Dict.get?_ofList_eq_some_iff hdistinct', List.mem_map, Dict.get?_insert]
  constructor
  · rintro ⟨e, he, heq⟩
    obtain ⟨rfl, rfl⟩ := Prod.mk.inj heq
    by_cases htree : e.1 = treeClass
    · have hsame : r = e.2 := Option.some.inj (hr.symm.trans (htree ▸ hget.mpr he))
      rw [if_pos htree, if_pos htree, hsame]
    · rw [if_neg htree, if_neg htree]
      exact hget.mpr he
  · intro hr'
    by_cases htree : key = treeClass
    · rw [if_pos htree] at hr'
      refine ⟨(treeClass, r), hget.mp hr, ?_⟩
      rw [if_pos rfl, Option.some.inj hr', htree]
    · rw [if_neg htree] at hr'
      exact ⟨(key, r'), hget.mp hr', by rw [if_neg htree]⟩

/-! ### Trees that were loaded -/

/-- A tree has the states of the tree `v`, with their children and the cursor, and shows what it
shows. -/
structure ShowsAs (v t' : DerivationTree) : Prop where
  state? (id : StateId) : t'.state? id = v.state? id
  childrenOf (id : StateId) : t'.childrenOf id = v.childrenOf id
  current : t'.current = v.current
  has_shown (l : Link) : t'.shown.has l = v.shown.has l
  linked? {l : Link} (h : v.shown.has l = true) : t'.store.linked? l = v.store.linked? l
  contains_groups (g : GroupId) : t'.shown.groups.contains g = v.shown.groups.contains g
  group? {g : GroupId} (h : v.shown.groups.contains g = true) : t'.store.group? g = v.store.group? g

/-- Two trees have the same objects, lists of children, cursors and counters. -/
structure IsSame (t t' : DerivationTree) : Prop where
  objectOf? (k : ObjectKey) : t'.objectOf? k = t.objectOf? k
  childrenOf (id : StateId) : t'.childrenOf id = t.childrenOf id
  active : t'.active = t.active
  counter (kind : Kind) : t'.counter kind = t.counter kind

theorem IsRestoration.showsAs (h : t.IsRestoration v s t') (hs : v.save = .ok s) (hv : v.IsLinked)
    (ht' : t'.IsLinked) : v.ShowsAs t' where
  state? := h.state?_eq hs
  childrenOf := hv.childrenOf_congr ht' fun id => by rw [parent?, h.state?_eq hs, parent?]
  current := h.current
  has_shown _ := h.has_shown hs
  linked? hl := h.linked?_of_contains (contains_key_of_reaches hs (has_shown_iff.mp hl))
  contains_groups _ := h.contains_groups_shown hs
  group? hg := by
    obtain ⟨id, x, group, hx, hg, -⟩ := contains_groups_shown_iff.mp hg
    exact h.group?_of_contains ((contains_key_of_state hs hx).2 _ hg)

/-- A tree stays the same when its own snapshot is loaded into it, if its active branch is the one
that takes the first child everywhere and its counters are above the numbers of what it shows. -/
theorem IsRestoration.isSame (h : v.IsRestoration v s t') (hs : v.save = .ok s)
    (hv : v.IsConsistent) (ht' : t'.IsConsistent)
    (hactive : v.active = v.current.map v.firstTerminal)
    (hreserved : ∀ k object kind, s.records.contains k.text = true → v.objectOf? k = some object →
      object.reserved kind ≤ v.counter kind) : v.IsSame t' where
  objectOf? k := by
    by_cases hk : k = .tree
    · subst hk
      have hnext := h.nextId_eq hs hv
      rw [Nat.max_self] at hnext
      rw [DerivationTree.objectOf?, h.keys_states hs, h.current, hnext]
      rfl
    · by_cases hc : s.records.contains k.text = true
      · exact h.saved hk hc
      · have hdead : k.text ∉ v.liveKeys := fun hlive => hc (contains_of_mem_liveKeys hs hlive)
        rw [h.others hk (Bool.not_eq_true _ ▸ hc), if_neg hdead]
  childrenOf := hv.childrenOf_congr ht'.toIsLinked fun id => by
    rw [parent?, h.state?_eq hs, parent?]
  active := by
    have hterminal := hv.firstTerminal_eq ht'.toIsLinked (h.state?_eq hs)
    rw [h.active, h.current, hactive, funext hterminal]
  counter kind := by
    have hle (n : Nat) := h.counter_le_iff kind n
    apply Nat.le_antisymm
    · exact (hle _).mpr ⟨Nat.le_refl _,
        fun k object hc hobject => hreserved k object kind hc hobject⟩
    · exact ((hle _).mp (Nat.le_refl _)).1

/-- A tree that can be kept in a snapshot can still be kept when another one has been loaded into
it. -/
theorem IsRestoration.isStorable (h : t.IsRestoration v s t') (hs : v.save = .ok s)
    (hv : v.IsConsistent) (hvstorable : v.IsStorable)
    (htstorable : t.IsStorable) : t'.IsStorable where
  nextId_lt := by
    have hv' := hvstorable.nextId_lt
    have ht' := htstorable.nextId_lt
    rw [h.nextId_eq hs hv]
    omega
  ordered {id c} hc := by
    have hobject : t'.objectOf? (.object id) = some (.constituent id c) :=
      congrArg (Option.map _) hc
    -- the node is that of one of the two trees
    have hsource : v.store.constituent? id = some c ∨ t.store.constituent? id = some c := by
      by_cases hsaved : s.records.contains id.key = true
      · have heq := h.linked?_of_contains (l := .constituent id) hsaved
        exact Or.inl ((Store.constituent?_of_linked? heq).symm.trans hc)
      · rw [h.others (k := .object id) (by simp) (Bool.not_eq_true _ ▸ hsaved)] at hobject
        split at hobject
        · exact absurd hobject (by simp)
        · obtain ⟨c', hc', heq⟩ := Option.map_eq_some_iff.mp hobject
          exact Or.inr ((Object.constituent.inj heq).2 ▸ hc')
    rcases hsource with hc | hc
    · exact hvstorable.ordered hc
    · exact htstorable.ordered hc

/-- The counters are above the numbers of all that was loaded. -/
theorem IsRestoration.reserved_le (h : t.IsRestoration v s t') {k : ObjectKey} {object : Object}
    (hk : s.records.contains k.text = true) (hobject : t'.objectOf? k = some object) (kind : Kind) :
    object.reserved kind ≤ t'.counter kind := by
  by_cases htree : k = .tree
  · subst htree
    obtain rfl := Option.some.inj hobject
    cases kind with
    | state => exact Nat.le_refl _
    | _ => exact Nat.zero_le _
  · rw [h.saved htree hk] at hobject
    exact ((h.counter_le_iff kind _).mp (Nat.le_refl _)).2 k object hk hobject

/-! ### Trees that can be saved -/

/-- Whether every object has a record that refers to objects of the tree only. -/
def isClosed (t : DerivationTree) : Bool :=
  t.objectKeys.all fun key =>
    match t.record key with
    | .ok (some r) => (r.references key).all fun ref => t.objectKeys.contains ref.key
    | _ => false

theorem exists_text_of_mem_objectKeys {key : String} (hkey : key ∈ t.objectKeys) :
    ∃ k : ObjectKey, k.text = key := by
  simp only [objectKeys, List.cons_append, List.mem_cons, List.mem_append, List.mem_map] at hkey
  rcases hkey with rfl | ((⟨id, -, rfl⟩ | ⟨id, -, rfl⟩) | ⟨id, -, rfl⟩) | ⟨id, -, rfl⟩
  · exact ⟨.tree, rfl⟩
  all_goals exact ⟨.object id, rfl⟩

theorem exists_record_of_isClosed (h : t.isClosed = true) {key : String}
    (hkey : key ∈ t.objectKeys) :
    ∃ r, (t.source treeClass).record key = .ok (some r) ∧
      ∀ ref ∈ r.references key, ref.key ∈ t.objectKeys := by
  have hclosed := List.all_eq_true.mp h key hkey
  split at hclosed
  · next r hr =>
    have hplain : isPlainKey key = true := by
      obtain ⟨k, rfl⟩ := exists_text_of_mem_objectKeys hkey
      cases hk : ObjectKey.parse? k.text with
      | none => simp [DerivationTree.record, object?, hk] at hr
      | some k' =>
        have hread := (Option.filter_eq_some_iff.mp hk).1
        rw [ObjectKey.read?_text] at hread
        rw [isPlainKey, hk, Option.any_some, ← Option.some.inj hread, beq_self_eq_true]
    refine ⟨r, ?_, fun ref href => ?_⟩
    · show (if key == treeClass || isPlainKey key then _ else _) = _
      rw [hplain, Bool.or_true, if_pos rfl, hr]
    · exact List.contains_iff_mem.mp (List.all_eq_true.mp hclosed ref href)
  · exact absurd hclosed (by simp)

/-- A tree without loose ends can be saved. -/
theorem exists_save_of_isClosed (h : t.isClosed = true) : ∃ s, t.save = .ok s := by
  have hroot : ObjectKey.tree.text ∈ t.objectKeys := text_mem_objectKeys rfl
  obtain ⟨r, hr, -⟩ := exists_record_of_isClosed h hroot
  have hresolves {key : String} {r : Record} (hr : (t.source treeClass).record key = .ok (some r)) :
      ∀ ref ∈ r.references key, (t.source treeClass).Resolves ref := by
    obtain ⟨hplain, hrecord⟩ := isPlainKey_of_record_source hr
    have hkey := mem_objectKeys_of_record hplain hrecord
    obtain ⟨r', hr', hrefs⟩ := exists_record_of_isClosed h hkey
    obtain rfl := Option.some.inj (Except.ok.inj (hr.symm.trans hr'))
    intro ref href
    obtain ⟨r', hr', -⟩ := exists_record_of_isClosed h (hrefs ref href)
    exact ⟨r', hr'⟩
  obtain ⟨records, hrecords⟩ := Source.exists_walk hresolves hr
  exact ⟨_, map_eq_ok_iff.mpr ⟨records, hrecords, rfl⟩⟩

/-! ### Saving and loading -/

/-- What was saved can be loaded into any tree. This shows then what the saved tree shows, and its
counter goes on from where both have been. Its own snapshot is the one that was loaded, but for the
counter, and when this is loaded again nothing changes. -/
theorem exists_restored (hv : Evolves {} v) (ht : Evolves {} t) (hvstorable : v.IsStorable)
    (htstorable : t.IsStorable) (hs : v.save = .ok s) :
    ∃ t' loaded, t.load s = .ok (t', loaded) ∧ v.ShowsAs t' ∧ t'.nextId = max t.nextId v.nextId ∧
      t'.save = .ok (s.withNextId t'.nextId) ∧
      ∃ t'' loaded', t'.load (s.withNextId t'.nextId) = .ok (t'', loaded') ∧ t'.IsSame t'' := by
  have hvc := (hv.isConsistent_and_le isConsistent_empty).1
  have htc := (ht.isConsistent_and_le isConsistent_empty).1
  obtain ⟨t', loaded, hload, h⟩ := exists_load_of_save htc.toIsOrdered hvc hvstorable hs
  have htc' := (htc.load hvc hs hload).1
  have hs' := h.save_eq hs
  have hstorable' := h.isStorable hs hvc hvstorable htstorable
  obtain ⟨t'', loaded', hload', h'⟩ := exists_load_of_save htc'.toIsOrdered htc' hstorable' hs'
  have htc'' := (htc'.load htc' hs' hload').1
  refine ⟨t', loaded, hload, h.showsAs hs hvc.toIsLinked htc'.toIsLinked, h.nextId_eq hs hvc,
    hs', t'', loaded', hload', h'.isSame hs' htc' htc'' h.active fun k object kind hk hobject => ?_⟩
  rw [Snapshot.contains_withNextId (contains_of_save hs)] at hk
  exact h.reserved_le hk hobject kind

/-- A tree with one leaf, which its only state shows. -/
def leafTree (label : String) : DerivationTree :=
  let leaf := ({} : Store).addLeaf label [.categorial "d"]
  (({ store := leaf.1 } : DerivationTree).addStep
    { roots := [leaf.2], message := label, type := .scan } none).1

theorem evolves_leafTree (label : String) : Evolves {} (leafTree label) :=
  ((Evolves.refl {}).store _).addStep _ _

theorem isStorable_leafTree (label : String) : (leafTree label).IsStorable where
  nextId_lt := show 1 < Ident.bound by decide
  ordered {id c} h := by
    have hc : (((∅ : IdentMap .constituent Constituent).insert ⟨0⟩ { label }).modify ⟨0⟩
        fun c => { c with features := [⟨0⟩], lexicalHeads := [⟨0⟩] })[id]? = some c := h
    rw [IdentMap.getElem?_modify, IdentMap.getElem?_insert] at hc
    have hempty : c.attributes = ∅ := by
      split at hc
      · obtain rfl := Option.some.inj hc
        rfl
      · exact absurd hc (by simp)
    simp [hempty, Dict.values]

/-- A tree whose leaf is called john comes back when it is loaded into one that has another leaf
under the same number. -/
theorem exists_restored_leafTree : ∃ s t' loaded, (leafTree "john").save = .ok s ∧
    (leafTree "mary").load s = .ok (t', loaded) ∧ (leafTree "john").ShowsAs t' ∧ t'.nextId = 1 := by
  obtain ⟨s, hs⟩ := exists_save_of_isClosed (t := leafTree "john") (by decide +kernel)
  obtain ⟨t', loaded, hload, hshows, hnext, -⟩ := exists_restored (evolves_leafTree "john")
    (evolves_leafTree "mary") (isStorable_leafTree "john") (isStorable_leafTree "mary") hs
  exact ⟨s, t', loaded, hs, hload, hshows, hnext⟩

end DerivationTree
end MinimalistGrammar
