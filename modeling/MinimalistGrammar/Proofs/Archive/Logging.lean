import MinimalistGrammar.Proofs.Archive.References
import MinimalistGrammar.Proofs.Archive.Reloading
import MinimalistGrammar.Proofs.Archive.Wholeness

/-!
# Logs and snapshots

A log has one walk for every state, and a snapshot has one walk from the tree, which goes to the
states first. From a state no reference leads to the tree, so the walks of a log find what the walk
of the snapshot finds, but for the tree. A log is read as the snapshot of the tree whose cursor is
at its last state.

## Main definitions

* `DerivationTree.atLast` — the tree with its cursor at the last state.
* `DerivationTree.IsAtLast` — two trees are the same but for this.
* `DerivationTree.IsLoggedAsSaved` — the log of a tree and its snapshot say the same.

## Main results

* `DerivationTree.exists_exportLog_iff_exists_save` — a tree has a log if it can be saved.
* `DerivationTree.save_atLast` — the snapshot that is made of a log.
* `DerivationTree.isLoggedAsSaved_of_evolves` — every tree is logged as it is saved.
-/

namespace MinimalistGrammar

/-- Identifiers are written as references. -/
theorem Codec.storeItems_ident {k : Kind} (ids : List (Ident k)) (path : String) (i : Nat) :
    (Codec.ident k).storeItems path i ids = .ok (ids.map fun id => .ref id.key) := by
  induction ids generalizing i with
  | nil => rfl
  | cons id ids ih =>
    rw [storeItems, ih]
    rfl

/-! ### Saving -/

namespace Source

variable {s : Source SaveError} {root key : String} {snapshot : Snapshot} {r : Record}

/-- A graph is what its records are. -/
theorem eq_of_record_eq {ε : Type} {s s' : Source ε} (h : ∀ key, s.record key = s'.record key) :
    s = s' := by
  cases s
  cases s'
  obtain rfl : _ = _ := funext h
  rfl

/-- A snapshot has the records of all objects to which references lead. -/
theorem get?_records_eq_some_iff (h : s.save root = .ok snapshot) :
    snapshot.records.get? key = some r ↔ s.Leads root key ∧ s.record key = .ok (some r) := by
  obtain ⟨records, hrecords, rfl⟩ := map_eq_ok_iff.mp h
  have hwalk := isWalk_of_walk hrecords
  rw [Dict.get?_ofList_eq_some_iff hwalk.distinct, ← exists_mem_walk_iff hrecords]
  constructor
  · intro hr
    exact ⟨⟨r, hr⟩, hwalk.record hr⟩
  · rintro ⟨⟨r', hr'⟩, hr⟩
    rwa [Option.some.inj (Except.ok.inj (hr.symm.trans (hwalk.record hr')))]

theorem exists_save_iff : (∃ snapshot, s.save root = .ok snapshot) ↔
    ∀ key, s.Leads root key → ∃ r, s.record key = .ok (some r) := by
  have hwalk : (∃ records, s.walk unknownObject root = .ok records) ↔ _ := exists_walk_iff
  rw [← hwalk]
  constructor
  · rintro ⟨snapshot, h⟩
    obtain ⟨records, hrecords, -⟩ := map_eq_ok_iff.mp h
    exact ⟨records, hrecords⟩
  · rintro ⟨records, hrecords⟩
    exact ⟨_, map_eq_ok_iff.mpr ⟨records, hrecords, rfl⟩⟩

/-- A graph with the same records where references lead has the same snapshots. -/
theorem save_congr {s' : Source SaveError} (h : s.save root = .ok snapshot)
    (hrecord : ∀ key, s.Leads root key → s'.record key = s.record key) :
    s'.save root = .ok snapshot := by
  obtain ⟨records, hrecords, rfl⟩ := map_eq_ok_iff.mp h
  have hwalk := isWalk_of_walk hrecords
  have hrecords' : s'.walk unknownObject root = .ok (records.map fun e => (e.1, e.2)) :=
    walk_map (f := fun _ r => r) hrecords fun {key r} hr =>
      ⟨(hrecord key ((exists_mem_walk_iff hrecords).mp ⟨r, hr⟩)).trans (hwalk.record hr), rfl⟩
  refine map_eq_ok_iff.mpr ⟨records, hrecords'.trans ?_, rfl⟩
  rw [List.map_id'']
  exact fun e => rfl

end Source

namespace DerivationTree

variable {t : DerivationTree} {s : Snapshot} {key : String} {r : Record} {id : StateId}
  {log : List LogRecord}

/-! ### References from states -/

theorem record_source (t : DerivationTree) (k : ObjectKey) (key : String) :
    (t.source k.text).record key = if isPlainKey key then t.record key else .ok none := by
  show (if key == k.text || isPlainKey key then t.record key else .ok none) = _
  cases hplain : isPlainKey key with
  | true => rw [Bool.or_true]
  | false =>
    rw [Bool.or_false]
    split
    · next hkey =>
      -- the key from which one starts is plain if it can be read
      have hparse : ObjectKey.parse? k.text = none := by
        cases hk : ObjectKey.parse? k.text with
        | none => rfl
        | some k' =>
          have hread := (Option.filter_eq_some_iff.mp hk).1
          rw [ObjectKey.read?_text] at hread
          rw [eq_of_beq hkey, isPlainKey, hk, ← Option.some.inj hread, Option.any_some,
            beq_self_eq_true] at hplain
          exact absurd hplain (by simp)
      rw [eq_of_beq hkey, record, object?, hparse]
      rfl
    · rfl

/-- The graph of a tree is the same from wherever one starts. -/
theorem source_text (t : DerivationTree) (k : ObjectKey) : t.source k.text = t.source treeClass :=
  Source.eq_of_record_eq fun key => (t.record_source k key).trans (t.record_source .tree key).symm

theorem saveFrom_key (t : DerivationTree) (id : StateId) :
    t.saveFrom id.key = (t.source treeClass).save id.key :=
  congrArg (Source.save · id.key) (t.source_text (.object id))

/-- No reference leads to the tree. -/
theorem ne_treeClass_of_leads (h : (t.source treeClass).Leads id.key key) : key ≠ treeClass := by
  cases h with
  | refl => exact id.key_ne_treeClass
  | step _ hr href =>
    obtain ⟨k, object, -, -, -, hrecord⟩ := exists_object_of_record hr
    exact Object.refersOnly_of_record hrecord (fun _ => Object.ne_treeClass_of_mem_keys) _ _ href

/-- The record of a tree as it is put together from the fields. -/
theorem record_tree (states : List StateId) (current : Option StateId) (nextId : Nat)
    (key : String) :
    (Object.tree states current nextId).record key = .ok
      { className := treeClass
        fields := Dict.ofList
          [("states", .list (states.map fun id => .ref id.key)),
            ("current", current.elim .null fun id => .ref id.key), ("next_id", .int nextId)] } := by
  have hstates : (Codec.list (.ident .state)).store (Record.fieldPath key "states") states =
      .ok (.list (states.map fun id => .ref id.key)) :=
    congrArg (Except.map Value.list) (Codec.storeItems_ident states _ 0)
  have hcurrent : (Codec.option (.ident .state)).store (Record.fieldPath key "current") current =
      .ok (current.elim .null fun id => .ref id.key) := by cases current <;> rfl
  refine bind_eq_ok_iff.mpr ⟨_, map_eq_ok_iff.mpr ⟨_, hstates, rfl⟩, bind_eq_ok_iff.mpr
    ⟨_, map_eq_ok_iff.mpr ⟨_, hcurrent, rfl⟩, map_eq_ok_iff.mpr ⟨_, rfl, ?_⟩⟩⟩
  refine congrArg (Record.mk treeClass) (Dict.ext_get? fun field => Option.ext fun v => ?_)
  rw [Dict.get?_ofList_eq_some_iff (by simp)]
  simp only [Dict.get?_insert, List.mem_cons, Prod.mk.injEq, List.not_mem_nil, or_false]
  split
  · next h => simp [h, eq_comm]
  · split
    · next h => simp [h, eq_comm]
    · split
      · next h => simp [h, eq_comm]
      · simp [*]

theorem exists_record_tree (t : DerivationTree) :
    ∃ r, (Object.tree t.states.keys t.current t.nextId).record treeClass = .ok r ∧
      (t.source treeClass).record treeClass = .ok (some r) :=
  ⟨_, record_tree ..,
    (t.record_source .tree treeClass).trans (congrArg (Except.map some) (record_tree ..))⟩

/-- References lead from the tree to the tree itself and to where they lead from the states. -/
theorem leads_treeClass_iff (h : t.IsConsistent) : (t.source treeClass).Leads treeClass key ↔
    key = treeClass ∨ ∃ id, t.contains id = true ∧ (t.source treeClass).Leads id.key key := by
  obtain ⟨root, hrecord, hroot⟩ := t.exists_record_tree
  constructor
  · intro hlead
    induction hlead with
    | refl => exact Or.inl rfl
    | @step key r ref _ hr href ih =>
      rcases ih with rfl | ⟨id, hid, hlead⟩
      · obtain rfl := Option.some.inj (Except.ok.inj (hr.symm.trans hroot))
        have hmem := (Object.exists_mem_references_iff hrecord).mp ⟨ref, href, rfl⟩
        rcases List.mem_append.mp hmem with hmem | hmem
        · obtain ⟨id, hid, hkey⟩ := List.mem_map.mp hmem
          exact Or.inr ⟨id, mem_keys_states_iff.mp hid, hkey ▸ .refl _⟩
        · obtain ⟨id, hid, hkey⟩ := List.mem_map.mp hmem
          have hcurrent := h.filter_current
          rw [Option.mem_toList.mp hid, Option.filter_eq_some_iff] at hcurrent
          exact Or.inr ⟨id, hcurrent.2, hkey ▸ .refl _⟩
      · exact Or.inr ⟨id, hid, hlead.step hr href⟩
  · rintro (rfl | ⟨id, hid, hlead⟩)
    · exact .refl _
    · obtain ⟨ref, href, hkey⟩ := (Object.exists_mem_references_iff hrecord).mpr
        (List.mem_append_left _ (List.mem_map_of_mem (mem_keys_states_iff.mpr hid)))
      exact Source.Leads.trans (hkey ▸ (Source.Leads.refl treeClass).step hroot href) hlead

/-! ### Logs -/

theorem exists_store_groups (groups : Dict String GroupId) (path : String) :
    ∃ v, (Codec.map .string (.ident .group)).store path groups = .ok v := by
  have hentries (entries : List (String × GroupId)) (i : Nat) :
      ∃ vs, Codec.storeEntries .string (.ident .group) path i entries = .ok vs := by
    induction entries generalizing i with
    | nil => exact ⟨[], rfl⟩
    | cons e entries ih =>
      obtain ⟨vs, hvs⟩ := ih (i + 1)
      exact ⟨(.str e.1, .ref e.2.key) :: vs, bind_eq_ok_iff.mpr ⟨_, rfl, bind_eq_ok_iff.mpr
        ⟨_, rfl, bind_eq_ok_iff.mpr ⟨vs, hvs, rfl⟩⟩⟩⟩
  obtain ⟨vs, hvs⟩ := hentries groups.entries 0
  exact ⟨.map vs, map_eq_ok_iff.mpr ⟨vs, hvs, rfl⟩⟩

/-- A state can be logged if what it shows can be saved. -/
theorem exists_logRecord_iff {x : SyntaxState} : (∃ record, t.logRecord x = .ok record) ↔
    ∃ objects, t.saveFrom x.id.key = .ok objects := by
  constructor
  · rintro ⟨record, h⟩
    obtain ⟨roots, -, h⟩ := bind_eq_ok_iff.mp h
    obtain ⟨groups, -, h⟩ := bind_eq_ok_iff.mp h
    obtain ⟨objects, hobjects, -⟩ := bind_eq_ok_iff.mp h
    exact ⟨objects, hobjects⟩
  · rintro ⟨objects, hobjects⟩
    have hroots : Object.nodesCodec.store (Record.fieldPath x.id.key "roots") x.roots = _ :=
      congrArg (Except.map Value.list) (Codec.storeItems_ident x.roots _ 0)
    obtain ⟨groups, hgroups⟩ := exists_store_groups x.groups (Record.fieldPath x.id.key "groups")
    exact ⟨_, bind_eq_ok_iff.mpr ⟨_, hroots, bind_eq_ok_iff.mpr ⟨groups, hgroups,
      bind_eq_ok_iff.mpr ⟨objects, hobjects, rfl⟩⟩⟩⟩

theorem of_logRecord {x : SyntaxState} {record : LogRecord} (h : t.logRecord x = .ok record) :
    record.state = x.id.index ∧ t.saveFrom x.id.key = .ok record.objects := by
  obtain ⟨roots, -, h⟩ := bind_eq_ok_iff.mp h
  obtain ⟨groups, -, h⟩ := bind_eq_ok_iff.mp h
  obtain ⟨objects, hobjects, h⟩ := bind_eq_ok_iff.mp h
  obtain rfl := Except.ok.inj h
  exact ⟨rfl, hobjects⟩

theorem IsKeyed.map_values (h : t.IsKeyed) : t.states.values.map (·.id) = t.states.keys := by
  rw [IdentMap.values_eq, ← Std.TreeMap.map_fst_toList_eq_keys, List.map_map]
  refine List.map_congr_left fun e he => h e.1 e.2 ?_
  exact Std.TreeMap.mem_toList_iff_getElem?_eq_some.mp he

/-- The records of a log stand for the states, in order. -/
theorem IsKeyed.map_state (h : t.IsKeyed) (hlog : t.exportLog = .ok log) :
    (log.map fun record => (⟨record.state⟩ : StateId)) = t.states.keys := by
  rw [← h.map_values]
  have hrecords : List.Forall₂ (fun x record => t.logRecord x = .ok record) t.states.values log :=
    mapM_eq_ok_iff.mp hlog
  clear hlog
  generalize t.states.values = states at hrecords
  induction hrecords with
  | nil => rfl
  | cons hrecord _ ih => rw [List.map_cons, List.map_cons, ih, (of_logRecord hrecord).1]

/-- The records of a log have the objects to which references lead from the states. -/
theorem IsKeyed.exists_mem_log_iff (h : t.IsKeyed) (hlog : t.exportLog = .ok log) :
    (∃ record ∈ log, record.objects.records.get? key = some r) ↔
      ∃ id, t.contains id = true ∧ (t.source treeClass).Leads id.key key ∧
        (t.source treeClass).record key = .ok (some r) := by
  obtain ⟨hfrom, hof⟩ := mem_of_mapM hlog
  have hget {x : SyntaxState} {record : LogRecord} (hrecord : t.logRecord x = .ok record) :
      record.objects.records.get? key = some r ↔ (t.source treeClass).Leads x.id.key key ∧
        (t.source treeClass).record key = .ok (some r) :=
    Source.get?_records_eq_some_iff (t.saveFrom_key x.id ▸ (of_logRecord hrecord).2)
  constructor
  · rintro ⟨record, hmem, hr⟩
    obtain ⟨x, hx, hrecord⟩ := hfrom record hmem
    obtain ⟨id, hid⟩ := (IdentMap.mem_values_iff ..).mp hx
    obtain rfl := h id x hid
    exact ⟨x.id, contains_iff.mpr ⟨x, hid⟩, (hget hrecord).mp hr⟩
  · rintro ⟨id, hid, hr⟩
    obtain ⟨x, hx⟩ := contains_iff.mp hid
    obtain rfl := h id x hx
    obtain ⟨record, hmem, hrecord⟩ := hof x ((IdentMap.mem_values_iff ..).mpr ⟨x.id, hx⟩)
    exact ⟨record, hmem, (hget hrecord).mpr hr⟩

/-- A tree has a log if it can be saved. -/
theorem IsConsistent.exists_exportLog_iff_exists_save (h : t.IsConsistent) :
    (∃ log, t.exportLog = .ok log) ↔ ∃ s, t.save = .ok s := by
  have hlog : (∃ log, t.exportLog = .ok log) ↔
      ∀ id, t.contains id = true → ∃ objects, t.saveFrom id.key = .ok objects := by
    refine exists_mapM_iff.trans ?_
    simp only [exists_logRecord_iff, IdentMap.mem_values_iff, contains_iff]
    constructor
    · rintro hall id ⟨x, hx⟩
      exact h.id hx ▸ hall x ⟨id, hx⟩
    · rintro hall x ⟨id, hx⟩
      exact (h.id hx).symm ▸ hall id ⟨x, hx⟩
  rw [hlog]
  show _ ↔ ∃ s, (t.source treeClass).save treeClass = .ok s
  simp only [saveFrom_key, Source.exists_save_iff, leads_treeClass_iff h]
  constructor
  · rintro hall key (rfl | ⟨id, hid, hlead⟩)
    · obtain ⟨r, -, hr⟩ := t.exists_record_tree
      exact ⟨r, hr⟩
    · exact hall id hid key hlead
  · intro hall id hid key hlead
    exact hall key (Or.inr ⟨id, hid, hlead⟩)

/-- The records of a log have the objects that a snapshot has, but for the tree. -/
theorem IsConsistent.exists_mem_log_iff (h : t.IsConsistent) (hlog : t.exportLog = .ok log)
    (hs : t.save = .ok s) : (∃ record ∈ log, record.objects.records.get? key = some r) ↔
      key ≠ treeClass ∧ s.records.get? key = some r := by
  have hget : s.records.get? key = some r ↔ (t.source treeClass).Leads treeClass key ∧
      (t.source treeClass).record key = .ok (some r) := Source.get?_records_eq_some_iff hs
  rw [h.isKeyed.exists_mem_log_iff hlog, hget, leads_treeClass_iff h]
  constructor
  · rintro ⟨id, hid, hlead, hr⟩
    exact ⟨ne_treeClass_of_leads hlead, Or.inr ⟨id, hid, hlead⟩, hr⟩
  · rintro ⟨hne, rfl | ⟨id, hid, hlead⟩, hr⟩
    · exact absurd rfl hne
    · exact ⟨id, hid, hlead, hr⟩

/-! ### The cursor at the last state -/

/-- The tree with its cursor at the last state and its counter right behind it. -/
def atLast (t : DerivationTree) : DerivationTree :=
  let last := t.states.keys.max?
  { t with
    current := last
    active := last
    nextId := last.elim 0 fun id => id.index + 1
    events := #[] }

theorem objectOf?_atLast (t : DerivationTree) {k : ObjectKey} (hk : k ≠ .tree) :
    t.atLast.objectOf? k = t.objectOf? k := by
  cases k with
  | tree => exact absurd rfl hk
  | @object kind id => cases kind <;> rfl

theorem contains_of_max? {last : StateId} (hlast : t.states.keys.max? = some last) :
    t.contains last = true ∧ ∀ id, t.contains id = true → id.index ≤ last.index := by
  obtain ⟨hmem, hle⟩ := Ident.mem_and_le_of_max? hlast
  exact ⟨mem_keys_states_iff.mp hmem, fun id hid => hle id (mem_keys_states_iff.mpr hid)⟩

theorem index_lt_nextId_atLast (hid : t.contains id = true) : id.index < t.atLast.nextId := by
  cases hlast : t.states.keys.max? with
  | none =>
    rw [List.max?_eq_none_iff] at hlast
    exact absurd (hlast ▸ mem_keys_states_iff.mpr hid) List.not_mem_nil
  | some last =>
    have hnext : t.atLast.nextId = last.index + 1 := congrArg (Option.elim · _ _) hlast
    rw [hnext]
    exact Nat.lt_succ_of_le ((contains_of_max? hlast).2 id hid)

theorem IsConsistent.nextId_atLast_le (h : t.IsConsistent) : t.atLast.nextId ≤ t.nextId := by
  cases hlast : t.states.keys.max? with
  | none =>
    have hnext : t.atLast.nextId = 0 := congrArg (Option.elim · _ _) hlast
    exact hnext ▸ Nat.zero_le _
  | some last =>
    have hnext : t.atLast.nextId = last.index + 1 := congrArg (Option.elim · _ _) hlast
    exact hnext ▸ h.fresh (contains_of_max? hlast).1

/-- The last state has no children. -/
theorem IsConsistent.childrenOf_of_max? (h : t.IsConsistent) {last : StateId}
    (hlast : t.states.keys.max? = some last) : t.childrenOf last = [] := by
  refine List.eq_nil_iff_forall_not_mem.mpr fun id hid => ?_
  have hparent := h.mem_childrenOf_iff.mp hid
  have hlt := (h.parent hparent).2
  obtain ⟨x, hx, -⟩ := Option.bind_eq_some_iff.mp hparent
  exact Nat.not_lt.mpr ((contains_of_max? hlast).2 id (contains_iff.mpr ⟨x, hx⟩)) hlt

theorem IsConsistent.atLast (h : t.IsConsistent) : t.atLast.IsConsistent where
  toIsLinked := h.toIsLinked.congr rfl rfl
  fresh hid := index_lt_nextId_atLast hid
  added hid := absurd hid (by simp [DerivationTree.atLast])
  empty hempty := by
    have hnone : t.states.keys.max? = none := by
      rw [List.max?_eq_none_iff, ← List.isEmpty_iff, Std.TreeMap.isEmpty_keys]
      exact hempty
    exact ⟨hnone, hnone⟩
  cursor hne := by
    cases hlast : t.states.keys.max? with
    | none =>
      rw [List.max?_eq_none_iff, ← List.isEmpty_iff, Std.TreeMap.isEmpty_keys] at hlast
      exact absurd (hlast.symm.trans hne) (by simp)
    | some last =>
      have hcontains := (contains_of_max? hlast).1
      refine ⟨last, last, hlast, hlast, hcontains, hcontains, h.childrenOf_of_max? hlast, ?_⟩
      have hstates : t.atLast.states = t.states := rfl
      rw [branch_congr hstates, h.mem_branch_iff]
      exact ⟨hcontains, .refl _⟩

theorem IsStorable.atLast (h : t.IsStorable) (ht : t.IsConsistent) : t.atLast.IsStorable where
  nextId_lt := Nat.lt_of_le_of_lt ht.nextId_atLast_le h.nextId_lt
  ordered := h.ordered

theorem record_source_atLast (t : DerivationTree) (hkey : key ≠ treeClass) :
    (t.atLast.source treeClass).record key = (t.source treeClass).record key := by
  have hobject : t.atLast.object? key = t.object? key := by
    rw [object?, object?]
    cases hk : ObjectKey.parse? key with
    | none => rfl
    | some k =>
      refine objectOf?_atLast t fun htree => hkey ?_
      exact ObjectKey.eq_treeClass_of_read? (htree ▸ (Option.filter_eq_some_iff.mp hk).1)
  have hrecord : t.atLast.record key = t.record key := by
    rw [DerivationTree.record, DerivationTree.record, hobject]
  exact (t.atLast.record_source .tree key).trans (hrecord ▸ (t.record_source .tree key).symm)

/-- Where the cursor is does not matter for the log. -/
theorem exportLog_atLast (hlog : t.exportLog = .ok log) : t.atLast.exportLog = .ok log := by
  refine mapM_eq_ok_iff.mpr ((mapM_eq_ok_iff.mp hlog).imp fun x e he => ?_)
  obtain ⟨roots, hroots, he⟩ := bind_eq_ok_iff.mp he
  obtain ⟨groups, hgroups, he⟩ := bind_eq_ok_iff.mp he
  obtain ⟨objects, hobjects, he⟩ := bind_eq_ok_iff.mp he
  refine bind_eq_ok_iff.mpr ⟨roots, hroots, bind_eq_ok_iff.mpr ⟨groups, hgroups, bind_eq_ok_iff.mpr
    ⟨objects, ?_, he⟩⟩⟩
  rw [saveFrom_key] at hobjects ⊢
  exact Source.save_congr hobjects fun key hlead => t.record_source_atLast
    (ne_treeClass_of_leads hlead)

/-- The record of the tree that is made of a log. -/
theorem record_atLast (t : DerivationTree) :
    (t.atLast.source treeClass).record treeClass = .ok (some (treeRecord t.states.keys)) := by
  have hrecord : (Object.tree t.states.keys t.atLast.current t.atLast.nextId).record treeClass =
      .ok (treeRecord t.states.keys) := by
    rw [record_tree]
    unfold treeRecord atLast
    cases t.states.keys.max? <;> rfl
  exact (t.atLast.record_source .tree treeClass).trans (congrArg (Except.map some) hrecord)

/-- What is made of a log is the snapshot of the tree with its cursor at the last state. -/
theorem IsConsistent.save_atLast (h : t.IsConsistent) (hlog : t.exportLog = .ok log) :
    t.atLast.save = .ok (logSnapshot log) := by
  have hlog' := exportLog_atLast hlog
  obtain ⟨s, hs⟩ := h.atLast.exists_exportLog_iff_exists_save.mp ⟨log, hlog'⟩
  have hroot : s.root = treeClass := (Source.get?_records_of_save hs).1
  have hmem {key : String} {r : Record} : (key, r) ∈ log.flatMap (·.objects.records.entries) ↔
      key ≠ treeClass ∧ s.records.get? key = some r := by
    rw [← h.atLast.exists_mem_log_iff hlog' hs, List.mem_flatMap]
    simp only [Dict.get?_eq_some_iff]
  -- apart from the tree, the entries of the log hold what the snapshot holds
  have hrecords : s.records = (logSnapshot log).records := by
    refine Dict.ext_get? fun key => Option.ext fun r => ?_
    show _ ↔ ((Dict.ofList (log.flatMap (·.objects.records.entries))).insert treeClass
      (treeRecord _)).get? key = some r
    rw [Dict.get?_insert, h.isKeyed.map_state hlog]
    split
    · next hkey =>
      rw [hkey, Source.get?_records_eq_some_iff hs, and_iff_right (Source.Leads.refl treeClass),
        record_atLast]
      exact ⟨fun h => Except.ok.inj h, fun h => congrArg Except.ok h⟩
    · next hkey =>
      rw [Dict.get?_ofList_eq_some_iff_of_agree, hmem, and_iff_right hkey]
      intro r r' hr hr'
      exact Option.some.inj ((hmem.mp hr).2.symm.trans (hmem.mp hr').2)
  obtain ⟨root, records⟩ := s
  obtain rfl : root = treeClass := hroot
  obtain rfl : records = _ := hrecords
  exact hs

/-! ### What a log says -/

/-- The tree `t'` has the objects and the lists of children of `t`. Its cursor is at the last state,
and its counter is right behind it. -/
structure IsAtLast (t t' : DerivationTree) : Prop where
  objectOf?_eq {k : ObjectKey} (hk : k ≠ .tree) : t'.objectOf? k = t.objectOf? k
  childrenOf_eq (id : StateId) : t'.childrenOf id = t.childrenOf id
  counter_eq {kind : Kind} (hkind : kind ≠ .state) : t'.counter kind = t.counter kind
  current : t'.current = t.states.keys.max?
  active : t'.active = t'.current
  nextId : t'.nextId = t.states.keys.max?.elim 0 fun id => id.index + 1

/-- The log of a tree says what its snapshot says. -/
structure IsLoggedAsSaved (t : DerivationTree) : Prop where
  exists_iff : (∃ log, t.exportLog = .ok log) ↔ ∃ s, t.save = .ok s
  /-- The records of the log have the records of the snapshot, but for that of the tree. -/
  exists_mem_iff {log : List LogRecord} {s : Snapshot} (hlog : t.exportLog = .ok log)
    (hs : t.save = .ok s) {key : String} {r : Record} :
    (∃ record ∈ log, record.objects.records.get? key = some r) ↔
      key ≠ treeClass ∧ s.records.get? key = some r
  /-- No two of them say different things of one object. -/
  agree {log : List LogRecord} (hlog : t.exportLog = .ok log) {e e' : LogRecord} (he : e ∈ log)
    (he' : e' ∈ log) {key : String} {r r' : Record} (hr : e.objects.records.get? key = some r)
    (hr' : e'.objects.records.get? key = some r') : r = r'
  /-- The tree of the snapshot shows what was saved, and the tree of the log is the same, but for
  the cursor and the counter. -/
  restored {log : List LogRecord} {s : Snapshot} (hlog : t.exportLog = .ok log)
    (hs : t.save = .ok s) :
    ∃ t' t'', ofSnapshot s = .ok t' ∧ ofLog log = .ok t'' ∧ t.ShowsAs t' ∧ t'.IsAtLast t''

theorem firstTerminal_of_childrenOf_eq_nil (h : t.childrenOf id = []) :
    t.firstTerminal id = id := by
  rw [firstTerminal]
  cases t.children.size with
  | zero => rfl
  | succ n => rw [firstTerminalWithin, h]

/-- Two trees that were loaded into new ones from snapshots with the same objects. -/
theorem IsRestoration.isAtLast {s' : Snapshot} {t' t'' : DerivationTree}
    (h : IsRestoration {} t s t') (h' : IsRestoration {} t.atLast s' t'') (ht : t.IsConsistent)
    (hs : t.save = .ok s) (hs' : t.atLast.save = .ok s') (ht' : t'.IsConsistent)
    (ht'' : t''.IsConsistent)
    (hcontains : ∀ k : ObjectKey,
      k ≠ .tree → s'.records.contains k.text = s.records.contains k.text) :
    t'.IsAtLast t'' := by
  have hobject {k : ObjectKey} (hk : k ≠ .tree) : t''.objectOf? k = t'.objectOf? k := by
    cases hc : s.records.contains k.text with
    | true => rw [h.saved hk hc, h'.saved hk ((hcontains k hk).trans hc), objectOf?_atLast t hk]
    | false => rw [h.others hk hc, h'.others hk ((hcontains k hk).trans hc)]
  have hstate (id : StateId) : t''.state? id = t'.state? id :=
    Option.map_injective (fun _ _ => Object.state.inj) (hobject (k := .object id) (by simp))
  have hchildren := ht'.childrenOf_congr ht''.toIsLinked fun id => by rw [parent?, hstate, parent?]
  have hkeys : t'.states.keys = t.states.keys := h.keys_states hs
  have hcurrent : t''.current = t'.states.keys.max? := by
    rw [h'.current, hkeys]
    rfl
  refine ⟨hobject, hchildren, fun {kind} hkind => ?_, hcurrent, ?_, ?_⟩
  · have hle (n : Nat) : t''.counter kind ≤ n ↔ t'.counter kind ≤ n := by
      rw [h'.counter_le_iff, h.counter_le_iff]
      refine and_congr_right fun _ => forall_congr' fun k => ?_
      by_cases hk : k = .tree
      · -- the record of a tree reserves states only
        have hreserved {u : DerivationTree} (object : Object) (hu : u.objectOf? k = some object) :
            object.reserved kind ≤ n := by
          subst hk
          obtain rfl := Option.some.inj hu
          cases kind <;> first | exact absurd rfl hkind | exact Nat.zero_le _
        exact iff_of_true (fun object _ => hreserved object) fun object _ => hreserved object
      · rw [hcontains k hk, objectOf?_atLast t hk]
    exact Nat.le_antisymm ((hle _).mpr (Nat.le_refl _)) ((hle _).mp (Nat.le_refl _))
  · rw [h'.active]
    cases hlast : t''.current with
    | none => rfl
    | some last =>
      have hmax : t''.states.keys.max? = some last := by
        rw [h'.keys_states hs', ← hlast, hcurrent, hkeys]
        rfl
      rw [Option.map_some, firstTerminal_of_childrenOf_eq_nil (ht''.childrenOf_of_max? hmax)]
  · rw [h'.nextId_eq hs' ht.atLast, hkeys]
    exact Nat.max_eq_right (Nat.zero_le _)

/-- Every tree is logged as it is saved. -/
theorem isLoggedAsSaved_of_evolves (h : Evolves {} t) (ht : t.IsStorable) : t.IsLoggedAsSaved := by
  have hconsistent := (h.isConsistent_and_le isConsistent_empty).1
  refine ⟨hconsistent.exists_exportLog_iff_exists_save, ?_, ?_, ?_⟩
  · intro log s hlog hs key r
    exact hconsistent.exists_mem_log_iff hlog hs
  · intro log hlog e e' he he' key r r' hr hr'
    obtain ⟨id, -, -, hrecord⟩ := (hconsistent.isKeyed.exists_mem_log_iff hlog).mp ⟨e, he, hr⟩
    obtain ⟨id, -, -, hrecord'⟩ := (hconsistent.isKeyed.exists_mem_log_iff hlog).mp ⟨e', he', hr'⟩
    exact Option.some.inj (Except.ok.inj (hrecord.symm.trans hrecord'))
  · intro log s hlog hs
    have hs' := hconsistent.save_atLast hlog
    obtain ⟨t', loaded, hload, hrestoration⟩ :=
      exists_load_of_save isConsistent_empty.toIsOrdered hconsistent ht hs
    obtain ⟨t'', loaded', hload', hrestoration'⟩ :=
      exists_load_of_save isConsistent_empty.toIsOrdered hconsistent.atLast
        (ht.atLast hconsistent) hs'
    have ht' := (isConsistent_empty.load hconsistent hs hload).1
    have ht'' := (isConsistent_empty.load hconsistent.atLast hs' hload').1
    refine ⟨t', t'', map_eq_ok_iff.mpr ⟨_, hload, rfl⟩, ofLog_eq_ok_iff.mpr ⟨loaded', hload'⟩,
      hrestoration.showsAs hs hconsistent.toIsLinked ht'.toIsLinked,
      hrestoration.isAtLast hrestoration' hconsistent hs hs' ht' ht'' fun k hk => ?_⟩
    have hkey : k.text ≠ treeClass := fun htext => hk (ObjectKey.eq_of_text_eq k .tree htext)
    rw [Bool.eq_iff_iff, Dict.contains_iff, Dict.contains_iff]
    refine exists_congr fun r => ?_
    have hmem : (∃ record ∈ log, record.objects.records.get? k.text = some r) ↔ _ :=
      hconsistent.exists_mem_log_iff hlog hs
    have hmem' : (∃ record ∈ log, record.objects.records.get? k.text = some r) ↔ _ :=
      hconsistent.atLast.exists_mem_log_iff (exportLog_atLast hlog) hs'
    rw [and_iff_right hkey] at hmem hmem'
    exact hmem'.symm.trans hmem

/-- A tree of three states that come one from the other, of which the last was removed again. The
cursor is at the first. -/
def prunedTree : DerivationTree :=
  let step (message : String) : Step := { roots := [], message, type := .scan }
  let t := (({} : DerivationTree).addStep (step "first") none).1
  let t := (t.addStep (step "second") (some ⟨0⟩)).1
  let t := (t.addStep (step "third") (some ⟨1⟩)).1
  (t.removeStates [⟨2⟩]).1.firstStep.1

theorem evolves_prunedTree : Evolves {} prunedTree :=
  (((((Evolves.refl {}).addStep _ _).addStep _ _).addStep _ _).removeStates _).firstStep

/-- When it is logged and read again, the cursor is at the second state, and the number of the third
is free. -/
theorem exists_log_prunedTree : ∃ log t'', prunedTree.exportLog = .ok log ∧ ofLog log = .ok t'' ∧
    prunedTree.current = some ⟨0⟩ ∧ prunedTree.nextId = 3 ∧ t''.current = some ⟨1⟩ ∧
    t''.nextId = 2 := by
  have hstorable : prunedTree.IsStorable := by
    have hempty : prunedTree.store.constituents.isEmpty = true := by decide +kernel
    refine ⟨show prunedTree.nextId < Ident.bound by decide +kernel, fun {id c} hc => ?_⟩
    exact absurd ((Std.TreeMap.getElem?_of_isEmpty hempty).symm.trans hc) (by simp)
  have h := isLoggedAsSaved_of_evolves evolves_prunedTree hstorable
  obtain ⟨s, hs⟩ := exists_save_of_isClosed (t := prunedTree) (by decide +kernel)
  obtain ⟨log, hlog⟩ := h.exists_iff.mpr ⟨s, hs⟩
  obtain ⟨t', t'', -, hread, hshows, hlast⟩ := h.restored hlog hs
  have hkeys : t'.states.keys = prunedTree.states.keys := keys_congr fun id => by
    have hcontains : t'.contains id = prunedTree.contains id := by
      rw [Bool.eq_iff_iff, contains_iff, contains_iff, hshows.state?]
    exact hcontains
  have hmax : prunedTree.states.keys.max? = some ⟨1⟩ := by decide +kernel
  refine ⟨log, t'', hlog, hread, by decide +kernel, by decide +kernel, ?_, ?_⟩
  · rw [hlast.current, hkeys, hmax]
  · rw [hlast.nextId, hkeys, hmax]
    rfl

end DerivationTree
end MinimalistGrammar
