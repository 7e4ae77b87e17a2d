import MinimalistGrammar.Proofs.Archive.Relinking
import MinimalistGrammar.Proofs.Archive.Restoring
import MinimalistGrammar.Proofs.Derivation.Shown
import MinimalistGrammar.Proofs.Snapshot.Loading

/-!
# Loading a saved derivation tree

The snapshot of a derivation tree has the tree with its cursor, and all states. When it is loaded
into any tree, this has exactly the states and the cursor of the tree that was saved, whatever it
had before, and then they are linked.

## Main definitions

* `DerivationTree.IsLive` — the tree, its states, and all that the states show.

## Main results

* `DerivationTree.exists_object_of_save` — the records of a saved tree are those of its objects.
* `DerivationTree.mem_liveKeys_iff` — the keys of what is live.
* `DerivationTree.exists_relink_of_load` — the states, the cursor and the counter of a loaded tree.
-/

namespace MinimalistGrammar

namespace DerivationTree

variable {t t' v : DerivationTree} {s : Snapshot} {key : String} {r : Record} {object : Object}
  {id : StateId} {x : SyntaxState}

/-! ### Saved objects -/

theorem IsKeyed.objectKey_of_objectOf? (h : t.IsKeyed) {key : ObjectKey}
    (hobject : t.objectOf? key = some object) : object.objectKey = key := by
  cases key with
  | tree => exact (Option.some.inj hobject) ▸ rfl
  | @object k id =>
    cases k <;> obtain ⟨a, ha, rfl⟩ := Option.map_eq_some_iff.mp hobject
    · exact congrArg ObjectKey.object (h _ _ ha)
    · rfl
    · rfl
    · rfl

/-- The graph of a tree has the records of its objects under their plain keys. -/
theorem isPlainKey_of_record_source (h : (v.source treeClass).record key = .ok (some r)) :
    isPlainKey key = true ∧ v.record key = .ok (some r) := by
  simp only [source] at h
  split at h
  · next hkey =>
    rcases Bool.or_eq_true .. ▸ hkey with hkey | hkey
    · exact ⟨eq_of_beq hkey ▸ rfl, h⟩
    · exact ⟨hkey, h⟩
  · exact absurd h (by simp)

/-- The records of a tree are those of its objects, under their plain keys. -/
theorem exists_object_of_record (hr : (v.source treeClass).record key = .ok (some r)) :
    ∃ (k : ObjectKey) (object : Object), k.text = key ∧ ObjectKey.parse? key = some k ∧
      v.objectOf? k = some object ∧ object.record key = .ok r := by
  obtain ⟨hplain, hrecord⟩ := isPlainKey_of_record_source hr
  obtain ⟨k, hk, htext⟩ := (Option.any_eq_true ..).mp hplain
  rw [record, object?, hk, Option.bind_some] at hrecord
  cases hobject : v.objectOf? k with
  | none => simp [hobject] at hrecord
  | some object =>
    rw [hobject] at hrecord
    obtain ⟨r', hr', heq⟩ := map_eq_ok_iff.mp hrecord
    obtain rfl := Option.some.inj heq
    exact ⟨k, object, eq_of_beq htext, hk, hobject, hr'⟩

/-- So are those of a saved tree. -/
theorem exists_object_of_save (hs : v.save = .ok s) (hr : s.records.get? key = some r) :
    ∃ (k : ObjectKey) (object : Object), k.text = key ∧ ObjectKey.parse? key = some k ∧
      v.objectOf? k = some object ∧ object.record key = .ok r :=
  exists_object_of_record ((Source.get?_records_of_save hs).2 hr)

/-! ### Objects made of records -/

theorem objectKey_of_stub {className : String} (h : Object.stub className key = .ok object) :
    ObjectKey.parse? key = some object.objectKey := by
  rw [Object.stub] at h
  cases hkey : ObjectKey.parse? key with
  | none => simp [hkey] at h
  | some k =>
    simp only [hkey] at h
    split at h
    · exact absurd h (by simp)
    · split at h
      · rw [← Except.ok.inj h, Object.objectKey_blank]
      · exact absurd h (by simp)

theorem IsKeyed.objectKey_of_baseObject (h : t.IsKeyed) {reuse : Bool}
    (hbase : t.baseObject key r reuse = .ok object) :
    ObjectKey.parse? key = some object.objectKey := by
  rw [baseObject] at hbase
  split at hbase
  · next live hlive =>
    obtain rfl := Except.ok.inj hbase
    split at hlive
    · obtain ⟨k, hk, hobject⟩ := Option.bind_eq_some_iff.mp hlive
      rw [hk, h.objectKey_of_objectOf? hobject]
    · exact absurd hlive (by simp)
  · exact objectKey_of_stub hbase

/-- An object that is made of a record is the one with its key. -/
theorem IsKeyed.objectKey_of_stageObject (h : t.IsKeyed) {reuse : Bool}
    (hstage : t.stageObject key r reuse = .ok object) :
    ObjectKey.parse? key = some object.objectKey := by
  obtain ⟨base, hbase, hfill⟩ := bind_eq_ok_iff.mp hstage
  split at hfill
  · rw [h.objectKey_of_baseObject hbase, Object.objectKey_fill hfill]
  · exact absurd hfill (by simp)

/-- An object that is made of the record of a saved state or tree is what was saved. -/
theorem IsOrdered.objectOf?_of_stageObject (h : t.IsOrdered) (hv : v.IsOrdered)
    (hs : v.save = .ok s) (hr : s.records.get? key = some r) {reuse : Bool}
    (hstage : t.stageObject key r reuse = .ok object) :
    object.objectKey.text = key ∧
      ((object.objectKey = .tree ∨ ∃ id : StateId, object.objectKey = .object id) →
        v.objectOf? object.objectKey = some object) := by
  obtain ⟨k, saved, htext, hk, hsaved, hrecord⟩ := exists_object_of_save hs hr
  have hkey := h.isKeyed.objectKey_of_stageObject hstage
  obtain rfl := Option.some.inj (hk.symm.trans hkey)
  refine ⟨htext, fun hkind => ?_⟩
  obtain ⟨base, hbase, hfill⟩ := bind_eq_ok_iff.mp hstage
  have hbase := Option.some.inj (hk.symm.trans (h.isKeyed.objectKey_of_baseObject hbase))
  have hsavedKey := hv.isKeyed.objectKey_of_objectOf? hsaved
  split at hfill
  · rw [hsaved]
    rcases hkind with htree | ⟨id, hid⟩
    · obtain ⟨states, current, nextId, rfl⟩ :=
        Object.exists_tree_of_objectKey (hbase.symm.trans htree)
      obtain ⟨states', current', nextId', rfl⟩ :=
        Object.exists_tree_of_objectKey (hsavedKey.trans htree)
      rw [Object.fill_tree_eq hrecord hfill]
    · obtain ⟨x, rfl, hx⟩ := Object.exists_state_of_objectKey (hbase.symm.trans hid)
      obtain ⟨y, rfl, hy⟩ := Object.exists_state_of_objectKey (hsavedKey.trans hid)
      rw [Object.fill_state_eq hrecord hfill, hx, ← hy]
  · exact absurd hfill (by simp)

/-! ### Objects put into the tree -/

section install

variable {objects : List Object}

theorem state?_putObject_of_ne (t : DerivationTree) (hne : ∀ x, object = .state x → x.id ≠ id) :
    (t.putObject object).state? id = t.state? id := by
  cases object with
  | state x => exact (IdentMap.getElem?_insert ..).trans (if_neg (hne x rfl).symm)
  | _ => rfl

theorem state?_foldl_putObject_of_ne (hne : ∀ x, .state x ∈ objects → x.id ≠ id) :
    (objects.foldl putObject t).state? id = t.state? id := by
  induction objects generalizing t with
  | nil => rfl
  | cons object objects ih =>
    rw [List.foldl_cons, ih fun x hx => hne x (List.mem_cons_of_mem _ hx)]
    exact state?_putObject_of_ne t fun x hx => hne x (hx ▸ List.mem_cons_self ..)

/-- A state that is put into the tree stays, if its key comes only once. -/
theorem state?_foldl_putObject (hdistinct : objects.Pairwise (·.objectKey ≠ ·.objectKey))
    (hx : .state x ∈ objects) : (objects.foldl putObject t).state? x.id = some x := by
  induction objects generalizing t with
  | nil => exact absurd hx (by simp)
  | cons object objects ih =>
    obtain ⟨hhead, htail⟩ := List.pairwise_cons.mp hdistinct
    rw [List.foldl_cons]
    rcases List.mem_cons.mp hx with rfl | hx
    · rw [state?_foldl_putObject_of_ne fun y hy heq => hhead _ hy
        (congrArg ObjectKey.object heq.symm)]
      exact (IdentMap.getElem?_insert ..).trans (if_pos rfl)
    · exact ih htail hx

theorem current_putObject_of_ne (t : DerivationTree) (hne : object.objectKey ≠ .tree) :
    (t.putObject object).current = t.current := by
  cases object with
  | tree => exact absurd rfl hne
  | _ => rfl

theorem current_foldl_putObject_of_ne (hne : ∀ object ∈ objects, object.objectKey ≠ .tree) :
    (objects.foldl putObject t).current = t.current := by
  induction objects generalizing t with
  | nil => rfl
  | cons object objects ih =>
    rw [List.foldl_cons, ih fun object hobject => hne object (List.mem_cons_of_mem _ hobject)]
    exact current_putObject_of_ne t (hne object (List.mem_cons_self ..))

theorem current_foldl_putObject (hdistinct : objects.Pairwise (·.objectKey ≠ ·.objectKey))
    {states : List StateId} {current : Option StateId} {nextId : Nat}
    (htree : .tree states current nextId ∈ objects) :
    (objects.foldl putObject t).current = current := by
  induction objects generalizing t with
  | nil => exact absurd htree (by simp)
  | cons object objects ih =>
    obtain ⟨hhead, htail⟩ := List.pairwise_cons.mp hdistinct
    rw [List.foldl_cons]
    rcases List.mem_cons.mp htree with rfl | htree
    · rw [current_foldl_putObject_of_ne fun object hobject => (hhead object hobject).symm]
      rfl
    · exact ih htail htree

/-- The counter does not go back, and subscribers learn nothing yet. -/
theorem nextId_le_foldl_putObject (t : DerivationTree) (objects : List Object) :
    t.nextId ≤ (objects.foldl putObject t).nextId ∧
      (objects.foldl putObject t).events = t.events := by
  induction objects generalizing t with
  | nil => exact ⟨Nat.le_refl _, rfl⟩
  | cons object objects ih =>
    obtain ⟨hle, hevents⟩ := ih (t.putObject object)
    rw [List.foldl_cons, hevents]
    refine ⟨Nat.le_trans ?_ hle, ?_⟩
    · cases object with
      | tree | state => exact Nat.le_max_left ..
      | _ => exact Nat.le_refl _
    · cases object <;> rfl

end install

/-! ### Objects that are dropped -/

section discard

variable {keys : List String}

theorem discard_text (t : DerivationTree) (key : ObjectKey) :
    Target.discard t key.text = t.dropObject key := by
  show (ObjectKey.read? key.text).elim t t.dropObject = _
  rw [ObjectKey.read?_text]
  rfl

theorem state?_dropObject (t : DerivationTree) (key : ObjectKey) (id : StateId) :
    (t.dropObject key).state? id = if id.key = key.text then none else t.state? id := by
  split
  · next h =>
    obtain rfl := ObjectKey.eq_of_text_eq (.object id) key h
    exact (IdentMap.getElem?_erase ..).trans (if_pos rfl)
  · next h =>
    cases key with
    | tree => rfl
    | @object k id' =>
      cases k with
      | state =>
        refine (IdentMap.getElem?_erase ..).trans (if_neg ?_)
        rintro rfl
        exact h rfl
      | _ => rfl

theorem state?_foldl_discard (hkeys : ∀ key ∈ keys, ∃ k : ObjectKey, k.text = key)
    (t : DerivationTree) (id : StateId) :
    (keys.foldl Target.discard t).state? id = if id.key ∈ keys then none else t.state? id := by
  induction keys generalizing t with
  | nil => rfl
  | cons key keys ih =>
    obtain ⟨k, rfl⟩ := hkeys key (List.mem_cons_self ..)
    rw [List.foldl_cons, ih fun key hkey => hkeys key (List.mem_cons_of_mem _ hkey), discard_text,
      state?_dropObject]
    by_cases hid : id.key = k.text <;> simp [hid]

/-- Dropping objects touches neither the cursor nor the counter. -/
theorem dropObject_eq (t : DerivationTree) (key : ObjectKey) :
    (t.dropObject key).current = t.current ∧ (t.dropObject key).nextId = t.nextId ∧
      (t.dropObject key).events = t.events := by
  cases key with
  | tree => exact ⟨rfl, rfl, rfl⟩
  | @object k id => cases k <;> exact ⟨rfl, rfl, rfl⟩

theorem foldl_discard_eq (hkeys : ∀ key ∈ keys, ∃ k : ObjectKey, k.text = key)
    (t : DerivationTree) :
    (keys.foldl Target.discard t).current = t.current ∧
      (keys.foldl Target.discard t).nextId = t.nextId ∧
      (keys.foldl Target.discard t).events = t.events := by
  induction keys generalizing t with
  | nil => exact ⟨rfl, rfl, rfl⟩
  | cons key keys ih =>
    obtain ⟨k, rfl⟩ := hkeys key (List.mem_cons_self ..)
    obtain ⟨hcurrent, hnext, hevents⟩ :=
      ih (fun key hkey => hkeys key (List.mem_cons_of_mem _ hkey))
      (t.dropObject k)
    obtain ⟨hcurrent', hnext', hevents'⟩ := t.dropObject_eq k
    rw [List.foldl_cons, discard_text]
    exact ⟨hcurrent.trans hcurrent', hnext.trans hnext', hevents.trans hevents'⟩

/-- The objects of a tree that are in use: the tree, its states, and all that the states show. -/
def IsLive (t : DerivationTree) : ObjectKey → Prop
  | .tree => True
  | .object (k := .state) id => t.contains id = true
  | .object (k := .constituent) id => t.shown.has (.constituent id) = true
  | .object (k := .feature) id => t.shown.has (.feature id) = true
  | .object (k := .group) id => t.shown.groups.contains id = true

theorem text_mem_liveKeys_iff {k : ObjectKey} : k.text ∈ t.liveKeys ↔ t.IsLive k := by
  simp only [liveKeys, List.cons_append, List.mem_cons, List.mem_append, List.mem_map]
  constructor
  · rintro (h | ((⟨id, hid, h⟩ | ⟨id, hid, h⟩) | ⟨id, hid, h⟩) | ⟨id, hid, h⟩)
    · obtain rfl : k = .tree := ObjectKey.eq_of_text_eq k .tree h
      trivial
    · obtain rfl : .object id = k := ObjectKey.eq_of_text_eq (.object id) k h
      exact mem_keys_states_iff.mp hid
    all_goals
      obtain rfl : .object id = k := ObjectKey.eq_of_text_eq (.object id) k h
      exact Std.TreeSet.contains_iff_mem.mpr (Std.TreeSet.mem_toList.mp hid)
  · intro h
    cases k with
    | tree => exact .inl rfl
    | @object kind id =>
      refine .inr ?_
      cases kind with
      | state => exact .inl (.inl (.inl ⟨id, mem_keys_states_iff.mpr h, rfl⟩))
      | constituent =>
        exact .inl
          (.inl (.inr ⟨id, Std.TreeSet.mem_toList.mpr (Std.TreeSet.contains_iff_mem.mp h), rfl⟩))
      | feature =>
        exact .inl (.inr ⟨id, Std.TreeSet.mem_toList.mpr (Std.TreeSet.contains_iff_mem.mp h), rfl⟩)
      | group =>
        exact .inr ⟨id, Std.TreeSet.mem_toList.mpr (Std.TreeSet.contains_iff_mem.mp h), rfl⟩

/-- The live keys are those of what is live, and are plain. -/
theorem mem_liveKeys_iff : key ∈ t.liveKeys ↔ ∃ k : ObjectKey, k.text = key ∧ t.IsLive k := by
  constructor
  · intro hkey
    obtain ⟨k, rfl⟩ : ∃ k : ObjectKey, k.text = key := by
      simp only [liveKeys, List.cons_append, List.mem_cons, List.mem_append, List.mem_map] at hkey
      rcases hkey with rfl | ((⟨id, -, rfl⟩ | ⟨id, -, rfl⟩) | ⟨id, -, rfl⟩) | ⟨id, -, rfl⟩
      · exact ⟨.tree, rfl⟩
      all_goals exact ⟨.object id, rfl⟩
    exact ⟨k, rfl, text_mem_liveKeys_iff.mp hkey⟩
  · rintro ⟨k, rfl, hk⟩
    exact text_mem_liveKeys_iff.mpr hk

theorem exists_text_of_mem_liveKeys (hkey : key ∈ t.liveKeys) : ∃ k : ObjectKey, k.text = key :=
  (mem_liveKeys_iff.mp hkey).imp fun _ h => h.1

theorem key_mem_liveKeys_iff : id.key ∈ t.liveKeys ↔ t.contains id = true :=
  text_mem_liveKeys_iff (k := .object id)

end discard

/-! ### The whole load -/

theorem foldl_finish_of_notMem {keys : List String} (h : treeClass ∉ keys) :
    keys.foldl Target.finish t = t := by
  induction keys with
  | nil => rfl
  | cons key keys ih =>
    obtain ⟨hkey, hkeys⟩ := not_or.mp fun hor => h (List.mem_cons.mpr hor)
    rw [List.foldl_cons]
    refine Eq.trans (congrArg (keys.foldl Target.finish) ?_) (ih hkeys)
    exact if_neg (by simpa using Ne.symm hkey)

/-- The states are linked once, when the tree is finished. -/
theorem foldl_finish {keys : List String} (hdistinct : keys.Nodup) (h : treeClass ∈ keys) :
    keys.foldl Target.finish t = t.relink := by
  obtain ⟨before, after, rfl⟩ := List.append_of_mem h
  obtain ⟨-, hafter, hapart⟩ := List.nodup_append.mp hdistinct
  have hbefore : treeClass ∉ before := fun hmem => hapart _ hmem _ (List.mem_cons_self ..) rfl
  rw [List.foldl_append, foldl_finish_of_notMem hbefore, List.foldl_cons]
  exact foldl_finish_of_notMem (List.nodup_cons.mp hafter).1

section load

variable {records : List (String × Record)} {objects : List (String × Object)}

/-- What holds of the objects that are made when a saved tree is loaded. -/
structure IsRestored (v : DerivationTree) (objects : List (String × Object)) : Prop where
  text {key : String} {object : Object} (h : (key, object) ∈ objects) : object.objectKey.text = key
  distinct : (objects.map (·.2)).Pairwise (·.objectKey ≠ ·.objectKey)
  tree : ∃ states nextId, .tree states v.current nextId ∈ objects.map (·.2)
  state {x : SyntaxState} (h : .state x ∈ objects.map (·.2)) : v.state? x.id = some x
  mem {id : StateId} {x : SyntaxState} (h : v.state? id = some x) : .state x ∈ objects.map (·.2)

/-- The tree and all its states are found in its snapshot. -/
theorem mem_keys_of_isWalk (hs : v.save = .ok s)
    (hwalk : Source.IsWalk s.source treeClass records) :
    treeClass ∈ records.map (·.1) ∧ ∀ {id : StateId}, v.contains id = true →
      id.key ∈ records.map (·.1) := by
  obtain ⟨r, hr⟩ := hwalk.root
  refine ⟨List.mem_map_of_mem hr, fun {id} hid => ?_⟩
  have hget := Except.ok.inj ((Dict.record_source s.records treeClass).symm.trans (hwalk.record hr))
  obtain ⟨k, object, htext, -, hobject, hrecord⟩ := exists_object_of_save hs hget
  obtain rfl := ObjectKey.eq_of_text_eq k .tree htext
  obtain rfl := Option.some.inj hobject
  obtain ⟨-, hstates, -⟩ := Object.holds_of_record_tree hrecord
  obtain ⟨ref, href, hkey⟩ := hstates.exists_mem_references (Object.refersTo_identList _)
      (List.mem_map_of_mem (mem_keys_states_iff.mpr hid))
  obtain ⟨r', hr'⟩ := hwalk.closed hr href
  exact hkey ▸ List.mem_map_of_mem hr'

theorem IsOrdered.isRestored (h : t.IsOrdered) (hv : v.IsOrdered) (hs : v.save = .ok s)
    {existing : Std.TreeSet String}
    (hwalk : Source.IsWalk s.source treeClass records)
    (hstaged : IsStaged t existing records objects) : v.IsRestored objects := by
  have hobject {key : String} {object : Object} (hmem : (key, object) ∈ objects) :
      object.objectKey.text = key ∧
        ((object.objectKey = .tree ∨ ∃ id : StateId, object.objectKey = .object id) →
          v.objectOf? object.objectKey = some object) := by
    obtain ⟨r, hr, hstage⟩ := hstaged.exists_record hmem
    have hget := Except.ok.inj ((Dict.record_source s.records key).symm.trans (hwalk.record hr))
    exact h.objectOf?_of_stageObject hv hs hget hstage
  obtain ⟨htree, hstates⟩ := mem_keys_of_isWalk hs hwalk
  -- an object was made for every key that was found
  have hmade (k : ObjectKey) (hk : k.text ∈ records.map (·.1)) :
      ∃ object, (k.text, object) ∈ objects ∧ object.objectKey = k := by
    rw [← hstaged.keys] at hk
    obtain ⟨⟨key, object⟩, hmem, hkey⟩ := List.mem_map.mp hk
    obtain rfl : key = k.text := hkey
    exact ⟨object, hmem, ObjectKey.eq_of_text_eq object.objectKey k (hobject hmem).1⟩
  refine ⟨fun hmem => (hobject hmem).1, ?_, ?_, fun {x} hx => ?_, fun {id x} hx => ?_⟩
  · have hkeys : objects.Pairwise (·.1 ≠ ·.1) := by
      have hnodup : (records.map (·.1)).Pairwise (· ≠ ·) := List.pairwise_map.mpr hwalk.distinct
      rw [← hstaged.keys] at hnodup
      exact List.pairwise_map.mp hnodup
    refine List.pairwise_map.mpr (hkeys.imp_of_mem fun {e e'} he he' hne heq => hne ?_)
    rw [← (hobject he).1, ← (hobject he').1, heq]
  · obtain ⟨object, hmem, hkey⟩ := hmade .tree htree
    have hsaved := (hobject hmem).2 (Or.inl hkey)
    rw [hkey] at hsaved
    obtain rfl := Option.some.inj hsaved
    exact ⟨_, _, List.mem_map_of_mem hmem⟩
  · obtain ⟨e, he, hex⟩ := List.mem_map.mp hx
    have hsaved := (hobject he).2 (hex ▸ Or.inr ⟨x.id, rfl⟩)
    rw [hex] at hsaved
    obtain ⟨y, hy, heq⟩ := Option.map_eq_some_iff.mp hsaved
    rw [hy, Object.state.inj heq]
  · obtain ⟨object, hmem, hkey⟩ := hmade (.object id) (hstates (contains_iff.mpr ⟨x, hx⟩))
    have hsaved := (hobject hmem).2 (Or.inr ⟨id, hkey⟩)
    rw [hkey] at hsaved
    obtain ⟨y, hy, rfl⟩ := Option.map_eq_some_iff.mp hsaved
    rw [Option.some.inj (hx.symm.trans hy)]
    exact List.mem_map_of_mem hmem

/-! ### Loading -/

theorem contains_existing_iff :
    (Target.existing t treeClass).contains key = true ↔ key ∈ t.liveKeys := by
  show (Std.TreeSet.ofList t.liveKeys).contains key = true ↔ _
  rw [Std.TreeSet.contains_ofList, List.contains_iff_mem]

/-- Only objects are discarded. -/
theorem exists_text_of_mem_discardedKeys {keys : List String}
    (h : key ∈ discardedKeys (Target.existing t treeClass) keys) : ∃ k : ObjectKey, k.text = key :=
  exists_text_of_mem_liveKeys (contains_existing_iff.mp (mem_discardedKeys_iff.mp h).1)

/-- A state is discarded if it is not found in the snapshot. -/
theorem key_mem_discardedKeys_iff {keys : List String} :
    id.key ∈ discardedKeys (Target.existing t treeClass) keys ↔
      t.contains id = true ∧ id.key ∉ keys := by
  rw [mem_discardedKeys_iff, contains_existing_iff, key_mem_liveKeys_iff]

/-- What a load has done to a tree. -/
theorem exists_objects_of_load {loaded : Loaded} (hload : t.load s = .ok (t', loaded)) :
    ∃ records objects, s.root = treeClass ∧ s.reachable = .ok records ∧
      stageAll t (Target.existing t treeClass) records = .ok objects ∧
      t' = ((discardedKeys (Target.existing t treeClass) (records.map (·.1))).foldl Target.discard
        ((objects.map (·.2)).foldl putObject t)).relink := by
  unfold DerivationTree.load at hload
  split at hload
  · next hroot =>
    have hroot := eq_of_beq hroot
    obtain ⟨records, objects, hrecords, hobjects, ht'⟩ := exists_stageAll_of_load hload
    have hwalk := Snapshot.isWalk_of_reachable hrecords
    obtain ⟨r, hr⟩ := hwalk.root
    have hmem : treeClass ∈ records.map (·.1) := hroot ▸ List.mem_map_of_mem hr
    rw [hroot] at hobjects ht'
    refine ⟨records, objects, hroot, hrecords, hobjects, ?_⟩
    rw [ht', foldl_finish (List.pairwise_map.mpr hwalk.distinct) hmem, List.foldl_map]
    rfl
  · exact absurd hload (by simp)

/-- The states that are left are those of the saved tree. -/
theorem IsRestored.state?_eq (h : v.IsRestored objects) (hv : v.IsOrdered) {keys : List String}
    (hkeys : objects.map (·.1) = keys)
    (hstates : ∀ {id : StateId}, v.contains id = true → id.key ∈ keys) (id : StateId) :
    ((discardedKeys (Target.existing t treeClass) keys).foldl Target.discard
      ((objects.map (·.2)).foldl putObject t)).state? id = v.state? id := by
  rw [state?_foldl_discard fun _ => exists_text_of_mem_discardedKeys]
  cases hx : v.state? id with
  | some x =>
    have hid := hstates (contains_iff.mpr ⟨x, hx⟩)
    have hmem := h.mem hx
    have hxid : x.id = id := hv.id hx
    rw [if_neg fun hgone => (key_mem_discardedKeys_iff.mp hgone).2 hid, ← hxid]
    exact state?_foldl_putObject h.distinct hmem
  | none =>
    -- no state with this number was made
    have hne {x : SyntaxState} (hmem : .state x ∈ objects.map (·.2)) : x.id ≠ id := by
      rintro rfl
      exact absurd ((h.state hmem).symm.trans hx) (by simp)
    have hnew : id.key ∉ keys := by
      rw [← hkeys]
      intro hmem
      obtain ⟨⟨key, object⟩, hmem, hkey⟩ := List.mem_map.mp hmem
      obtain ⟨x, rfl, hid⟩ := Object.exists_state_of_objectKey
        (ObjectKey.eq_of_text_eq object.objectKey (.object id) ((h.text hmem).trans hkey))
      exact hne (List.mem_map_of_mem hmem) hid
    split
    · rfl
    · next hstays =>
      rw [state?_foldl_putObject_of_ne fun _ => hne]
      have hmissing : t.contains id = false :=
        Bool.eq_false_iff.mpr fun hid => hstays (key_mem_discardedKeys_iff.mpr ⟨hid, hnew⟩)
      refine Option.eq_none_iff_forall_ne_some.mpr fun x hx => ?_
      exact absurd (hmissing.symm.trans (contains_iff.mpr ⟨x, hx⟩)) (by simp)

/-- A tree into which a saved tree was loaded is linked after it has got the states and the cursor
of the saved tree. Its counter has not gone back. -/
theorem IsOrdered.exists_relink_of_load (h : t.IsOrdered) (hv : v.IsOrdered) (hs : v.save = .ok s)
    {loaded : Loaded} (hload : t.load s = .ok (t', loaded)) :
    ∃ u : DerivationTree, t' = u.relink ∧ (∀ id, u.state? id = v.state? id) ∧
      u.current = v.current ∧ t.nextId ≤ u.nextId ∧ u.events = t.events := by
  obtain ⟨records, objects, hroot, hrecords, hobjects, rfl⟩ := exists_objects_of_load hload
  have hwalk := Snapshot.isWalk_of_reachable hrecords
  rw [hroot] at hwalk
  have hstaged := isStaged_of_stageAll hobjects
  have hrestored := h.isRestored hv hs hwalk hstaged
  obtain ⟨hcurrent, hnext, hevents⟩ := foldl_discard_eq (fun _ => exists_text_of_mem_discardedKeys)
    ((objects.map (·.2)).foldl putObject t)
  obtain ⟨hnext', hevents'⟩ := nextId_le_foldl_putObject t (objects.map (·.2))
  refine ⟨_, rfl, hrestored.state?_eq hv hstaged.keys (mem_keys_of_isWalk hs hwalk).2, ?_, ?_, ?_⟩
  · obtain ⟨states, nextId, hmem⟩ := hrestored.tree
    rw [hcurrent]
    exact current_foldl_putObject hrestored.distinct hmem
  · rw [hnext]
    exact hnext'
  · rw [hevents]
    exact hevents'

/-- A loaded tree is consistent, and its counter has not gone back. -/
theorem IsConsistent.load (h : t.IsConsistent) (hv : v.IsConsistent) (hs : v.save = .ok s)
    {loaded : Loaded} (hload : t.load s = .ok (t', loaded)) :
    t'.IsConsistent ∧ t.nextId ≤ t'.nextId := by
  obtain ⟨u, rfl, hstates, hcurrent, hnext, hevents⟩ :=
    h.toIsOrdered.exists_relink_of_load hv.toIsOrdered hs hload
  have hparent (id : StateId) : u.parent? id = v.parent? id := by rw [parent?, hstates]; rfl
  have hcontains (id : StateId) : u.contains id = v.contains id := by
    rw [Bool.eq_iff_iff, contains_iff, contains_iff, hstates]
  refine ⟨isConsistent_relink ⟨fun hx => hv.id (hstates _ ▸ hx), fun hp => ?_⟩ (fun hid => ?_)
    fun hne => ?_, Nat.le_trans hnext (nextId_le_relink u)⟩
  · rw [hcontains]
    exact hv.parent (hparent _ ▸ hp)
  · exact Nat.lt_of_lt_of_le (h.added (hevents ▸ hid)) hnext
  · obtain ⟨id, hid⟩ := Std.TreeMap.isEmpty_eq_false_iff_exists_contains_eq_true.mp hne
    obtain ⟨current, active, hat⟩ := hv.cursor (isEmpty_eq_false ((hcontains id).symm.trans hid))
    exact ⟨current, hcurrent.trans hat.current_eq, (hcontains current).trans hat.contains_current⟩

end load

end DerivationTree
end MinimalistGrammar
