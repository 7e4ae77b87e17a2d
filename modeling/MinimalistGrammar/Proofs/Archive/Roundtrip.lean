import MinimalistGrammar.Proofs.Archive.Installing
import MinimalistGrammar.Proofs.Archive.Restoring
import MinimalistGrammar.Proofs.Derivation.Evolution

/-!
# Loading what was saved

The snapshot of a tree can be loaded into any tree. All that it has of the saved tree is then found
in the other one as it was, and what the other tree has shown before and the snapshot does not have
is gone.

## Main definitions

* `DerivationTree.IsStorable` — the numbers and the annotations of a tree can be kept in a snapshot.
* `DerivationTree.IsRestoration` — a saved tree has been loaded into another one.

## Main results

* `DerivationTree.exists_load_of_save` — the snapshot of a tree can be loaded into any tree.
-/

namespace MinimalistGrammar

/-! ### Records that are found again -/

theorem Snapshot.reachable_of_walk {source : Source SaveError} {root : String}
    {records : List (String × Record)} (h : source.walk unknownObject root = .ok records) :
    ({ root, records := Dict.ofList records } : Snapshot).reachable = .ok records := by
  have hwalk := Source.isWalk_of_walk h
  have hget {key : String} {r : Record} (hr : (key, r) ∈ records) :
      (Dict.ofList records).get? key = some r :=
    (Dict.get?_ofList_eq_some_iff hwalk.distinct).mpr hr
  obtain ⟨r, hr⟩ := hwalk.root
  have hagain : (Dict.ofList records).source.walk danglingReference root =
      .ok (records.map fun e => (e.1, e.2)) :=
    Source.walk_map (f := fun _ r => r) h fun hr => ⟨by rw [Dict.record_source, hget hr], rfl⟩
  rw [List.map_id'' (fun _ => rfl)] at hagain
  unfold Snapshot.reachable
  rw [if_pos (Dict.contains_iff.mpr ⟨r, hget hr⟩)]
  exact hagain

/-- Objects of all classes can be made. -/
theorem Object.contains_className (k : ObjectKey) : classes.contains k.className = true := by
  cases k with
  | tree => decide
  | @object kind id =>
    have h : ∀ kind : Kind, classes.contains kind.className = true := by
      intro kind
      cases kind <;> decide
    exact h kind

namespace DerivationTree

variable {t t' v : DerivationTree} {s : Snapshot} {key : String} {r : Record} {object : Object}
  {k : ObjectKey}

/-! ### What can be kept -/

/-- The counter of a tree is a number of 32 bits, and the maps in annotations are in order. -/
structure IsStorable (t : DerivationTree) : Prop where
  nextId_lt : t.nextId < Ident.bound
  ordered {id : ConstituentId} {c : Constituent} (h : t.store.constituent? id = some c) :
    ∀ a ∈ c.attributes.values, a.Ordered

theorem IsStorable.isStorable_object (h : t.IsStorable) (ht : t.IsConsistent)
    (hobject : t.objectOf? k = some object) : object.IsStorable := by
  cases k with
  | tree =>
    obtain rfl := Option.some.inj hobject
    exact h.nextId_lt
  | @object kind id =>
    cases kind <;> obtain ⟨a, ha, rfl⟩ := Option.map_eq_some_iff.mp hobject
    · intro p hp
      have hparent : t.parent? id = some p := by
        rw [parent?, ha]
        exact hp
      have hlt := ht.fresh (ht.parent hparent).1
      exact Nat.lt_trans hlt h.nextId_lt
    · exact h.ordered ha
    · trivial
    · trivial

/-- An object that was saved is made again from its record. -/
theorem IsOrdered.exists_stageObject (ht : t.IsOrdered) (hr : object.record key = .ok r)
    (hkey : ObjectKey.parse? key = some object.objectKey) (hreadable : r.IsReadable key)
    (hobject : object.IsStorable) (reuse : Bool) : t.stageObject key r reuse = .ok object := by
  have hclass := Object.className_of_record hr
  have hbase : ∃ base, t.baseObject key r reuse = .ok base := by
    unfold baseObject
    split
    · exact ⟨_, rfl⟩
    · have hknown := Object.contains_className object.objectKey
      refine ⟨Object.blank object.objectKey, ?_⟩
      unfold Object.stub
      rw [hkey, hclass]
      simp only [hknown, beq_self_eq_true]
      rfl
  obtain ⟨base, hbase⟩ := hbase
  have hsame : base.objectKey = object.objectKey :=
    Option.some.inj ((ht.isKeyed.objectKey_of_baseObject hbase).symm.trans hkey)
  have hfill := Object.fill_of_record hr hreadable hobject hsame
  unfold stageObject
  rw [hbase]
  show (if base.objectKey.className == r.className then base.fill key r
    else .error (.badKey key)) = _
  rw [hsame, hclass, if_pos (beq_self_eq_true _), hfill]

/-! ### What a load does -/

theorem objectOf?_relink (t : DerivationTree) (hk : k ≠ .tree) :
    t.relink.objectOf? k = t.objectOf? k := by
  cases k with
  | tree => exact absurd rfl hk
  | @object kind id => cases kind <;> rfl

theorem current_relink (t : DerivationTree) : t.relink.current = t.current.filter t.contains := rfl

/-- The cursor is at a state. -/
theorem IsConsistent.filter_current (h : t.IsConsistent) :
    t.current.filter t.contains = t.current := by
  cases hempty : t.isEmpty with
  | true => rw [(h.empty hempty).1, Option.filter_none]
  | false =>
    obtain ⟨current, active, hat⟩ := h.cursor hempty
    rw [hat.current_eq, Option.filter_some_pos hat.contains_current]

/-- The counter for states is above the numbers of all states. -/
theorem counter_relink_le_iff {kind : Kind} {n : Nat} :
    t.relink.counter kind ≤ n ↔
      t.counter kind ≤ n ∧ (kind = .state → ∀ id, t.contains id = true → id.index < n) := by
  cases kind with
  | state =>
    have hrelink : t.relink.counter .state =
        max t.nextId (t.states.keys.getLast?.elim 0 fun id => id.index + 1) := rfl
    rw [hrelink, Nat.max_le]
    refine and_congr_right fun _ => ⟨fun hle _ id hid => ?_, fun hlt => ?_⟩
    · exact Nat.lt_of_lt_of_le (index_lt_of_contains hid) hle
    · cases hlast : t.states.keys.getLast? with
      | none => exact Nat.zero_le n
      | some id => exact hlt rfl id (mem_keys_states_iff.mp (List.mem_of_getLast? hlast))
  | _ => exact ⟨fun h => ⟨h, fun hkind => absurd hkind (by simp)⟩, fun h => h.1⟩

/-- The tree `v`, of which `s` is the snapshot, has been loaded into `t`, which has become `t'`.
What the snapshot has is as it is in `v`. Of all else, what `t` has shown is gone, and the rest is
as it was. -/
structure IsRestoration (t v : DerivationTree) (s : Snapshot) (t' : DerivationTree) : Prop where
  saved {k : ObjectKey} (hk : k ≠ .tree) (h : s.records.contains k.text = true) :
    t'.objectOf? k = v.objectOf? k
  others {k : ObjectKey} (hk : k ≠ .tree) (h : s.records.contains k.text = false) :
    t'.objectOf? k = if k.text ∈ t.liveKeys then none else t.objectOf? k
  current : t'.current = v.current
  active : t'.active = t'.current.map t'.firstTerminal
  counter_le_iff (kind : Kind) (n : Nat) : t'.counter kind ≤ n ↔
    t.counter kind ≤ n ∧ ∀ k object, s.records.contains k.text = true →
      v.objectOf? k = some object →
      object.reserved kind ≤ n

/-- What holds of the objects that are made when the snapshot `s` of the tree `v` is loaded. -/
structure IsRemade (v : DerivationTree) (s : Snapshot)
    (objects : List (String × Object)) : Prop where
  saved {e : String × Object} (he : e ∈ objects) :
    e.2.objectKey.text = e.1 ∧ v.objectOf? e.2.objectKey = some e.2
  distinct : (objects.map (·.2)).Pairwise (·.objectKey ≠ ·.objectKey)
  contains_iff {key : String} : s.records.contains key = true ↔ key ∈ objects.map (·.1)

/-- Of every record of a saved tree the object is made again for which it was written. -/
theorem exists_remade (ht : t.IsOrdered) (hv : v.IsConsistent) (hstorable : v.IsStorable)
    {records : List (String × Record)} (hwalk : (v.source treeClass).IsWalk treeClass records)
    (hs : v.save = .ok { root := treeClass, records := Dict.ofList records }) {key : String}
    {r : Record} (hr : (key, r) ∈ records) : ∃ object : Object,
      object.objectKey.text = key ∧ v.objectOf? object.objectKey = some object ∧
        ∀ reuse, t.stageObject key r reuse = .ok object := by
  have hget {key : String} {r : Record} (hr : (key, r) ∈ records) :=
    (Dict.get?_ofList_eq_some_iff hwalk.distinct).mpr hr
  obtain ⟨k, object, htext, hkey, hobject, hrecord⟩ := exists_object_of_save hs (hget hr)
  obtain rfl := hv.toIsOrdered.isKeyed.objectKey_of_objectOf? hobject
  have hreadable : r.IsReadable key := by
    intro ref href
    obtain ⟨r', hr'⟩ := hwalk.closed hr href
    obtain ⟨k', -, -, hkey', -⟩ := exists_object_of_save hs (hget hr')
    exact ⟨k', hkey'⟩
  have hkept := hstorable.isStorable_object hv hobject
  exact ⟨object, htext, hobject, ht.exists_stageObject hrecord hkey hreadable hkept⟩

/-- All objects of a saved tree are made again. -/
theorem exists_stageAll_of_save (ht : t.IsOrdered) (hv : v.IsConsistent) (hstorable : v.IsStorable)
    (hs : v.save = .ok s) (existing : Std.TreeSet String) : ∃ records objects,
      s.root = treeClass ∧ s.reachable = .ok records ∧ stageAll t existing records = .ok objects ∧
        objects.map (·.1) = records.map (·.1) ∧ v.IsRemade s objects := by
  obtain ⟨records, hrecords, rfl⟩ := map_eq_ok_iff.mp hs
  have hwalk := Source.isWalk_of_walk hrecords
  have hmade {key : String} {r : Record} (hr : (key, r) ∈ records) :=
    exists_remade ht hv hstorable hwalk hs hr
  -- no object fails, so all of them are staged
  obtain ⟨objects, hobjects⟩ : ∃ objects, stageAll t existing records = .ok objects := by
    refine exists_stageAll fun e he => ?_
    obtain ⟨object, -, -, hobject⟩ := hmade he
    exact ⟨object, hobject _⟩
  have hstaged := isStaged_of_stageAll hobjects
  have hsaved {e : String × Object} (he : e ∈ objects) :
      e.2.objectKey.text = e.1 ∧ v.objectOf? e.2.objectKey = some e.2 := by
    obtain ⟨r, hr, hstage⟩ := hstaged.exists_record he
    obtain ⟨object, htext, hobject, hmade⟩ := hmade hr
    obtain rfl := Except.ok.inj ((hmade _).symm.trans hstage)
    exact ⟨htext, hobject⟩
  refine ⟨records, objects, rfl, Snapshot.reachable_of_walk hrecords, hobjects,
    hstaged.keys, hsaved, ?_, fun {key} => ?_⟩
  -- the keys that were walked are distinct, and an object has one key
  · have hkeys : (objects.map (·.1)).Pairwise (· ≠ ·) := by
      rw [hstaged.keys]
      exact List.pairwise_map.mpr hwalk.distinct
    refine List.pairwise_map.mpr
      ((List.pairwise_map.mp hkeys).imp_of_mem fun {e e'} he he' hne heq => ?_)
    rw [← (hsaved he).1, ← (hsaved he').1, heq] at hne
    exact hne rfl
  · rw [hstaged.keys, Dict.contains_iff]
    constructor
    · rintro ⟨r, hr⟩
      exact List.mem_map_of_mem ((Dict.get?_ofList_eq_some_iff hwalk.distinct).mp hr)
    · intro hmem
      obtain ⟨e, he, rfl⟩ := List.mem_map.mp hmem
      exact ⟨e.2, (Dict.get?_ofList_eq_some_iff hwalk.distinct).mpr he⟩

section remade

variable {objects : List (String × Object)} {discarded : List String}

/-- The object with a key in the snapshot was made. -/
theorem IsRemade.mem (h : v.IsRemade s objects) (hk : s.records.contains k.text = true)
    (hobject : v.objectOf? k = some object) : object ∈ objects.map (·.2) := by
  obtain ⟨e, he, htext⟩ := List.mem_map.mp (h.contains_iff.mp hk)
  obtain ⟨htext', hsaved⟩ := h.saved he
  obtain rfl : e.2.objectKey = k := ObjectKey.eq_of_text_eq _ _ (htext'.trans htext)
  rw [← Option.some.inj (hsaved.symm.trans hobject)]
  exact List.mem_map_of_mem he

theorem IsRemade.of_mem (h : v.IsRemade s objects) (hobject : object ∈ objects.map (·.2)) :
    s.records.contains object.objectKey.text = true ∧
      v.objectOf? object.objectKey = some object := by
  obtain ⟨e, he, rfl⟩ := List.mem_map.mp hobject
  obtain ⟨htext, hsaved⟩ := h.saved he
  rw [htext]
  exact ⟨h.contains_iff.mpr (List.mem_map_of_mem he), hsaved⟩

/-- What is found when all objects of a snapshot have come and all else that was shown has gone. -/
theorem IsRemade.objectOf?_eq (h : v.IsRemade s objects)
    (hdiscarded : ∀ key, key ∈ discarded ↔ key ∈ t.liveKeys ∧ s.records.contains key = false)
    (hk : k ≠ .tree) :
    (discarded.foldl Target.discard ((objects.map (·.2)).foldl putObject t)).objectOf? k =
      if s.records.contains k.text = true then v.objectOf? k
      else if k.text ∈ t.liveKeys then none else t.objectOf? k := by
  rw [objectOf?_foldl_discard
    (fun key hkey => exists_text_of_mem_liveKeys ((hdiscarded key).mp hkey).1) hk]
  by_cases hc : s.records.contains k.text = true
  · have hkeep : k.text ∉ discarded := by
      intro hmem
      exact absurd (hc.symm.trans ((hdiscarded _).mp hmem).2) (by simp)
    obtain ⟨e, he, htext⟩ := List.mem_map.mp (h.contains_iff.mp hc)
    obtain ⟨htext', hsaved⟩ := h.saved he
    obtain rfl : e.2.objectKey = k := ObjectKey.eq_of_text_eq _ _ (htext'.trans htext)
    rw [if_neg hkeep, if_pos hc, hsaved]
    exact objectOf?_foldl_putObject h.distinct (List.mem_map_of_mem he) hk
  · have hnew : ∀ object ∈ objects.map (·.2), object.objectKey ≠ k := by
      rintro object hobject rfl
      exact hc (h.of_mem hobject).1
    rw [if_neg hc, objectOf?_foldl_putObject_of_ne hk hnew]
    simp only [hdiscarded, Bool.not_eq_true _ ▸ hc, and_true]

/-- Only states of the saved tree are states. -/
theorem IsRemade.contains_iff_contains (h : v.IsRemade s objects)
    (hdiscarded : ∀ key, key ∈ discarded ↔ key ∈ t.liveKeys ∧ s.records.contains key = false)
    (hstates : ∀ id, v.contains id = true → s.records.contains id.key = true) (id : StateId) :
    (discarded.foldl Target.discard ((objects.map (·.2)).foldl putObject t)).contains id =
      v.contains id := by
  have hobject := h.objectOf?_eq hdiscarded (k := .object id) (by simp)
  have hstate {u : DerivationTree} : u.contains id = (u.objectOf? (.object id)).isSome := by
    rw [objectOf?, Option.isSome_map]
    exact Std.TreeMap.contains_eq_isSome_getElem?
  rw [hstate, hstate, hobject]
  split
  · rfl
  · next hnew =>
    have hv : v.contains id = false := Bool.eq_false_iff.mpr fun hid => hnew (hstates id hid)
    rw [hstate] at hv
    rw [hv]
    split
    · rfl
    · next hdead =>
      have ht : t.contains id = false :=
        Bool.eq_false_iff.mpr fun hid => hdead (key_mem_liveKeys_iff.mpr hid)
      rwa [hstate] at ht

/-- When all objects of a snapshot are in place, and what it does not have is dropped, the tree is
restored. -/
theorem IsRemade.isRestoration (h : v.IsRemade s objects) (hv : v.IsConsistent)
    (htree : s.records.contains treeClass = true)
    (hstates : ∀ id, v.contains id = true → s.records.contains id.key = true)
    (hdiscarded : ∀ key, key ∈ discarded ↔ key ∈ t.liveKeys ∧ s.records.contains key = false) :
    t.IsRestoration v s
      (discarded.foldl Target.discard ((objects.map (·.2)).foldl putObject t)).relink := by
  have hkeys (key : String) (hkey : key ∈ discarded) : ∃ k : ObjectKey, k.text = key :=
    exists_text_of_mem_liveKeys ((hdiscarded key).mp hkey).1
  have hfound {k : ObjectKey} (hk : k ≠ .tree) := h.objectOf?_eq hdiscarded hk
  have hcontains := h.contains_iff_contains hdiscarded hstates
  refine ⟨fun {k} hk hc => ?_, fun {k} hk hc => ?_, ?_, ?_, fun kind n => ?_⟩
  · rw [objectOf?_relink _ hk, hfound hk, if_pos hc]
  · rw [objectOf?_relink _ hk, hfound hk, if_neg (by simp [hc])]
  -- the cursor is in the record of the tree, and discarding leaves that alone
  · have hcurrent :
        (discarded.foldl Target.discard ((objects.map (·.2)).foldl putObject t)).current =
        v.current := by
      rw [(foldl_discard_eq hkeys _).1]
      exact current_foldl_putObject h.distinct (h.mem (k := .tree) htree rfl)
    rw [current_relink, hcurrent, funext hcontains, hv.filter_current]
  · exact congrArg (Option.map · _) (funext (firstTerminal_congr rfl))
  -- the counter is the greatest of the old one and those that the objects ask for
  · rw [counter_relink_le_iff, counter_foldl_discard hkeys, counter_foldl_putObject_le_iff,
      and_assoc]
    refine and_congr_right fun _ => ⟨fun ⟨hle, _⟩ k object hc hobject => ?_, fun hle => ⟨?_, ?_⟩⟩
    · exact hle object (h.mem hc hobject)
    · intro object hobject
      obtain ⟨hc, hsaved⟩ := h.of_mem hobject
      exact hle _ object hc hsaved
    · rintro rfl id hid
      rw [hcontains] at hid
      obtain ⟨x, hx⟩ := DerivationTree.contains_iff.mp hid
      have hreserved := hle (.object id) (.state x) (hstates id hid) (congrArg (Option.map _) hx)
      have hid := hv.id hx
      subst hid
      exact hreserved

end remade

/-- The snapshot of a tree can be loaded into any tree. -/
theorem exists_load_of_save (ht : t.IsOrdered) (hv : v.IsConsistent) (hstorable : v.IsStorable)
    (hs : v.save = .ok s) : ∃ t' loaded, t.load s = .ok (t', loaded) ∧ t.IsRestoration v s t' := by
  obtain ⟨records, objects, hroot, hreach, hobjects, hkeys, hremade⟩ :=
    exists_stageAll_of_save ht hv hstorable hs (Target.existing t treeClass)
  have hwalk := Snapshot.isWalk_of_reachable hreach
  rw [hroot] at hwalk
  have hmem {key : String} : key ∈ records.map (·.1) ↔ s.records.contains key = true := by
    rw [hremade.contains_iff, hkeys]
  obtain ⟨htree, hstates⟩ := mem_keys_of_isWalk hs hwalk
  have hdiscarded (key : String) :
      key ∈ discardedKeys (Target.existing t treeClass) (records.map (·.1)) ↔
        key ∈ t.liveKeys ∧ s.records.contains key = false := by
    have hexisting : (Target.existing t treeClass).contains key = true ↔ key ∈ t.liveKeys := by
      show (Std.TreeSet.ofList t.liveKeys).contains key = true ↔ _
      rw [Std.TreeSet.contains_ofList, List.contains_iff_mem]
    rw [mem_discardedKeys_iff, hexisting, hmem, Bool.not_eq_true]
  have hrestoration :=
    hremade.isRestoration hv (hmem.mp htree) (fun id hid => hmem.mp (hstates hid))
    hdiscarded (t := t)
  rw [← hroot] at hobjects
  obtain ⟨loaded, hload⟩ := exists_load_of_stageAll hreach hobjects
  rw [hroot, foldl_finish (List.pairwise_map.mpr hwalk.distinct) htree] at hload
  rw [List.foldl_map] at hrestoration
  refine ⟨_, loaded, ?_, hrestoration⟩
  rw [DerivationTree.load, hroot, if_pos (beq_self_eq_true _)]
  exact hload

end DerivationTree
end MinimalistGrammar
