import MinimalistGrammar.Proofs.Snapshot.BreadthFirst
import MinimalistGrammar.Proofs.Snapshot.Loading

/-!
# Loading into records

A graph that is nothing but its records takes every record as it is. So a load fails only if the
snapshot has no record for its root or a record that can be reached refers to one that is missing.
Otherwise the records that can be reached are installed in the place of all others.

## Main definitions

* `Snapshot.Dangles` — a reference in a record that can be reached leads to no record.
* `Snapshot.IsTakenOver` — what a load has done.

## Main results

* `load_eq` — a load is a walk and what it installs.
* `exists_of_reachable_error` — where the walk fails.
* `Snapshot.isTakenOver_of_load` — **when a load fails, and what it has done if it does not.**
-/

namespace MinimalistGrammar

variable {s : Snapshot} {m m' : Dict String Record} {loaded : Loaded} {key : String} {r : Record}
  {ref : Reference} {records : List (String × Record)}

/-! ### Records that are installed and dropped -/

namespace Dict

theorem get?_foldl_insert_of_notMem (h : ∀ e ∈ records, e.1 ≠ key) :
    (records.foldl (fun m e => m.insert e.1 e.2) m).get? key = m.get? key := by
  induction records generalizing m with
  | nil => rfl
  | cons e records ih =>
    rw [List.foldl_cons, ih fun e he => h e (List.mem_cons_of_mem _ he),
      get?_insert_of_ne (h e (List.mem_cons_self ..)).symm]

theorem get?_foldl_insert (hdistinct : records.Pairwise (·.1 ≠ ·.1)) (h : (key, r) ∈ records) :
    (records.foldl (fun m e => m.insert e.1 e.2) m).get? key = some r := by
  induction records generalizing m with
  | nil => exact absurd h List.not_mem_nil
  | cons e records ih =>
    obtain ⟨hfirst, hrest⟩ := List.pairwise_cons.mp hdistinct
    rw [List.foldl_cons]
    rcases List.mem_cons.mp h with rfl | h
    · rw [get?_foldl_insert_of_notMem fun e he => (hfirst e he).symm, get?_insert_self]
    · exact ih hrest h

theorem get?_foldl_erase (m : Dict String Record) (keys : List String) (key : String) :
    (keys.foldl erase m).get? key = if key ∈ keys then none else m.get? key := by
  induction keys generalizing m with
  | nil => simp
  | cons k keys ih =>
    rw [List.foldl_cons, ih]
    by_cases hk : key = k
    · subst hk
      simp
    · simp [hk, get?_erase_of_ne hk]

theorem contains_ofList_keys (m : Dict String Record) (key : String) :
    (Std.TreeSet.ofList m.keys).contains key = m.contains key := by
  rw [Std.TreeSet.contains_ofList, Bool.eq_iff_iff, List.contains_iff_mem, contains_iff, keys,
    List.mem_map]
  constructor
  · rintro ⟨⟨k, r⟩, hmem, rfl⟩
    exact ⟨r, get?_eq_some_iff.mpr hmem⟩
  · rintro ⟨r, hr⟩
    exact ⟨(key, r), get?_eq_some_iff.mp hr, rfl⟩

end Dict

/-! ### What a load does -/

/-- Every record is taken as it is. -/
theorem stageAll_eq (m : Dict String Record) (existing : Std.TreeSet String)
    (records : List (String × Record)) : stageAll m existing records = .ok records := by
  induction records with
  | nil => rfl
  | cons e records ih =>
    rw [stageAll, ih]
    rfl

/-- The records in the place of all others. -/
def Dict.replace (m : Dict String Record) (records : List (String × Record)) : Dict String Record :=
  (discardedKeys (Std.TreeSet.ofList m.keys) (records.map (·.1))).foldl Dict.erase
    (records.foldl (fun m e => m.insert e.1 e.2) m)

/-- A load walks through the snapshot and installs what it finds. -/
theorem load_eq (m : Dict String Record) (s : Snapshot) :
    load m s = s.reachable.map fun records => (m.replace records,
      { restored := records.map (·.1)
        created := (records.map (·.1)).filter fun key => !m.contains key
        discarded := discardedKeys (Std.TreeSet.ofList m.keys) (records.map (·.1)) }) := by
  have hfinish (m : Dict String Record) (keys : List String) : keys.foldl Target.finish m = m := by
    induction keys with
    | nil => rfl
    | cons key keys ih => exact ih
  have hexisting : Target.existing m s.root = Std.TreeSet.ofList m.keys := rfl
  rw [load, hexisting]
  cases s.reachable with
  | error e => rfl
  | ok records =>
    have hstaged : stageAll m (Std.TreeSet.ofList m.keys) records = .ok records := stageAll_eq ..
    simp only [bind, Except.bind, hstaged, hfinish, Dict.contains_ofList_keys]
    rfl

/-- Of the records that are installed nothing is lost, and nothing else is there. -/
theorem Dict.get?_replace_eq_some_iff (hdistinct : records.Pairwise (·.1 ≠ ·.1)) :
    (m.replace records).get? key = some r ↔ (key, r) ∈ records := by
  have hdiscarded : key ∈ discardedKeys (Std.TreeSet.ofList m.keys) (records.map (·.1)) ↔
      m.contains key = true ∧ key ∉ records.map (·.1) := by
    rw [mem_discardedKeys_iff, contains_ofList_keys]
  rw [replace, get?_foldl_erase]
  by_cases hkey : key ∈ records.map (·.1)
  · obtain ⟨⟨k, r'⟩, hmem, rfl⟩ := List.mem_map.mp hkey
    rw [if_neg fun h => (hdiscarded.mp h).2 hkey]
    have hinstalled := @get?_foldl_insert m _ _ _ hdistinct hmem
    refine ⟨fun h => ?_, get?_foldl_insert hdistinct⟩
    rw [← Option.some.inj (hinstalled.symm.trans h)]
    exact hmem
  · have hnot : (key, r) ∉ records := fun h => hkey (List.mem_map_of_mem h)
    refine iff_of_false (fun h => ?_) hnot
    split at h
    · exact absurd h (by simp)
    · next hkept =>
      have hothers : ∀ e ∈ records, e.1 ≠ key := by
        rintro e he rfl
        exact hkey (List.mem_map_of_mem he)
      rw [get?_foldl_insert_of_notMem hothers] at h
      exact hkept (hdiscarded.mpr ⟨contains_iff.mpr ⟨r, h⟩, hkey⟩)

/-! ### When it fails -/

namespace Snapshot

/-- A reference that leads to no record, in a record that can be reached. -/
def Dangles (s : Snapshot) (ref : Reference) : Prop :=
  ∃ key r, s.source.Leads s.root key ∧ s.records.get? key = some r ∧ ref ∈ r.references key ∧
    s.records.get? ref.key = none

theorem record_source (s : Snapshot) (key : String) :
    s.source.record key = .ok (s.records.get? key) :=
  Dict.record_source ..

theorem record_source_eq_ok_iff :
    s.source.record key = .ok (some r) ↔ s.records.get? key = some r := by
  rw [record_source, Except.ok.injEq]

/-- The walk fails at a root without record, or at a reference that dangles. -/
theorem exists_of_reachable_error {e : LoadError} (h : s.reachable = .error e) :
    s.records.get? s.root = none ∧ e = .missingRoot s.root ∨
      ∃ ref, s.Dangles ref ∧ e = .dangling ref.path ref.key := by
  unfold reachable at h
  split at h
  · next hroot =>
    obtain ⟨r₀, hr₀⟩ := Dict.contains_iff.mp hroot
    let P (ref : Reference) : Prop := ref = { path := s.root, key := s.root } ∨
      ∃ key r, s.source.Leads s.root key ∧ s.source.record key = .ok (some r) ∧
        ref ∈ r.references key
    have hP {ref : Reference} {r : Record} (href : P ref)
        (hr : s.source.record ref.key = .ok (some r)) :
        ∀ ref' ∈ r.references ref.key, P ref' := by
      intro ref' href'
      refine Or.inr ⟨ref.key, r, ?_, hr, href'⟩
      rcases href with rfl | ⟨key, r', hkey, hr', hmem⟩
      · exact .refl s.root
      · exact .step hkey hr' hmem
    obtain ⟨ref, href, ⟨hnone, rfl⟩ | herror⟩ := Source.exists_of_visit_error h hP
      (fun refs hrefs => absurd hrefs List.not_mem_nil) fun ref href =>
        Or.inl (List.mem_singleton.mp href)
    · rw [record_source, Except.ok.injEq] at hnone
      rcases href with rfl | ⟨key, r, hkey, hr, hmem⟩
      · exact absurd (hr₀.symm.trans hnone) (by simp)
      · exact Or.inr ⟨ref, ⟨key, r, hkey, record_source_eq_ok_iff.mp hr, hmem, hnone⟩, rfl⟩
    · rw [record_source] at herror
      exact absurd herror (by simp)
  · next hroot =>
    exact Or.inl ⟨Dict.contains_eq_false_iff.mp (Bool.eq_false_iff.mpr hroot),
      (Except.error.inj h).symm⟩

/-- Where a walk does not fail, the root has a record and no reference dangles. -/
theorem not_dangles_of_reachable (h : s.reachable = .ok records) :
    s.records.get? s.root ≠ none ∧ ∀ ref, ¬s.Dangles ref := by
  unfold reachable at h
  split at h
  · have hwalk := Source.exists_walk_iff.mp ⟨records, h⟩
    have hrecord {key : String} (hkey : s.source.Leads s.root key) : s.records.get? key ≠ none := by
      obtain ⟨r, hr⟩ := hwalk key hkey
      rw [record_source_eq_ok_iff.mp hr]
      simp
    refine ⟨hrecord (.refl s.root), ?_⟩
    rintro ref ⟨key, r, hkey, hr, hmem, hnone⟩
    exact hrecord (hkey.step (record_source_eq_ok_iff.mpr hr) hmem) hnone
  · exact absurd h (by simp)

/-! ### What it has done -/

/-- The records of a snapshot that can be reached have taken the place of all others. -/
structure IsTakenOver (s : Snapshot) (m m' : Dict String Record) (loaded : Loaded) : Prop where
  get?_eq_some_iff {key : String} {r : Record} : m'.get? key = some r ↔
    s.records.get? key = some r ∧ s.source.Leads s.root key
  restored : s.source.IsBreadthFirst s.root loaded.restored
  created : loaded.created = loaded.restored.filter fun key => !m.contains key
  mem_discarded_iff {key : String} : key ∈ loaded.discarded ↔
    m.contains key = true ∧ key ∉ loaded.restored
  discarded : loaded.discarded.Pairwise fun k l => compare k l = .lt

theorem isTakenOver_of_reachable (h : s.reachable = .ok records) :
    s.IsTakenOver m (m.replace records)
      { restored := records.map (·.1)
        created := (records.map (·.1)).filter fun key => !m.contains key
        discarded := discardedKeys (Std.TreeSet.ofList m.keys) (records.map (·.1)) } := by
  have hwalk : s.source.walk danglingReference s.root = .ok records := by
    unfold reachable at h
    split at h
    · exact h
    · exact absurd h (by simp)
  have hrecords := Source.isWalk_of_walk hwalk
  refine ⟨fun {key r} => ?_, Source.isBreadthFirst_walk hwalk, rfl, fun {key} => ?_, ?_⟩
  · rw [Dict.get?_replace_eq_some_iff hrecords.distinct, ← Source.exists_mem_walk_iff hwalk]
    constructor
    · intro hmem
      exact ⟨record_source_eq_ok_iff.mp (hrecords.record hmem), r, hmem⟩
    · rintro ⟨hr, r', hmem⟩
      have hr' := record_source_eq_ok_iff.mp (hrecords.record hmem)
      rwa [Option.some.inj (hr.symm.trans hr')]
  · rw [mem_discardedKeys_iff, Dict.contains_ofList_keys]
  · exact Std.TreeSet.ordered_toList.filter _

/-- What was saved is loaded as it is, whatever there was. -/
theorem exists_load_of_save {source : Source SaveError} {root : String}
    (h : source.save root = .ok s) (m : Dict String Record) :
    ∃ loaded, load m s = .ok (s.records, loaded) := by
  obtain ⟨records, hwalk, rfl⟩ := map_eq_ok_iff.mp h
  have hrecords := Source.isWalk_of_walk hwalk
  have hget {key : String} {r : Record} : (Dict.ofList records).get? key = some r ↔
      (key, r) ∈ records :=
    Dict.get?_ofList_eq_some_iff hrecords.distinct
  have hreachable :
      ({ root, records := Dict.ofList records } : Snapshot).reachable = .ok records := by
    obtain ⟨r, hr⟩ := hrecords.root
    rw [reachable, if_pos (Dict.contains_iff.mpr ⟨r, hget.mpr hr⟩)]
    have hrecord {key : String} {r : Record} (hmem : (key, r) ∈ records) :
        ({ root, records := Dict.ofList records } : Snapshot).source.record key = .ok (some r) :=
      record_source_eq_ok_iff.mpr (hget.mpr hmem)
    have hsame :
        ({ root, records := Dict.ofList records } : Snapshot).source.walk danglingReference root =
          .ok (records.map fun e => (e.1, e.2)) :=
      Source.walk_map (f := fun _ r => r) hwalk fun hmem => ⟨hrecord hmem, rfl⟩
    rwa [List.map_id'] at hsame
  rw [load_eq, hreachable]
  refine ⟨_, congrArg Except.ok (Prod.ext (Dict.ext_get? fun key => Option.ext fun r => ?_) rfl)⟩
  rw [Dict.get?_replace_eq_some_iff hrecords.distinct]
  exact hget.symm

/-- **When a load fails, and what it has done if it does not.** It fails exactly if the root has no
record or a reference in a record that can be reached dangles, and says so: the error names such a
key, and the path of the field that refers to it. Otherwise the records are those of the snapshot
that can be reached. They are restored breadth first; those are created that were not there, and
what was there and is not restored is discarded. So what was saved is loaded as it is. -/
theorem load_cases (s : Snapshot) (m : Dict String Record) :
    ((∃ e, load m s = .error e) ↔ s.records.get? s.root = none ∨ ∃ ref, s.Dangles ref) ∧
    (∀ e, load m s = .error e → s.records.get? s.root = none ∧ e = .missingRoot s.root ∨
      ∃ ref, s.Dangles ref ∧ e = .dangling ref.path ref.key) ∧
    (∀ m' loaded, load m s = .ok (m', loaded) → s.IsTakenOver m m' loaded) ∧
    ∀ (source : Source SaveError) (root : String) (saved : Snapshot), source.save root = .ok saved →
      ∃ loaded, load m saved = .ok (saved.records, loaded) := by
  have herror : ∀ e, load m s = .error e → s.records.get? s.root = none ∧ e = .missingRoot s.root ∨
      ∃ ref, s.Dangles ref ∧ e = .dangling ref.path ref.key := by
    intro e h
    rw [load_eq] at h
    cases hreachable : s.reachable with
    | error e' =>
      rw [hreachable] at h
      obtain rfl := Except.error.inj h
      exact exists_of_reachable_error hreachable
    | ok records =>
      rw [hreachable] at h
      exact absurd h (by simp [Except.map])
  refine ⟨⟨?_, fun hfails => ?_⟩, herror, fun m' loaded h => ?_, fun source root saved hsave =>
    exists_load_of_save hsave m⟩
  · rintro ⟨e, h⟩
    rcases herror e h with ⟨hroot, -⟩ | ⟨ref, href, -⟩
    · exact Or.inl hroot
    · exact Or.inr ⟨ref, href⟩
  · rw [load_eq]
    cases hreachable : s.reachable with
    | error e => exact ⟨e, rfl⟩
    | ok records =>
      obtain ⟨hroot, hdangles⟩ := not_dangles_of_reachable hreachable
      rcases hfails with hnone | ⟨ref, href⟩
      · exact absurd hnone hroot
      · exact absurd href (hdangles ref)
  · rw [load_eq] at h
    obtain ⟨records, hreachable, heq⟩ := map_eq_ok_iff.mp h
    obtain ⟨rfl, rfl⟩ := Prod.mk.inj heq
    exact isTakenOver_of_reachable hreachable

/-- The record of a node that refers to others. -/
def node (next : List String) : Record where
  className := "Node"
  fields := Dict.ofList [("next", .list (next.map .ref))]

/-- Two nodes refer to each other and the first one to itself, and there is an orphan. -/
def circle : Snapshot where
  root := "a"
  records := Dict.ofList [("a", node ["b", "a", "b"]), ("b", node ["a"]), ("orphan", node ["a"])]

/-- The circle is loaded where there was a node with one of its keys, and another one. -/
theorem load_cases_circle : ∃ m' loaded,
    load (Dict.ofList [("a", node []), ("stale", node [])]) circle = .ok (m', loaded) ∧
      circle.IsTakenOver (Dict.ofList [("a", node []), ("stale", node [])]) m' loaded ∧
      loaded = { restored := ["a", "b"], created := ["b"], discarded := ["stale"] } := by
  have hreachable : circle.reachable = .ok ((circle.reachableWithin 20).getD []) := by
    apply reachable_eq_of_reachableWithin (n := 20)
    obtain ⟨records, hrecords⟩ := Option.isSome_iff_exists.mp
      (show (circle.reachableWithin 20).isSome = true by decide +kernel)
    rw [hrecords, Option.getD_some]
  have hload := load_eq (Dict.ofList [("a", node []), ("stale", node [])]) circle
  rw [hreachable] at hload
  refine ⟨_, _, hload, (circle.load_cases _).2.2.1 _ _ hload, ?_⟩
  decide +kernel

end Snapshot

end MinimalistGrammar
