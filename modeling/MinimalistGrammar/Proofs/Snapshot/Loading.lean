import MinimalistGrammar.Proofs.Snapshot.Faithful
import MinimalistGrammar.Proofs.Snapshot.Walk

/-!
# What saving and loading do

A snapshot that was saved has the records of the walk. Loading makes the objects of the records that
it finds, installs them and drops what the snapshot does not have.

## Main definitions

* `Snapshot.reachableWithin` — what can be reached in a snapshot, found within a bound.
* `IsStaged` — objects were made of records.

## Main results

* `Source.get?_records_of_save` — the records of a saved snapshot.
* `exists_stageAll_of_load` — a load without an error.
* `exists_load_of_stageAll` — when a load has no error.
-/

namespace MinimalistGrammar

variable {ε : Type} {key : String} {r : Record}

/-! ### Saving -/

/-- A saved snapshot has the records of its source. -/
theorem Source.get?_records_of_save {s : Source SaveError} {root : String} {snapshot : Snapshot}
    (h : s.save root = .ok snapshot) :
    snapshot.root = root ∧
      ∀ {key r}, snapshot.records.get? key = some r → s.record key = .ok (some r) := by
  obtain ⟨records, hwalk, rfl⟩ := map_eq_ok_iff.mp h
  have hrecords := isWalk_of_walk hwalk
  refine ⟨rfl, fun hr => hrecords.record ?_⟩
  exact (Dict.get?_ofList_eq_some_iff hrecords.distinct).mp hr

/-! ### Loading -/

theorem Dict.record_source (records : Dict String Record) (key : String) :
    (records.source : Source ε).record key = .ok (records.get? key) := by
  refine congrArg _ (Option.ext fun r => ?_)
  rw [Dict.getElem?_ofList_eq_some_iff records.distinct_entries, Dict.get?_eq_some_iff]

theorem Snapshot.isWalk_of_reachable {s : Snapshot} {records : List (String × Record)}
    (h : s.reachable = .ok records) : Source.IsWalk s.source s.root records := by
  unfold Snapshot.reachable at h
  split at h
  · exact Source.isWalk_of_walk h
  · exact absurd h (by simp)

/-- The records that can be reached from the root in at most `n` steps of a walk. -/
def Snapshot.reachableWithin (s : Snapshot) (n : Nat) : Option (List (String × Record)) :=
  if s.records.contains s.root then
    (s.source.visitWithin danglingReference n ∅ [] [] [{ path := s.root, key := s.root }]).bind
      Except.toOption
  else none

theorem Snapshot.reachable_eq_of_reachableWithin {s : Snapshot} {n : Nat}
    {records : List (String × Record)} (h : s.reachableWithin n = some records) :
    s.reachable = .ok records := by
  unfold reachableWithin at h
  split at h
  · next hroot =>
    obtain ⟨x, hx, hrecords⟩ := Option.bind_eq_some_iff.mp h
    have hwalk : s.source.walk danglingReference s.root = x := Source.visit_eq_of_visitWithin hx
    cases x with
    | error e => simp [Except.toOption] at hrecords
    | ok found =>
      obtain rfl := Option.some.inj hrecords
      rw [reachable, if_pos hroot, hwalk]
  · exact absurd h (by simp)

section target

variable {τ σ : Type} [Target τ σ] {t t' : τ} {existing : Std.TreeSet String}
  {records : List (String × Record)} {objects : List (String × σ)} {object : σ}

/-- Objects were made of records, in the same order. -/
structure IsStaged (t : τ) (existing : Std.TreeSet String) (records : List (String × Record))
    (objects : List (String × σ)) : Prop where
  keys : objects.map (·.1) = records.map (·.1)
  exists_record {key : String} {object : σ} (h : (key, object) ∈ objects) :
    ∃ r, (key, r) ∈ records ∧ Target.stage t key r (existing.contains key) = .ok object
  exists_object {key : String} {r : Record} (h : (key, r) ∈ records) :
    ∃ object, (key, object) ∈ objects ∧
      Target.stage t key r (existing.contains key) = .ok object

theorem isStaged_of_stageAll (h : stageAll t existing records = .ok objects) :
    IsStaged t existing records objects := by
  induction records generalizing objects with
  | nil =>
    obtain rfl := Except.ok.inj h
    exact ⟨rfl, fun h => absurd h (by simp), fun h => absurd h (by simp)⟩
  | cons e records ih =>
    obtain ⟨key, r⟩ := e
    obtain ⟨object, hobject, h⟩ := bind_eq_ok_iff.mp h
    obtain ⟨objects', hobjects, h⟩ := bind_eq_ok_iff.mp h
    obtain rfl := Except.ok.inj h
    have hrest := ih hobjects
    refine ⟨congrArg _ hrest.keys, fun hmem => ?_, fun hmem => ?_⟩
    · rcases List.mem_cons.mp hmem with heq | hmem
      · obtain ⟨rfl, rfl⟩ := Prod.mk.inj heq
        exact ⟨r, List.mem_cons_self .., hobject⟩
      · obtain ⟨r', hr', hstage⟩ := hrest.exists_record hmem
        exact ⟨r', List.mem_cons_of_mem _ hr', hstage⟩
    · rcases List.mem_cons.mp hmem with heq | hmem
      · obtain ⟨rfl, rfl⟩ := Prod.mk.inj heq
        exact ⟨object, List.mem_cons_self .., hobject⟩
      · obtain ⟨object', hmem', hstage⟩ := hrest.exists_object hmem
        exact ⟨object', List.mem_cons_of_mem _ hmem', hstage⟩

theorem mem_discardedKeys_iff {restored : List String} :
    key ∈ discardedKeys existing restored ↔ existing.contains key = true ∧ key ∉ restored := by
  rw [discardedKeys, List.mem_filter, Std.TreeSet.mem_toList, ← Std.TreeSet.contains_iff_mem,
    Std.TreeSet.contains_ofList]
  simp

/-- What a load without an error has done: of the records that it found in the snapshot it has made
objects, and it has installed them, dropped all others and finished what it restored. -/
theorem exists_stageAll_of_load {s : Snapshot} {loaded : Loaded} (h : load t s = .ok (t', loaded)) :
    ∃ (records : List (String × Record)) (objects : List (String × σ)), s.reachable = .ok records ∧
      stageAll t (Target.existing t s.root) records = .ok objects ∧
      t' = (records.map (·.1)).foldl Target.finish
        ((discardedKeys (Target.existing t s.root) (records.map (·.1))).foldl Target.discard
          (objects.foldl (fun t e => Target.install t e.1 e.2) t)) := by
  obtain ⟨records, hrecords, h⟩ := bind_eq_ok_iff.mp h
  obtain ⟨objects, hobjects, h⟩ := bind_eq_ok_iff.mp h
  obtain ⟨rfl, -⟩ := Prod.mk.inj (Except.ok.inj h)
  exact ⟨records, objects, hrecords, hobjects, rfl⟩

/-- Objects can be made of some records if one can be made of each of them. -/
theorem exists_stageAll
    (h : ∀ e ∈ records, ∃ object, Target.stage t e.1 e.2 (existing.contains e.1) = .ok object) :
    ∃ objects, stageAll t existing records = .ok objects := by
  induction records with
  | nil => exact ⟨[], rfl⟩
  | cons e records ih =>
    obtain ⟨object, hobject⟩ := h e (List.mem_cons_self ..)
    obtain ⟨objects, hobjects⟩ := ih fun e he => h e (List.mem_cons_of_mem _ he)
    refine ⟨(e.1, object) :: objects, ?_⟩
    rw [stageAll, hobject, hobjects]
    rfl

/-- A load of which every part succeeds. -/
theorem exists_load_of_stageAll {s : Snapshot} (hrecords : s.reachable = .ok records)
    (hobjects : stageAll t (Target.existing t s.root) records = .ok objects) :
    ∃ loaded, load t s = .ok ((records.map (·.1)).foldl Target.finish
      ((discardedKeys (Target.existing t s.root) (records.map (·.1))).foldl Target.discard
        (objects.foldl (fun t e => Target.install t e.1 e.2) t)), loaded) :=
  ⟨_, bind_eq_ok_iff.mpr ⟨records, hrecords, bind_eq_ok_iff.mpr ⟨objects, hobjects, rfl⟩⟩⟩

end target
end MinimalistGrammar
