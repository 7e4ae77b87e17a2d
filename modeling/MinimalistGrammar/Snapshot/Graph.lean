import MinimalistGrammar.Snapshot.Record
import MinimalistGrammar.Visited

/-!
# Walking, saving and loading graphs of objects

Objects are visited breadth first from a root, each of them once, along the references in their
records. Saving keeps the records that are found. Loading finds them first and then puts the objects
into a target, so that a snapshot with an error changes nothing.

## Main definitions

* `Source` — the records of a graph that has finitely many objects; `Dict.source` is a graph that is
  nothing but its records.
* `Source.walk` — the records that can be reached from a root, in the order of the visits.
* `Source.save` — the snapshot of what can be reached from a root.
* `Target` — a graph into which snapshots can be loaded.
* `load` — brings a target to what a snapshot says.
-/

namespace MinimalistGrammar

/-! ### Walking -/

/-- The records of a graph. Reading a record may fail with an error of type `ε`. -/
structure Source (ε : Type) where
  /-- The record of the object `key`, if there is such an object. -/
  record (key : String) : Except ε (Option Record)
  /-- There are finitely many objects. -/
  finite : ∃ keys : List String, ∀ key r, record key = .ok (some r) → key ∈ keys

namespace Source

variable {ε : Type}

/-- The keys of all objects. -/
noncomputable def keys (s : Source ε) : List String := s.finite.choose

theorem mem_keys {s : Source ε} {key : String} {r : Record} (h : s.record key = .ok (some r)) :
    key ∈ s.keys :=
  s.finite.choose_spec key r h

/-- The keys of the objects that have not been visited. -/
noncomputable def unvisited (s : Source ε) (visited : Std.TreeSet String) : List String :=
  s.keys.filter (! visited.contains ·)

/-- A visit to a new object leaves fewer objects to visit. -/
theorem length_unvisited_insert_lt {s : Source ε} {visited : Std.TreeSet String} {key : String}
    {r : Record} (h : s.record key = .ok (some r)) (hnew : visited.contains key = false) :
    (s.unvisited (visited.insert key)).length < (s.unvisited visited).length :=
  length_filter_insert_lt (mem_keys h) hnew

/-- Visits the objects to which the references in `now` lead, then those to which the lists in
`later` lead, the last list first, and all that they lead to. `found` are the records found so far,
the last one first. An object that is missing is reported with the place where it was first referred
to. -/
def visit (s : Source ε) (missing : Reference → ε) (visited : Std.TreeSet String)
    (found : List (String × Record)) (later : List (List Reference)) :
    List Reference → Except ε (List (String × Record))
  | [] =>
    if _hdone : later = [] then .ok found.reverse
    -- one level further: all references of this level, in the order of its visits
    else s.visit missing visited found [] later.reverse.flatten
  | ref :: now =>
    if _hnew : visited.contains ref.key then s.visit missing visited found later now
    else
      match _h : s.record ref.key with
      | .error e => .error e
      | .ok none => .error (missing ref)
      | .ok (some r) =>
        s.visit missing (visited.insert ref.key) ((ref.key, r) :: found)
          (r.references ref.key :: later) now
termination_by now => ((s.unvisited visited).length, later.length, now.length)
decreasing_by
  · exact Prod.Lex.right _ (Prod.Lex.left _ _ (List.length_pos_iff.mpr _hdone))
  · exact Prod.Lex.right _ (Prod.Lex.right _ (by simp))
  · exact Prod.Lex.left _ _ (length_unvisited_insert_lt _h (Bool.eq_false_iff.mpr _hnew))

/-- The records that can be reached from `root`, in the order of the visits. -/
def walk (s : Source ε) (missing : Reference → ε) (root : String) :
    Except ε (List (String × Record)) :=
  s.visit missing ∅ [] [] [{ path := root, key := root }]

end Source

/-- A graph that is nothing but its records. -/
def Dict.source {ε : Type} (records : Dict String Record) : Source ε :=
  -- the index finds a record faster than going through all of them
  let index := Std.TreeMap.ofList records.entries
  { record := fun key => .ok index[key]?
    finite := ⟨index.keys, fun key r h => Std.TreeMap.mem_keys.mpr
      (Std.TreeMap.mem_iff_isSome_getElem?.mpr (by rw [Except.ok.inj h]; rfl))⟩ }

/-! ### Saving -/

/-- The error for an object that is missing in a graph. -/
def unknownObject (ref : Reference) : SaveError := .unknownObject ref.path ref.key

/-- The snapshot of what can be reached from `root`. -/
def Source.save (s : Source SaveError) (root : String) : Except SaveError Snapshot :=
  (s.walk unknownObject root).map fun records => { root, records := Dict.ofList records }

/-! ### Loading -/

/-- The error for a record that is missing in a snapshot. -/
def danglingReference (ref : Reference) : LoadError := .dangling ref.path ref.key

/-- The records of a snapshot as a graph. -/
def Snapshot.source (s : Snapshot) : Source LoadError := s.records.source

/-- The records that can be reached from the root of a snapshot, in the order of the visits. -/
def Snapshot.reachable (s : Snapshot) : Except LoadError (List (String × Record)) :=
  if s.records.contains s.root then s.source.walk danglingReference s.root
  else .error (.missingRoot s.root)

/-- A graph of type `τ` into which snapshots can be loaded; `σ` is the type of an object that has
been made but is not in the graph yet. -/
class Target (τ : Type) (σ : outParam Type) where
  /-- The keys of the objects that can be reached from a root. -/
  existing (t : τ) (root : String) : Std.TreeSet String
  /-- Makes the object of a record. If `reuse` holds, it is the object in the graph, changed as the
  record says, otherwise a new one. -/
  stage (t : τ) (key : String) (r : Record) (reuse : Bool) : Except LoadError σ
  /-- Puts an object into the graph. -/
  install (t : τ) (key : String) (object : σ) : τ
  /-- Drops an object that the snapshot does not have. -/
  discard (t : τ) (key : String) : τ
  /-- Called for every object that was loaded, when all of them are in place. -/
  finish (t : τ) (_key : String) : τ := t

/-- What loading has done. -/
structure Loaded where
  /-- All keys of the snapshot that can be reached, the root first. -/
  restored : List String
  /-- Those that were new to the graph. -/
  created : List String
  /-- The keys of what was dropped. -/
  discarded : List String
deriving DecidableEq, Repr

/-- The objects of some records, made in order. -/
def stageAll {τ σ : Type} [Target τ σ] (t : τ) (existing : Std.TreeSet String) :
    List (String × Record) → Except LoadError (List (String × σ))
  | [] => .ok []
  | (key, r) :: rest => do
    let object ← Target.stage t key r (existing.contains key)
    let objects ← stageAll t existing rest
    return (key, object) :: objects

/-- The keys that a snapshot does not have. -/
def discardedKeys (existing : Std.TreeSet String) (restored : List String) : List String :=
  let kept := Std.TreeSet.ofList restored
  existing.toList.filter (! kept.contains ·)

/-- Brings a target to what a snapshot says. An error leaves it as it was. -/
def load {τ σ : Type} [Target τ σ] (t : τ) (s : Snapshot) : Except LoadError (τ × Loaded) := do
  let records ← s.reachable
  let existing := Target.existing t s.root
  let objects ← stageAll t existing records
  let restored := records.map (·.1)
  let discarded := discardedKeys existing restored
  let installed := objects.foldl (fun t (key, object) => Target.install t key object) t
  let cleared := discarded.foldl Target.discard installed
  return (restored.foldl Target.finish cleared,
    { restored, created := restored.filter (! existing.contains ·), discarded })

/-! ### Records as a target -/

/-- A graph that is nothing but its records. -/
instance : Target (Dict String Record) Record where
  existing t _ := Std.TreeSet.ofList t.keys
  stage _ _ r _ := .ok r
  install t key r := t.insert key r
  discard t key := t.erase key

end MinimalistGrammar
