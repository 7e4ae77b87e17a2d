import MinimalistGrammar.Archive.Object
import MinimalistGrammar.Derivation.Tree
import MinimalistGrammar.Snapshot.Graph

/-!
# Saving and loading derivation trees

The graph of a derivation tree has the tree as its root; from there one gets to the states, and from
the states to all that they show.

## Main definitions

* `DerivationTree.object?` — the object that a key names.
* `DerivationTree.source` — a derivation tree as a graph of records.
* `DerivationTree.relink` — the lists of children and the cursor set up anew.
* `DerivationTree.save`, `DerivationTree.load`, `DerivationTree.ofSnapshot` — to snapshots and back.
-/

namespace MinimalistGrammar
namespace DerivationTree

/-! ### A derivation tree as a graph -/

/-- The object that a key names. -/
def objectOf? (t : DerivationTree) : ObjectKey → Option Object
  | .tree => some (.tree t.states.keys t.current t.nextId)
  | .object (k := .state) id => (t.state? id).map .state
  | .object (k := .constituent) id => (t.store.constituent? id).map (.constituent id)
  | .object (k := .feature) id => (t.store.feature? id).map (.feature id)
  | .object (k := .group) id => (t.store.group? id).map (.group id)

/-- The object with a given key. -/
def object? (t : DerivationTree) (key : String) : Option Object :=
  (ObjectKey.parse? key).bind t.objectOf?

/-- The record of the object with a given key. -/
def record (t : DerivationTree) (key : String) : Except SaveError (Option Record) :=
  match t.object? key with
  | none => .ok none
  | some object => (object.record key).map some

/-- The keys of all objects. -/
def objectKeys (t : DerivationTree) : List String :=
  treeClass :: t.states.keys.map Ident.key ++ t.store.constituents.keys.map Ident.key ++
    t.store.features.keys.map Ident.key ++ t.store.groups.keys.map Ident.key

theorem mem_keys_map {k : Kind} {α β : Type} {m : IdentMap k α} {id : Ident k} {f : α → β} {b : β}
    (h : (m[id]?).map f = some b) : id.key ∈ m.keys.map Ident.key := by
  refine List.mem_map_of_mem (Std.TreeMap.mem_keys.mpr ?_)
  refine Std.TreeMap.mem_iff_isSome_getElem?.mpr ?_
  obtain ⟨a, ha, -⟩ := Option.map_eq_some_iff.mp h
  rw [ha]
  rfl

/-- An object is found under its own key. -/
theorem text_mem_objectKeys {t : DerivationTree} {key : ObjectKey} {object : Object}
    (h : t.objectOf? key = some object) : key.text ∈ t.objectKeys := by
  simp only [objectKeys, List.cons_append, List.mem_cons, List.mem_append]
  cases key with
  | tree => exact Or.inl rfl
  | @object k id =>
    refine Or.inr ?_
    cases k with
    | state => exact Or.inl (Or.inl (Or.inl (mem_keys_map h)))
    | constituent => exact Or.inl (Or.inl (Or.inr (mem_keys_map h)))
    | feature => exact Or.inl (Or.inr (mem_keys_map h))
    | group => exact Or.inr (mem_keys_map h)

/-- Whether a key is written with no more digits than it needs. -/
def isPlainKey (key : String) : Bool := (ObjectKey.parse? key).any (·.text == key)

theorem mem_objectKeys_of_record {t : DerivationTree} {key : String} {r : Record}
    (hplain : isPlainKey key = true) (h : t.record key = .ok (some r)) : key ∈ t.objectKeys := by
  obtain ⟨objectKey, hkey, htext⟩ := (Option.any_eq_true ..).mp hplain
  rw [record, object?, hkey] at h
  cases hobject : t.objectOf? objectKey with
  | none => simp [hobject] at h
  | some object => exact eq_of_beq htext ▸ text_mem_objectKeys hobject

/-- A derivation tree as a graph. References are plain keys; only the key from which one starts may
be written with more digits than it needs. -/
def source (t : DerivationTree) (root : String) : Source SaveError where
  record key := if key == root || isPlainKey key then t.record key else .ok none
  finite := by
    refine ⟨root :: t.objectKeys, fun key r h => ?_⟩
    split at h
    · next hkey =>
      rcases Bool.or_eq_true .. ▸ hkey with hroot | hplain
      · exact List.mem_cons.mpr (Or.inl (eq_of_beq hroot))
      · exact List.mem_cons_of_mem _ (mem_objectKeys_of_record hplain h)
    · simp at h

/-- The snapshot of what can be reached from the object with a given key. -/
def saveFrom (t : DerivationTree) (root : String) : Except SaveError Snapshot :=
  (t.source root).save root

/-- The snapshot of the whole tree. -/
def save (t : DerivationTree) : Except SaveError Snapshot := t.saveFrom treeClass

/-! ### A derivation tree as a target -/

/-- Everything that the states show. -/
def shown (t : DerivationTree) : Reachable :=
  t.store.reachable (t.states.values.flatMap (·.roots)) (t.states.values.flatMap (·.groups.values))

/-- The keys of the tree, its states, and all that they show. -/
def liveKeys (t : DerivationTree) : List String :=
  let shown := t.shown
  treeClass :: t.states.keys.map Ident.key ++ shown.constituents.toList.map Ident.key ++
    shown.features.toList.map Ident.key ++ shown.groups.toList.map Ident.key

/-- Puts a state into the tree. The lists of children are not kept up. -/
def putState (t : DerivationTree) (s : SyntaxState) : DerivationTree :=
  { t with states := t.states.insert s.id s, nextId := max t.nextId (s.id.index + 1) }

/-- Puts an object into the tree. -/
def putObject (t : DerivationTree) : Object → DerivationTree
  | .tree _ current nextId => { t with current, nextId := max t.nextId nextId }
  | .state s => t.putState s
  | .constituent id c => { t with store := t.store.putConstituent id c }
  | .feature id f => { t with store := t.store.putFeature id f }
  | .group id g => { t with store := t.store.putGroup id g }

/-- Drops the object that a key names. -/
def dropObject (t : DerivationTree) : ObjectKey → DerivationTree
  | .tree => t
  | .object (k := .state) id => { t with states := t.states.erase id }
  | .object (k := .constituent) id => { t with store := t.store.removeConstituent id }
  | .object (k := .feature) id => { t with store := t.store.removeFeature id }
  | .object (k := .group) id => { t with store := t.store.removeGroup id }

/-- The lists of children with the state `id` behind the other children of its parent. -/
def linkChild (children : IdentMap .state (List StateId)) (id : StateId) (s : SyntaxState) :
    IdentMap .state (List StateId) :=
  match s.parent with
  | none => children
  | some p => children.alter p fun l => some (l.getD [] ++ [id])

/-- The list of children of every state, from the parents of the states. -/
def linkChildren (states : IdentMap .state SyntaxState) : IdentMap .state (List StateId) :=
  states.foldl linkChild (states.map fun _ _ => [])

/-- The tree with its lists of children and its cursor set up anew, when states have come and gone
one by one. -/
def relink (t : DerivationTree) : DerivationTree :=
  let t := { t with children := linkChildren t.states }
  -- numbers in use are not given out again, even if the counter was read from a record
  let highest := t.states.keys.getLast?.elim 0 fun id => id.index + 1
  let current := t.current.filter t.contains
  { t with
    nextId := max t.nextId highest
    current
    active := current.map t.firstTerminal }.notify .reloaded

/-- The object that a record changes: the live one with its key, or a new one. -/
def baseObject (t : DerivationTree) (key : String) (r : Record) (reuse : Bool) :
    Except LoadError Object :=
  match if reuse then t.object? key else none with
  | some object => .ok object
  | none => Object.stub r.className key

/-- The object of a record: a live one with the fields of the record, or a new one. -/
def stageObject (t : DerivationTree) (key : String) (r : Record) (reuse : Bool) :
    Except LoadError Object := do
  let object ← t.baseObject key r reuse
  if object.objectKey.className == r.className then object.fill key r else .error (.badKey key)

instance : Target DerivationTree Object where
  existing t root :=
    if root == treeClass then Std.TreeSet.ofList t.liveKeys else ∅
  stage := stageObject
  install t _ object := t.putObject object
  discard t key := (ObjectKey.read? key).elim t t.dropObject
  finish t key := if key == treeClass then t.relink else t

/-! ### Snapshots of derivation trees -/

/-- Makes the tree what a snapshot says. Ids that have been given out are not given out again. -/
def load (t : DerivationTree) (s : Snapshot) : Except LoadError (DerivationTree × Loaded) :=
  if s.root == treeClass then MinimalistGrammar.load t s else .error (.missingRoot treeClass)

/-- The tree that a snapshot describes. -/
def ofSnapshot (s : Snapshot) : Except LoadError DerivationTree :=
  (({} : DerivationTree).load s).map (·.1)

end DerivationTree
end MinimalistGrammar
