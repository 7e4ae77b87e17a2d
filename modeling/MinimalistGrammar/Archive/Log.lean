import MinimalistGrammar.Archive.Tree
import MinimalistGrammar.Snapshot.Text
import MinimalistGrammar.Text.Blank

/-!
# Derivation logs

A derivation log has one record for every state of a derivation tree, in the order of the states,
each with all the objects that the state shows. As text it is one JSON object a line.

## Main definitions

* `LogRecord` — a state with its objects.
* `DerivationTree.exportLog`, `DerivationTree.ofLog` — the log of a tree, and the tree of a log.
* `logText`, `readLog` — a log as text.
-/

namespace MinimalistGrammar

/-- A state with all the objects that it shows. -/
structure LogRecord where
  state : Nat
  parent : Option Nat
  /-- The number of the state's type. -/
  type : Nat
  message : String
  /-- References to the roots. -/
  roots : Value
  /-- References to the groups, by name. -/
  groups : Value
  objects : Snapshot
deriving BEq

/-! ### From a tree and back -/

namespace DerivationTree

/-- The record of a state. -/
def logRecord (t : DerivationTree) (s : SyntaxState) : Except SaveError LogRecord := do
  let key := s.id.key
  let roots ← Object.nodesCodec.store (Record.fieldPath key "roots") s.roots
  let groups ←
    (Codec.map .string (.ident .group)).store (Record.fieldPath key "groups") s.groups
  let objects ← t.saveFrom key
  return { state := s.id.index
           parent := s.parent.map (·.index)
           type := s.type.code
           message := s.message
           roots, groups, objects }

/-- The log of a tree. -/
def exportLog (t : DerivationTree) : Except SaveError (List LogRecord) :=
  t.states.values.mapM t.logRecord

/-- The record of a tree that has given states, the one with the highest number being current. -/
def treeRecord (states : List StateId) : Record :=
  let current : Option StateId := states.max?
  let reference (id : StateId) : Value := .ref id.key
  { className := treeClass
    fields := Dict.ofList
      [("states", .list (states.map reference)),
        ("current", current.elim .null reference),
        ("next_id", .int (current.elim 0 fun id => id.index + 1))] }

/-- The snapshot that the records of a log make up. Of two records of one object the later
counts. -/
def logSnapshot (records : List LogRecord) : Snapshot :=
  let objects := records.flatMap fun r => r.objects.records.entries
  let states := records.map fun r => (⟨r.state⟩ : StateId)
  { root := treeClass, records := (Dict.ofList objects).insert treeClass (treeRecord states) }

/-- The tree of a log. -/
def ofLog (records : List LogRecord) : Except LoadError DerivationTree :=
  ofSnapshot (logSnapshot records)

end DerivationTree

/-! ### As text -/

namespace LogRecord

/-- A record as JSON. -/
def toJson (r : LogRecord) : Json :=
  .obj
    [("state_id", .int r.state),
      ("parent_id", r.parent.elim .null fun n => .int n),
      ("state_type", .int r.type),
      ("msg", .str r.message),
      ("roots", r.roots.toJson),
      ("groups", r.groups.toJson),
      ("objects", r.objects.toJson)]

/-- The names of the fields of a record. -/
def fieldNames : List String :=
  ["state_id", "parent_id", "state_type", "msg", "roots", "groups", "objects"]

/-- A number in a range. -/
def readNat? (r : IntRange) : RawJson → Option Nat
  | .number n =>
    match n.value? with
    | some (.int i) => if r.contains i then some i.toNat else none
    | _ => none
  | _ => none

/-- A number that may be missing. -/
def readOptional? (r : IntRange) : Option RawJson → Option (Option Nat)
  | none => some none
  | some .null => some none
  | some j => (readNat? r j).map some

/-- A snapshot value. -/
def readValue? (j : RawJson) : Option Value := do
  let j ← j.decode (nestingLimit - 1)
  (Value.ofJson j).toOption

/-- Reads a record. -/
def ofRaw (j : RawJson) : Option LogRecord :=
  match j.members? fieldNames with
  | some [some state, parent, some type, some message, some roots, some groups, some objects] => do
    let state ← readNat? .u32 state
    let parent ← readOptional? .u32 parent
    let type ← readNat? .u8 type
    let message ← message.string?
    let roots ← readValue? roots
    let groups ← readValue? groups
    let objects ← Snapshot.ofRaw (nestingLimit - recordLevel - 1) objects
    some { state, parent, type, message, roots, groups, objects }
  | _ => none

end LogRecord

/-- A log as text, one record a line. -/
def logText (records : List LogRecord) : String :=
  String.join (records.map fun r => r.toJson.compact ++ "\n")

/-- Reads a log. Blank lines are passed over. -/
def readLog (text : String) : Except LoadError (List LogRecord) :=
  ((Text.linesOf text).filter fun line => !(Text.trim line.toList).isEmpty).mapM fun line =>
    match (RawJson.parse line).bind LogRecord.ofRaw with
    | some r => .ok r
    | none => .error .malformed

/-- Reads the tree of the log in a file. -/
def DerivationTree.ofLogFile (contents : Except FileError String) :
    Except LoadError DerivationTree :=
  match contents with
  | .error _ => .error .unreadable
  | .ok text => do ofLog (← readLog text)

end MinimalistGrammar
