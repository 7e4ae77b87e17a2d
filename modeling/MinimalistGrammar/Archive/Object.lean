import MinimalistGrammar.Archive.Codec
import MinimalistGrammar.Snapshot.Record

/-!
# Objects of a derivation tree and their records

## Main definitions

* `Object` — a derivation tree, a state, or an object of the store.
* `Object.record` — the record of an object.
* `Object.stub` — a new object of a class.
* `Object.fill` — an object with the fields of a record.
-/

namespace MinimalistGrammar

/-- An object of a derivation tree, the tree itself included. -/
inductive Object
  | tree (states : List StateId) (current : Option StateId) (nextId : Nat)
  | state (s : SyntaxState)
  | constituent (id : ConstituentId) (c : Constituent)
  | feature (id : FeatureId) (f : FeatureOccurrence)
  | group (id : GroupId) (g : Group)

namespace Object

/-- What an object's key names. -/
def objectKey : Object → ObjectKey
  | tree .. => .tree
  | state s => .object s.id
  | constituent id _ => .object id
  | feature id _ => .object id
  | group id _ => .object id

/-- Lists of nodes. -/
def nodesCodec : Codec (List ConstituentId) := .list (.ident .constituent)

/-! ### Writing -/

/-- The record of an object that has the key `key`. -/
def record (key : String) (object : Object) : Except SaveError Record := do
  let r : Record := { className := object.objectKey.className }
  match object with
  | tree states current nextId =>
    let r ← r.put key "states" (.list (.ident .state)) states
    let r ← r.put key "current" (.option (.ident .state)) current
    r.put key "next_id" .number nextId
  | state s =>
    let r ← r.put key "state_id" .number s.id.index
    let r ← r.put key "parent_id" (.option .number) (s.parent.map (·.index))
    let r ← r.put key "roots" nodesCodec s.roots
    let r ← r.put key "msg" .string s.message
    let r ← r.put key "groups" (.map .string (.ident .group)) s.groups
    r.put key "state_type" .stateType s.type
  | constituent _ c =>
    let r ← r.put key "label" .string c.label
    let r ← r.put key "parts" nodesCodec c.parts
    let r ← r.put key "features" (.list (.ident .feature)) c.features
    let r ← r.put key "lex_key" (.option .string) c.lexKey
    let r ← r.put key "parent_lex_key" (.option .string) c.parentLexKey
    let r ← r.put key "movers" (.map .string (.ident .constituent)) c.movers
    let r ← r.put key "head" (.option .head) c.head
    let r ← r.put key "lexical_heads" nodesCodec c.lexicalHeads
    let r ← r.put key "landing" (.option (.ident .constituent)) c.landing
    let r ← r.put key "address" .string c.address
    r.put key "attrs" (.map .string .attribute) c.attributes
  | feature _ f =>
    let r ← r.put key "name" .string f.feature.name
    let r ← r.put key "sign" .sign f.feature.sign
    let r ← r.put key "required" .bool f.feature.required
    let r ← r.put key "checks" (.option (.ident .feature)) f.checks
    let r ← r.put key "checked_by" (.option (.ident .feature)) f.checkedBy
    r.put key "host" (.option (.ident .constituent)) f.host
  | group _ g =>
    let r ← r.put key "name" .string g.name
    let r ← r.put key "members" nodesCodec g.members
    r.put key "color" (.option .color) g.color

/-! ### Reading -/

/-- A state as it is before its record is read. -/
def blankState (id : StateId) : SyntaxState :=
  { id, parent := none, roots := [], message := "", type := .prediction }

/-- The new object that a key names. -/
def blank : ObjectKey → Object
  | .tree => tree [] none 0
  | .object (k := .state) id => state (blankState id)
  | .object (k := .constituent) id => constituent id {}
  | .object (k := .feature) id => feature id { feature := .categorial "" }
  | .object (k := .group) id => group id {}

/-- The classes of which objects can be made. -/
def classes : List String := treeClass :: Kind.all.map Kind.className

/-- A new object of a class with a given key. -/
def stub (className key : String) : Except LoadError Object :=
  match ObjectKey.parse? key with
  | none => .error (.badKey key)
  | some objectKey =>
    if !classes.contains className then .error (.missingFactory className key)
    else if objectKey.className == className then .ok (blank objectKey)
    else .error (.badKey key)

/-- An object with the fields of the record of `key`. Where the record has no field, the object
keeps what it has. -/
def fill (key : String) (r : Record) : Object → Except LoadError Object
  | tree states current nextId => do
    let states ← r.update key "states" (.list (.ident .state)) states
    let current ← r.update key "current" (.option (.ident .state)) current
    let nextId ← r.update key "next_id" .number nextId
    return tree states current nextId
  | state s => do
    let parent ← r.update key "parent_id" (.option .number) (s.parent.map (·.index))
    let roots ← r.update key "roots" nodesCodec s.roots
    let message ← r.update key "msg" .string s.message
    let groups ← r.update key "groups" (.map .string (.ident .group)) s.groups
    let type ← r.update key "state_type" .stateType s.type
    return state { id := s.id, parent := parent.map fun n => ⟨n⟩, roots, message, groups, type }
  | constituent id c => do
    let label ← r.update key "label" .string c.label
    let parts ← r.update key "parts" nodesCodec c.parts
    let features ← r.update key "features" (.list (.ident .feature)) c.features
    let lexKey ← r.update key "lex_key" (.option .string) c.lexKey
    let parentLexKey ← r.update key "parent_lex_key" (.option .string) c.parentLexKey
    let movers ← r.update key "movers" (.map .string (.ident .constituent)) c.movers
    let head ← r.update key "head" (.option .head) c.head
    let lexicalHeads ← r.update key "lexical_heads" nodesCodec c.lexicalHeads
    let landing ← r.update key "landing" (.option (.ident .constituent)) c.landing
    let address ← r.update key "address" .string c.address
    let attributes ← r.update key "attrs" (.map .string .attribute) c.attributes
    return constituent id
      { label, parts, features, lexKey, parentLexKey, movers, head, lexicalHeads, landing, address,
        attributes }
  | feature id f => do
    let name ← r.update key "name" .string f.feature.name
    let sign ← r.update key "sign" .sign f.feature.sign
    let required ← r.update key "required" .bool f.feature.required
    let checks ← r.update key "checks" (.option (.ident .feature)) f.checks
    let checkedBy ← r.update key "checked_by" (.option (.ident .feature)) f.checkedBy
    let host ← r.update key "host" (.option (.ident .constituent)) f.host
    return feature id { feature := { name, sign, required }, checks, checkedBy, host }
  | group id g => do
    let name ← r.update key "name" .string g.name
    let members ← r.update key "members" nodesCodec g.members
    let color ← r.update key "color" (.option .color) g.color
    return group id { name, members, color }

end Object
end MinimalistGrammar
