import MinimalistGrammar.File
import MinimalistGrammar.Json.Decode
import MinimalistGrammar.Snapshot.Record

/-!
# Snapshots as text

A snapshot is written as a JSON object: first its root, then its records by key, each with its class
before its fields. When it is read, the order does not count and other fields are passed over, but a
field must not be missing or come twice. An array of the values in order is read as well.

## Main definitions

* `Record.toJson`, `Snapshot.toJson`, `Snapshot.text` — writing.
* `Record.ofFields`, `Record.ofJson` — a record from its fields.
* `RawJson.members?` — the values of the fields that an object must have.
* `Snapshot.ofRaw`, `Snapshot.parse`, `Snapshot.ofFile` — reading.
-/

namespace MinimalistGrammar

/-! ### Writing -/

/-- A record as JSON, its class first. -/
def Record.toJson (r : Record) : Json :=
  .obj (("class_name", .str r.className) ::
    r.fields.entries.map fun (name, v) => (name, v.toJson))

/-- Records as JSON. -/
def recordsJson (records : Dict String Record) : Json :=
  .obj (records.entries.map fun (key, r) => (key, r.toJson))

/-- A snapshot as JSON, its root first. -/
def Snapshot.toJson (s : Snapshot) : Json :=
  .obj [("root", .str s.root), ("records", recordsJson s.records)]

/-- A snapshot as text, one field or item a line. -/
def Snapshot.text (s : Snapshot) : String := s.toJson.pretty

/-! ### Records -/

/-- The fields other than the class, as values. -/
def fieldValues (fields : List (String × Json)) : Option (List (String × Value)) :=
  (fields.filter (·.1 != "class_name")).mapM fun (name, j) =>
    (Value.ofJson j).toOption.map fun v => (name, v)

/-- A record from its fields, one of which is its class. Of two other fields with one name the
later counts. -/
def Record.ofFields (fields : List (String × Json)) : Option Record :=
  match fields.filter (·.1 == "class_name") with
  | [(_, .str className)] =>
    (fieldValues fields).map fun values => { className, fields := Dict.ofList values }
  | _ => none

/-- A record from JSON. -/
def Record.ofJson (j : Json) : Option Record := j.obj?.bind Record.ofFields

/-- Records by key from JSON. -/
def recordsOfJson (j : Json) : Option (Dict String Record) := do
  let records ← (← j.obj?).mapM fun (key, j) => do
    let r ← Record.ofJson j
    return (key, r)
  return Dict.ofList records

namespace RawJson

/-! ### Objects with given fields -/

/-- The names of the fields of an object, with the values as written. -/
def namedFields (fields : List (List StringPiece × RawJson)) : Option (List (String × RawJson)) :=
  fields.mapM fun (name, j) => (decodeString name).map fun name => (name, j)

/-- The value of the field `name`, `none` if there is no such field. A field must not come twice. -/
def member? (fields : List (String × RawJson)) (name : String) : Option (Option RawJson) :=
  match fields.filter (·.1 == name) with
  | [] => some none
  | [(_, j)] => some (some j)
  | _ => none

/-- The values of fields with given names, `none` for a missing one; from an array, the items in
this order. -/
def members? (names : List String) : RawJson → Option (List (Option RawJson))
  | obj fields => (namedFields fields).bind fun fields => names.mapM (member? fields)
  | arr items => if items.length == names.length then some (items.map some) else none
  | _ => none

/-- The text of a string. -/
def string? : RawJson → Option String
  | str pieces => decodeString pieces
  | _ => none

/-- The names of the fields of an object and their values as JSON, `depth` levels being left. -/
def fields? (depth : Nat) : RawJson → Option (List (String × Json))
  | obj fields => decodeFields depth fields
  | _ => none

end RawJson

/-! ### Reading -/

/-- Records by key, `depth` levels of nesting being left below the records. -/
def recordsOfRaw (depth : Nat) : RawJson → Option (Dict String Record)
  | .obj fields => do
    let named ← RawJson.namedFields fields
    let records ← named.mapM fun (key, j) => do
      let r ← Record.ofFields (← j.fields? depth)
      return (key, r)
    return Dict.ofList records
  | _ => none

/-- A snapshot, `depth` levels of nesting being left below its records. -/
def Snapshot.ofRaw (depth : Nat) (j : RawJson) : Option Snapshot :=
  match j.members? ["root", "records"] with
  | some [some root, some records] => do
    let root ← root.string?
    let records ← recordsOfRaw depth records
    some { root, records }
  | _ => none

/-- How many levels of nesting a record inside a snapshot is below the top. -/
def recordLevel : Nat := 3

/-- Reads a snapshot. -/
def Snapshot.parse (text : String) : Except LoadError Snapshot :=
  match (RawJson.parse text).bind (Snapshot.ofRaw (nestingLimit - recordLevel)) with
  | some s => .ok s
  | none => .error .malformed

/-- Reads a snapshot from a file. -/
def Snapshot.ofFile (contents : Except FileError String) : Except LoadError Snapshot :=
  match contents with
  -- bytes that are not text are found out only by the reader of JSON
  | .error .notUtf8 => .error .malformed
  | .error _ => .error .unreadable
  | .ok text => Snapshot.parse text

end MinimalistGrammar
