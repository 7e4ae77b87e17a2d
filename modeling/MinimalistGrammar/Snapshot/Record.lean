import MinimalistGrammar.Snapshot.Codec

/-!
# Records and snapshots

A snapshot is a graph of objects laid flat: a record for every object, under its key, and the key of
the object from which all others can be reached.

## Main definitions

* `Record` — the class of an object and its fields.
* `Record.references` — the references in a record, with their paths.
* `Record.put`, `Record.take`, `Record.update` — fields written and read through codecs.
* `Snapshot` — the records by key, and the root.
-/

namespace MinimalistGrammar

instance {κ α : Type} [Ord κ] [BEq κ] [BEq α] : BEq (Dict κ α) :=
  ⟨fun d e => d.entries == e.entries⟩

/-- An object laid flat. -/
structure Record where
  className : String
  fields : Dict String Value := ∅
deriving BEq

namespace Record

/-- The path of a field. -/
def fieldPath (key field : String) : String := key ++ "." ++ field

/-- The references in the record of the object `key`, in order. -/
def references (r : Record) (key : String) : List Reference :=
  r.fields.entries.flatMap fun (field, v) => v.references (fieldPath key field)

variable {α : Type}

/-- The record with a field stored. -/
def put (r : Record) (key field : String) (c : Codec α) (a : α) : Except SaveError Record :=
  (c.store (fieldPath key field) a).map fun v => { r with fields := r.fields.insert field v }

/-- The data of a field; a missing field reads as null. -/
def take (r : Record) (key field : String) (c : Codec α) : Except LoadError α :=
  c.restore (fieldPath key field) ((r.fields.get? field).getD .null)

/-- The data of a field, or `a` if the field is missing. -/
def update (r : Record) (key field : String) (c : Codec α) (a : α) : Except LoadError α :=
  match r.fields.get? field with
  | some v => c.restore (fieldPath key field) v
  | none => .ok a

end Record

/-- A graph of objects laid flat. -/
structure Snapshot where
  /-- The key of the object from which all others can be reached. -/
  root : String
  records : Dict String Record
deriving BEq

end MinimalistGrammar
