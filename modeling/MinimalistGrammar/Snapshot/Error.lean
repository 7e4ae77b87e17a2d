import MinimalistGrammar.Decimal.Layout

/-!
# What can go wrong with snapshots

## Main definitions

* `SaveError` — why a graph of objects cannot be saved.
* `LoadError` — why a snapshot cannot be loaded.
-/

namespace MinimalistGrammar

/-- Why a graph of objects cannot be saved. -/
inductive SaveError
  /-- A value is computed on demand. -/
  | forbidden (path : String)
  /-- A value is of a type that only others understand. -/
  | unknownType (path typeName : String)
  /-- There is no object with a key that is referred to. -/
  | unknownObject (path key : String)
  /-- A number is infinite or not a number. -/
  | notFinite (path : String) (x : Float)

/-- The message for an error. -/
def SaveError.message : SaveError → String
  | forbidden path => path ++ ": functions can't be saved"
  | unknownType path typeName =>
    path ++ ": don't know how to save a value of type " ++ typeName
  | unknownObject path key => path ++ ": reference to unknown object " ++ key
  | notFinite path x => path ++ ": " ++ Decimal.plain.write x ++ " has no JSON number"

/-- Why a snapshot cannot be loaded. -/
inductive LoadError
  /-- There is no record with a key that is referred to. -/
  | dangling (path key : String)
  /-- There is no record for the root. -/
  | missingRoot (key : String)
  /-- Objects of some class cannot be made. -/
  | missingFactory (className key : String)
  /-- A value is not of the form that is expected at its place. -/
  | typeMismatch (path expected : String)
  /-- A key names no object, or one of another class. -/
  | badKey (key : String)
  /-- A file has no text. -/
  | unreadable
  /-- A text is not the JSON of a snapshot. -/
  | malformed
deriving DecidableEq, Repr

/-- The message for an error. The last two have messages of the system that read the text. -/
def LoadError.message : LoadError → Option String
  | dangling path key => some (path ++ ": dangling reference to " ++ key)
  | missingRoot key => some ("snapshot has no record for root " ++ key)
  | missingFactory className key =>
    some ("no factory for class " ++ className ++ " (needed by " ++ key ++ ")")
  | typeMismatch path expected => some (path ++ ": expected " ++ expected)
  | badKey key => some ("malformed object key `" ++ key ++ "`")
  | unreadable | malformed => none

end MinimalistGrammar
