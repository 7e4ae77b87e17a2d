import MinimalistGrammar.Dict
import MinimalistGrammar.Decimal.Nearest

/-!
# JSON values

Numbers without fraction or exponent that fit a 64-bit word are integers, all others are doubles.
The fields of an object are kept in the order in which they are written.

## Main definitions

* `Json` — a JSON value.
* `Json.double?` — the value of a number as a double.
* `doubleOfInt` — the double nearest to an integer.
-/

namespace MinimalistGrammar

/-- A JSON value. -/
inductive Json
  | null
  | bool (b : Bool)
  | int (n : Int)
  | float (x : Float)
  | str (s : String)
  | arr (items : List Json)
  | obj (fields : List (String × Json))
deriving BEq, Inhabited

/-- The double nearest to an integer. -/
def doubleOfInt (n : Int) : Float :=
  if n < 0 then -Decimal.nearest n.natAbs 0 else Decimal.nearest n.natAbs 0

namespace Json

/-- The value of a number as a double. -/
def double? : Json → Option Float
  | int n => some (doubleOfInt n)
  | float x => some x
  | _ => none

/-- The text of a string. -/
def str? : Json → Option String
  | str s => some s
  | _ => none

/-- The items of an array. -/
def arr? : Json → Option (List Json)
  | arr items => some items
  | _ => none

/-- The fields of an object. -/
def obj? : Json → Option (List (String × Json))
  | obj fields => some fields
  | _ => none

/-- The value of a field of an object. -/
def field? (j : Json) (name : String) : Option Json := j.obj?.bind (·.lookup name)

end Json
end MinimalistGrammar
