import MinimalistGrammar.Decimal.Power
import MinimalistGrammar.Json.Print
import MinimalistGrammar.Snapshot.Value

/-!
# Snapshot values as JSON

Truth values, numbers and strings stand for themselves. All other values are arrays that begin with
the name of their form, so that a string is never taken for a reference and a list never for a set.
JSON has finite numbers only; all other doubles are written as null.

## Main definitions

* `Value.toJson` — a value as JSON.
* `ValueFault` — why JSON is no value.
* `Value.ofJson` — the value that JSON stands for.
* `Value.float?` — the value of a number as a double.
-/

namespace MinimalistGrammar

/-- An array that begins with the name of a form. -/
def tagged (tag : String) (items : List Json) : Json := .arr (.str tag :: items)

/-- A double as JSON. -/
def doubleJson (x : Float) : Json := if x.isFinite then .float x else .null

/-- A channel of a colour as JSON. -/
def channelJson (n : UInt8) : Json := .int n.toNat

namespace Value

mutual

/-- A value as JSON. -/
def toJson : Value → Json
  | null => .null
  | bool b => .bool b
  | int n => .int n
  | float x => doubleJson x
  | str s => .str s
  | list items => tagged "list" (itemsToJson items)
  | tuple items => tagged "tuple" (itemsToJson items)
  | set items => tagged "set" (itemsToJson items)
  | map entries => tagged "map" (entriesToJson entries)
  | point p => tagged "Point" [doubleJson p.x, doubleJson p.y]
  | rect r => tagged "Rect" [doubleJson r.x, doubleJson r.y, doubleJson r.w, doubleJson r.h]
  | color c => tagged "Color" [channelJson c.r, channelJson c.g, channelJson c.b, channelJson c.a]
  | ref key => tagged "ref" [.str key]

/-- The items of a container as JSON. -/
def itemsToJson : List Value → List Json
  | [] => []
  | v :: vs => v.toJson :: itemsToJson vs

/-- The entries of a map as pairs. -/
def entriesToJson : List (Value × Value) → List Json
  | [] => []
  | (k, v) :: rest => .arr [k.toJson, v.toJson] :: entriesToJson rest

end

end Value

/-! ### Reading JSON -/

/-- Why JSON is no value. -/
inductive ValueFault
  | objectFound
  | missingTag
  | unknownTag (tag : String)
  | badPair (found : Json)
  | badNumber (found : Json)
  | badChannel (found : Json)
  | badCount (tag : String) (expected found : Nat)
  | badChannelCount (found : Nat)
  | badReference

namespace ValueFault

/-- The message for a fault. -/
def message : ValueFault → String
  | objectFound => "objects are not snapshot values"
  | missingTag => "composite values must start with a type tag"
  | unknownTag tag => "unknown type tag " ++ tag
  | badPair found => "map entries are [key, value] pairs, found " ++ found.compact
  | badNumber found => "expected a number, found " ++ found.compact
  | badChannel found => "expected a colour channel, found " ++ found.compact
  | badCount tag expected found =>
    tag ++ " takes " ++ toString expected ++ " numbers, found " ++ toString found
  | badChannelCount found => "Color takes 4 channels, found " ++ toString found
  | badReference => "ref takes a single key"

end ValueFault

/-- A number as a double. -/
def readNumber (j : Json) : Except ValueFault Float :=
  match j.double? with
  | some x => .ok x
  | none => .error (.badNumber j)

/-- A channel of a colour. -/
def readChannel (j : Json) : Except ValueFault UInt8 :=
  match j with
  | .int n => if 0 ≤ n ∧ n < 256 then .ok (UInt8.ofNat n.toNat) else .error (.badChannel j)
  | _ => .error (.badChannel j)

/-- A point from its coordinates. -/
def readPoint : List Json → Except ValueFault Point
  | [x, y] => do return { x := ← readNumber x, y := ← readNumber y }
  | items => .error (.badCount "Point" 2 items.length)

/-- A rectangle from its corner and size. -/
def readRect : List Json → Except ValueFault Rect
  | [x, y, w, h] => do
    return { x := ← readNumber x, y := ← readNumber y, w := ← readNumber w, h := ← readNumber h }
  | items => .error (.badCount "Rect" 4 items.length)

/-- A colour from its channels. -/
def readColor : List Json → Except ValueFault Color
  | [r, g, b, a] => do
    return { r := ← readChannel r, g := ← readChannel g, b := ← readChannel b,
             a := ← readChannel a }
  | items => .error (.badChannelCount items.length)

/-- A reference from its key. -/
def readReference : List Json → Except ValueFault String
  | [.str key] => .ok key
  | _ => .error .badReference

namespace Value

/-- The value of an integer: a double if it does not fit a signed 64-bit word. -/
def ofInt (n : Int) : Value :=
  if -(pow2 63 : Int) ≤ n ∧ n < pow2 63 then int n else float (doubleOfInt n)

mutual

/-- The value that JSON stands for. -/
def ofJson : Json → Except ValueFault Value
  | .null => .ok null
  | .bool b => .ok (bool b)
  | .int n => .ok (ofInt n)
  | .float x => .ok (float x)
  | .str s => .ok (str s)
  | .obj _ => .error .objectFound
  | .arr (.str tag :: items) =>
    match tag with
    | "list" => (ofItems items).map list
    | "tuple" => (ofItems items).map tuple
    | "set" => (ofItems items).map set
    | "map" => (ofEntries items).map map
    | "Point" => (readPoint items).map point
    | "Rect" => (readRect items).map rect
    | "Color" => (readColor items).map color
    | "ref" => (readReference items).map ref
    | _ => .error (.unknownTag tag)
  | .arr _ => .error .missingTag

/-- The values that the items of an array stand for. -/
def ofItems : List Json → Except ValueFault (List Value)
  | [] => .ok []
  | j :: js => do
    let v ← ofJson j
    let vs ← ofItems js
    .ok (v :: vs)

/-- The entries that pairs stand for. -/
def ofEntries : List Json → Except ValueFault (List (Value × Value))
  | [] => .ok []
  | .arr [k, v] :: js => do
    let k ← ofJson k
    let v ← ofJson v
    let rest ← ofEntries js
    .ok ((k, v) :: rest)
  | j :: _ => .error (.badPair j)

end

/-- The value of a number as a double. -/
def float? : Value → Option Float
  | int n => some (doubleOfInt n)
  | float x => some x
  | _ => none

end Value
end MinimalistGrammar
