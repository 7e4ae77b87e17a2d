import MinimalistGrammar.Json.Raw

/-!
# From the structure of a JSON text to its value

Strings have to spell characters, numbers have to be in range, and arrays and objects may be nested
only so deep. An object is a map: its names are put in order, and the last of several fields with
one name counts.

## Main definitions

* `decodeString` — the string that pieces spell.
* `RawJson.decode` — the value of a text, `depth` levels of nesting being left.
* `Json.parse` — reads a whole text.
-/

namespace MinimalistGrammar

/-- Whether a 16-bit unit is the first of a pair. -/
def isHighSurrogate (n : Nat) : Bool := 0xD800 ≤ n && n ≤ 0xDBFF

/-- Whether a 16-bit unit is the second of a pair. -/
def isLowSurrogate (n : Nat) : Bool := 0xDC00 ≤ n && n ≤ 0xDFFF

/-- The characters that pieces spell. Units of a pair must stand together, the first one first. -/
def decodePieces : List StringPiece → Option (List Char)
  | [] => some []
  | .char c :: rest => (decodePieces rest).map (c :: ·)
  | .unit n :: rest =>
    if isHighSurrogate n then
      match rest with
      | .unit m :: rest =>
        if isLowSurrogate m then
          (decodePieces rest).map
            (Char.ofNat (0x10000 + (n - 0xD800) * 0x400 + (m - 0xDC00)) :: ·)
        else none
      | _ => none
    else if isLowSurrogate n then none
    else (decodePieces rest).map (Char.ofNat n :: ·)

/-- The string that pieces spell. -/
def decodeString (pieces : List StringPiece) : Option String :=
  (decodePieces pieces).map String.ofList

/-- How many levels of arrays and objects a text may have. -/
def nestingLimit : Nat := 127

namespace RawJson

mutual

/-- The value of a text, `depth` levels of nesting being left. -/
def decode (depth : Nat) : RawJson → Option Json
  | null => some .null
  | bool b => some (.bool b)
  | number n => n.value?
  | str pieces => (decodeString pieces).map .str
  | arr items => if depth == 0 then none else (decodeItems (depth - 1) items).map .arr
  | obj fields =>
    if depth == 0 then none
    else (decodeFields (depth - 1) fields).map fun fs => .obj (Dict.ofList fs).entries

/-- The values of the items of an array. -/
def decodeItems (depth : Nat) : List RawJson → Option (List Json)
  | [] => some []
  | j :: js => do
    let j ← j.decode depth
    let js ← decodeItems depth js
    some (j :: js)

/-- The names and values of the fields of an object. -/
def decodeFields (depth : Nat) : List (List StringPiece × RawJson) → Option (List (String × Json))
  | [] => some []
  | (name, j) :: rest => do
    let name ← decodeString name
    let j ← j.decode depth
    let rest ← decodeFields depth rest
    some ((name, j) :: rest)

end
end RawJson

/-- Reads a JSON text. -/
def Json.parse (text : String) : Option Json :=
  (RawJson.parse text).bind (·.decode nestingLimit)

end MinimalistGrammar
