import MinimalistGrammar.Decimal.Layout
import MinimalistGrammar.Json

/-!
# Writing JSON

## Main definitions

* `jsonNumber` — how doubles are written in JSON.
* `quoted` — a string in quotes, with the escapes that JSON asks for and no others.
* `Json.compact` — a value without any blanks.
* `Json.pretty` — a value with one item or field a line, two spaces deeper for each level.
-/

namespace MinimalistGrammar

/-- In JSON: positionally from `1e-5` up to `1e16`, and always with a point or an exponent. -/
def jsonNumber : Decimal.Layout :=
  { positional := fun e => -5 ≤ e && e < 16, pointZero := true, plusSign := true, tie := .even }

/-! ### Strings -/

/-- A hexadecimal digit. -/
def hexDigit (n : Nat) : Char := "0123456789abcdef".toList.getD n '0'

/-- A character inside quotes. -/
def escaped (c : Char) : List Char :=
  if c == '"' then ['\\', '"']
  else if c == '\\' then ['\\', '\\']
  else if c == '\n' then ['\\', 'n']
  else if c == '\r' then ['\\', 'r']
  else if c == '\t' then ['\\', 't']
  else if c.toNat == 0x8 then ['\\', 'b']
  else if c.toNat == 0xC then ['\\', 'f']
  else if c.toNat < 0x20 then
    ['\\', 'u', '0', '0', hexDigit (c.toNat / 16), hexDigit (c.toNat % 16)]
  else [c]

/-- A string in quotes. -/
def quoted (s : String) : String := String.ofList ('"' :: s.toList.flatMap escaped ++ ['"'])

namespace Json

/-! ### Without blanks -/

mutual

/-- A value without any blanks. -/
def compact : Json → String
  | null => "null"
  | bool b => if b then "true" else "false"
  | int n => toString n
  | float x => jsonNumber.write x
  | str s => quoted s
  | arr items => "[" ++ ",".intercalate (compactItems items) ++ "]"
  | obj fields => "\x7b" ++ ",".intercalate (compactFields fields) ++ "\x7d"

/-- The items of an array. -/
def compactItems : List Json → List String
  | [] => []
  | j :: js => j.compact :: compactItems js

/-- The fields of an object. -/
def compactFields : List (String × Json) → List String
  | [] => []
  | (name, j) :: rest => (quoted name ++ ":" ++ j.compact) :: compactFields rest

end

/-! ### With one item a line -/

/-- The beginning of a line at a given depth. -/
def newline (depth : Nat) : String := "\n" ++ "".pushn ' ' (2 * depth)

/-- Lines between two brackets; nothing between them if there are none. -/
def block (opening closing : String) (depth : Nat) (items : List String) : String :=
  if items.isEmpty then opening ++ closing
  else
    opening ++ newline (depth + 1) ++ ("," ++ newline (depth + 1)).intercalate items ++
      newline depth ++ closing

mutual

/-- A value at a given depth, with one item or field a line. -/
def prettyAt (depth : Nat) : Json → String
  | arr items => block "[" "]" depth (prettyItems (depth + 1) items)
  | obj fields => block "\x7b" "\x7d" depth (prettyFields (depth + 1) fields)
  | null => "null"
  | bool b => if b then "true" else "false"
  | int n => toString n
  | float x => jsonNumber.write x
  | str s => quoted s

/-- The items of an array. -/
def prettyItems (depth : Nat) : List Json → List String
  | [] => []
  | j :: js => j.prettyAt depth :: prettyItems depth js

/-- The fields of an object. -/
def prettyFields (depth : Nat) : List (String × Json) → List String
  | [] => []
  | (name, j) :: rest => (quoted name ++ ": " ++ j.prettyAt depth) :: prettyFields depth rest

end

/-- A value with one item or field a line. -/
def pretty (j : Json) : String := j.prettyAt 0

end Json
end MinimalistGrammar
