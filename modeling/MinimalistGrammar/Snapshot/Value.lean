import MinimalistGrammar.Decimal.Layout
import MinimalistGrammar.Geometry
import MinimalistGrammar.Text.Printable

/-!
# Snapshot values

What a record of a snapshot holds in its fields: data of a few forms, and references to other
records by their keys.

A place inside a value is named by a path: the path of a container, and the number or the key of
the item in brackets.

## Main definitions

* `Value` — a value in a field.
* `Value.inspect` — a value as it is shown in a path, with the name of its form.
* `Value.keyText` — the key of an entry of a map as it is shown in a path.
* `Value.references` — the references in a value, in order, with their paths.
-/

namespace MinimalistGrammar

/-- A value in a field of a record. -/
inductive Value
  | null
  | bool (b : Bool)
  | int (n : Int)
  | float (x : Float)
  | str (s : String)
  | list (items : List Value)
  | tuple (items : List Value)
  | set (items : List Value)
  | map (entries : List (Value × Value))
  | point (p : Point)
  | rect (r : Rect)
  | color (c : Color)
  /-- The record with a given key. -/
  | ref (key : String)
deriving BEq, Inhabited

/-! ### Values in paths -/

/-- A character of a text that is shown in quotes. -/
def inspectChar (c : Char) : String :=
  if c == '"' then "\\\""
  else if c == '\\' then "\\\\"
  else if c == '\n' then "\\n"
  else if c == '\r' then "\\r"
  else if c == '\t' then "\\t"
  else if c.toNat == 0 then "\\0"
  else if Text.isPrintable c then String.singleton c
  else "\\u\x7b" ++ String.ofList (Nat.toDigits 16 c.toNat) ++ "\x7d"

/-- A text in quotes. -/
def inspectString (s : String) : String :=
  "\"" ++ String.join (s.toList.map inspectChar) ++ "\""

/-- A double, always with a point or an exponent. -/
def inspectFloat (x : Float) : String := Decimal.inspected.write x

/-- Named parts in braces. -/
def inspectParts (name : String) (parts : List (String × String)) : String :=
  name ++ " \x7b " ++ ", ".intercalate (parts.map fun (part, text) => part ++ ": " ++ text) ++
    " \x7d"

/-- A point with its coordinates. -/
def Point.inspect (p : Point) : String :=
  inspectParts "Point" [("x", inspectFloat p.x), ("y", inspectFloat p.y)]

/-- A rectangle with its corner and size. -/
def Rect.inspect (r : Rect) : String :=
  inspectParts "Rect"
    [("x", inspectFloat r.x), ("y", inspectFloat r.y), ("w", inspectFloat r.w),
      ("h", inspectFloat r.h)]

/-- A colour with its channels. -/
def Color.inspect (c : Color) : String :=
  inspectParts "Color"
    [("r", toString c.r.toNat), ("g", toString c.g.toNat), ("b", toString c.b.toNat),
      ("a", toString c.a.toNat)]

namespace Value

mutual

/-- A value as it is shown in a path, with the name of its form. -/
def inspect : Value → String
  | null => "Null"
  | bool b => "Bool(" ++ (if b then "true" else "false") ++ ")"
  | int n => "Int(" ++ toString n ++ ")"
  | float x => "Float(" ++ inspectFloat x ++ ")"
  | str s => "Str(" ++ inspectString s ++ ")"
  | list items => "List([" ++ ", ".intercalate (inspectItems items) ++ "])"
  | tuple items => "Tuple([" ++ ", ".intercalate (inspectItems items) ++ "])"
  | set items => "Set([" ++ ", ".intercalate (inspectItems items) ++ "])"
  | map entries => "Map([" ++ ", ".intercalate (inspectEntries entries) ++ "])"
  | point p => "Point(" ++ p.inspect ++ ")"
  | rect r => "Rect(" ++ r.inspect ++ ")"
  | color c => "Color(" ++ c.inspect ++ ")"
  | ref key => "Ref(" ++ inspectString key ++ ")"

/-- The items of a container. -/
def inspectItems : List Value → List String
  | [] => []
  | v :: vs => v.inspect :: inspectItems vs

/-- The entries of a map. -/
def inspectEntries : List (Value × Value) → List String
  | [] => []
  | (k, v) :: rest => ("(" ++ k.inspect ++ ", " ++ v.inspect ++ ")") :: inspectEntries rest

end

/-- The key of an entry of a map as it is shown in a path. -/
def keyText : Value → String
  | str s => s
  | int n => toString n
  | ref key => key
  | v => v.inspect

end Value

/-! ### Paths -/

/-- The path of an item. -/
def itemPath (path : String) (i : Nat) : String := path ++ "[" ++ toString i ++ "]"

/-- The path of an entry of a map. -/
def entryPath (path : String) (key : Value) : String := path ++ "[" ++ key.keyText ++ "]"

/-- A reference to a record, and where it stands. -/
structure Reference where
  path : String
  key : String
deriving DecidableEq, Repr

namespace Value

mutual

/-- The references in the value at a path, in order. -/
def references (path : String) : Value → List Reference
  | ref key => [{ path, key }]
  | list items => itemReferences path 0 items
  | tuple items => itemReferences path 0 items
  | set items => itemReferences path 0 items
  | map entries => entryReferences path entries
  | _ => []

/-- The references in some items, the first of which has number `i`. -/
def itemReferences (path : String) (i : Nat) : List Value → List Reference
  | [] => []
  | v :: vs => v.references (itemPath path i) ++ itemReferences path (i + 1) vs

/-- The references in the entries of a map, in the key before the value. -/
def entryReferences (path : String) : List (Value × Value) → List Reference
  | [] => []
  | (k, v) :: rest =>
    k.references (entryPath path k) ++ v.references (entryPath path k) ++
      entryReferences path rest

end

/-! ### Reading values -/

/-- The value of a truth value. -/
def bool? : Value → Option Bool
  | bool b => some b
  | _ => none

/-- The value of an integer. -/
def int? : Value → Option Int
  | int n => some n
  | _ => none

/-- The text of a string. -/
def str? : Value → Option String
  | str s => some s
  | _ => none

/-- The key of a reference. -/
def ref? : Value → Option String
  | ref key => some key
  | _ => none

/-- The items of a list, a tuple or a set. -/
def items? : Value → Option (List Value)
  | list items => some items
  | tuple items => some items
  | set items => some items
  | _ => none

/-- The entries of a map. -/
def entries? : Value → Option (List (Value × Value))
  | map entries => some entries
  | _ => none

end Value
end MinimalistGrammar
