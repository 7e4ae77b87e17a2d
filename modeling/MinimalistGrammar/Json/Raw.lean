import MinimalistGrammar.Json.Number

/-!
# The grammar of JSON texts

A text is cut into tokens, and the tokens are put together with a stack of the arrays and objects
that are still open. The result keeps numbers and strings as written: whether they have a value is
asked only where a value is wanted.

## Main definitions

* `RawJson` — a JSON text by its structure.
* `scanJson` — the tokens of a text.
* `RawJson.parse` — reads a whole text.
-/

namespace MinimalistGrammar

/-! ### Tokens -/

/-- A piece of a string as written. -/
inductive StringPiece
  | char (c : Char)
  /-- A 16-bit unit given by its number. -/
  | unit (n : Nat)
deriving DecidableEq, Repr

/-- A JSON text by its structure. -/
inductive RawJson
  | null
  | bool (b : Bool)
  | number (n : NumberText)
  | str (pieces : List StringPiece)
  | arr (items : List RawJson)
  | obj (fields : List (List StringPiece × RawJson))

/-- A token of a JSON text. -/
inductive JsonToken
  | beginArray
  | endArray
  | beginObject
  | endObject
  | comma
  | colon
  | scalar (j : RawJson)

/-- The value of a hexadecimal digit. -/
def hexValue? (c : Char) : Option Nat :=
  let n := c.toNat
  if c.isDigit then some (n - 0x30)
  else if 0x41 ≤ n ∧ n ≤ 0x46 then some (n - 0x37)
  else if 0x61 ≤ n ∧ n ≤ 0x66 then some (n - 0x57)
  else none

/-- The number given by four hexadecimal digits. -/
def hexUnit? (a b c d : Char) : Option Nat := do
  let a ← hexValue? a
  let b ← hexValue? b
  let c ← hexValue? c
  let d ← hexValue? d
  some (((a * 16 + b) * 16 + c) * 16 + d)

/-- The character that stands for an escape of one letter. -/
def shortEscape? (c : Char) : Option Char :=
  if c == '"' || c == '\\' || c == '/' then some c
  else if c == 'b' then some (Char.ofNat 0x8)
  else if c == 'f' then some (Char.ofNat 0xC)
  else if c == 'n' then some '\n'
  else if c == 'r' then some '\r'
  else if c == 't' then some '\t'
  else none

/-- The pieces of a string up to its closing quote, and what follows. -/
def scanString : List Char → Option (List StringPiece × List Char)
  | [] => none
  | c :: cs =>
    if c == '"' then some ([], cs)
    else if c == '\\' then
      match cs with
      | [] => none
      | e :: rest =>
        if e == 'u' then
          match rest with
          | a :: b :: c :: d :: rest => do
            let unit ← hexUnit? a b c d
            let (pieces, rest) ← scanString rest
            some (.unit unit :: pieces, rest)
          | _ => none
        else do
          let c ← shortEscape? e
          let (pieces, rest) ← scanString rest
          some (.char c :: pieces, rest)
    -- control characters stand in a string only as escapes
    else if c.toNat < 0x20 then none
    else do
      let (pieces, rest) ← scanString cs
      some (.char c :: pieces, rest)

/-- The digits that a text begins with, and what follows. -/
def splitDigits (s : List Char) : List Char × List Char :=
  (s.takeWhile Char.isDigit, s.dropWhile Char.isDigit)

/-- The digits behind a point, if the text begins with one; a point without digits is no number. -/
def scanFraction (s : List Char) : Option (Option (List Char) × List Char) :=
  match s with
  | '.' :: t =>
    if (splitDigits t).1.isEmpty then none else some ((splitDigits t).1, (splitDigits t).2)
  | _ => some (none, s)

/-- The sign that an exponent begins with, and what follows. -/
def splitExponentSign : List Char → Bool × List Char
  | '-' :: t => (true, t)
  | '+' :: t => (false, t)
  | t => (false, t)

/-- The exponent that a text begins with, if it does; the letter without digits is no number. -/
def scanExponent (s : List Char) : Option (Option (Bool × List Char) × List Char) :=
  match s with
  | c :: t =>
    if c == 'e' || c == 'E' then
      let (negative, t) := splitExponentSign t
      let (digits, rest) := splitDigits t
      if digits.isEmpty then none else some (some (negative, digits), rest)
    else some (none, s)
  | [] => some (none, s)

/-- A number without its sign. It begins with a digit, and with a zero only if that is all that
stands before the point. -/
def scanNumber (negative : Bool) (s : List Char) : Option (NumberText × List Char) := do
  let (whole, rest) := splitDigits s
  if whole.isEmpty || (whole.head? == some '0' && whole.length != 1) then none
  else do
    let (fraction, rest) ← scanFraction rest
    let (exponent, rest) ← scanExponent rest
    some ({ negative, whole, fraction, exponent }, rest)

/-- The blanks between tokens. -/
def isJsonBlank (c : Char) : Bool := c == ' ' || c == '\n' || c == '\t' || c == '\r'

/-- The token that a text begins with, and what follows. -/
def scanToken (c : Char) (cs : List Char) : Option (JsonToken × List Char) :=
  if c == '[' then some (.beginArray, cs)
  else if c == ']' then some (.endArray, cs)
  else if c.toNat == 0x7B then some (.beginObject, cs)
  else if c.toNat == 0x7D then some (.endObject, cs)
  else if c == ',' then some (.comma, cs)
  else if c == ':' then some (.colon, cs)
  else if c == '"' then (scanString cs).map fun (pieces, rest) => (.scalar (.str pieces), rest)
  else if c == 'n' then
    match cs with
    | 'u' :: 'l' :: 'l' :: rest => some (.scalar .null, rest)
    | _ => none
  else if c == 't' then
    match cs with
    | 'r' :: 'u' :: 'e' :: rest => some (.scalar (.bool true), rest)
    | _ => none
  else if c == 'f' then
    match cs with
    | 'a' :: 'l' :: 's' :: 'e' :: rest => some (.scalar (.bool false), rest)
    | _ => none
  else if c == '-' then (scanNumber true cs).map fun (n, rest) => (.scalar (.number n), rest)
  else (scanNumber false (c :: cs)).map fun (n, rest) => (.scalar (.number n), rest)

/-- The tokens of a text, with at most `fuel` of its characters looked at. -/
def scanTokens : Nat → List Char → Option (List JsonToken)
  | _, [] => some []
  | 0, _ :: _ => none
  | fuel + 1, c :: cs =>
    if isJsonBlank c then scanTokens fuel cs
    else do
      let (token, rest) ← scanToken c cs
      let tokens ← scanTokens fuel rest
      some (token :: tokens)

/-- The tokens of a text. -/
def scanJson (s : List Char) : Option (List JsonToken) := scanTokens s.length s

/-! ### Structure -/

/-- An array or object that is still open, with what is in it so far, the last first. -/
inductive OpenJson
  | items (done : List RawJson)
  /-- The name is that of the field whose value is being read. -/
  | fields (done : List (List StringPiece × RawJson)) (name : List StringPiece)

namespace RawJson

mutual

/-- Reads tokens where a value has to begin. -/
def assembleValue (stack : List OpenJson) : List JsonToken → Option RawJson
  | .scalar j :: rest => assembleRest j stack rest
  | .beginArray :: .endArray :: rest => assembleRest (.arr []) stack rest
  | .beginArray :: rest => assembleValue (.items [] :: stack) rest
  | .beginObject :: .endObject :: rest => assembleRest (.obj []) stack rest
  | .beginObject :: .scalar (.str name) :: .colon :: rest =>
    assembleValue (.fields [] name :: stack) rest
  | _ => none

/-- Reads tokens behind a value. -/
def assembleRest (j : RawJson) (stack : List OpenJson) : List JsonToken → Option RawJson
  | [] => if stack.isEmpty then some j else none
  | .comma :: .scalar (.str name) :: .colon :: rest =>
    match stack with
    | .fields done last :: stack => assembleValue (.fields ((last, j) :: done) name :: stack) rest
    | _ => none
  | .comma :: rest =>
    match stack with
    | .items done :: stack => assembleValue (.items (j :: done) :: stack) rest
    | _ => none
  | .endArray :: rest =>
    match stack with
    | .items done :: stack => assembleRest (.arr (j :: done).reverse) stack rest
    | _ => none
  | .endObject :: rest =>
    match stack with
    | .fields done name :: stack => assembleRest (.obj ((name, j) :: done).reverse) stack rest
    | _ => none
  | _ => none

end

/-- Reads a JSON text by its structure. -/
def parse (text : String) : Option RawJson :=
  (scanJson text.toList).bind (assembleValue [])

end RawJson
end MinimalistGrammar
