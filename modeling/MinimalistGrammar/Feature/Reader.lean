import MinimalistGrammar.Feature
import MinimalistGrammar.Text.WordChar

/-!
# Reading a feature

A feature token is a name, with at most one of the symbols `=`, `+`, `-`, `≈` and `*` before it.

## Main definitions

* `isName` — the names: word characters, dots and apostrophes, and hyphens after the first place.
* `Feature.parse` — reads a token, or says that it is malformed.
-/

namespace MinimalistGrammar

/-- A token that is no feature. -/
structure MalformedFeature where
  token : String
deriving DecidableEq, Repr

/-- The message for a token that is no feature. -/
def MalformedFeature.message (e : MalformedFeature) : String :=
  "malformed feature token `" ++ e.token ++ "`"

/-- A character that may begin a name. -/
def isNameStart (c : Char) : Bool := Text.isWordChar c || c == '.' || c == '\''

/-- A character that may stand in a name after the first place. -/
def isNameChar (c : Char) : Bool := isNameStart c || c == '-'

/-- Whether a text is a name. -/
def isName : List Char → Bool
  | [] => false
  | c :: cs => isNameStart c && cs.all isNameChar

@[simp] theorem isName_nil : isName [] = false := rfl

/-- The sign that a token begins with, and the rest of the token. -/
def splitSign : List Char → Sign × List Char
  | '=' :: rest => (.selector, rest)
  | '+' :: rest => (.licensor, rest)
  | '-' :: rest => (.licensee, rest)
  | '≈' :: rest => (.adjunct, rest)
  | '*' :: rest => (.pair, rest)
  | s => (.categorial, s)

/-- Reads a feature token: a sign and a name. -/
def Feature.parse (token : String) : Except MalformedFeature Feature :=
  let (sign, name) := splitSign token.toList
  if isName name then .ok { name := String.ofList name, sign } else .error ⟨token⟩

end MinimalistGrammar
