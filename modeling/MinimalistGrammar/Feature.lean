/-!
# Features

A feature is a name with a sign. The sign says what the feature does in a derivation: selectors
and licensors are probes, and each consumes a goal of its own name, a category or a licensee.

## Main definitions

* `Sign` — the six signs, with their symbols and complements.
* `Feature` — a name, a sign, and whether checking is required.
* `Feature.agrees` — equal names and signs, which is all that counts when features are compared.
* `Feature.fits` — equal names and complementary signs: a probe and its goal.
-/

namespace MinimalistGrammar

/-- What a feature does in a derivation. -/
inductive Sign
  /-- `=X` selects a phrase of category `X`. -/
  | selector
  /-- `X` is the category that a selector takes. -/
  | categorial
  /-- `+X` attracts a mover with `-X`. -/
  | licensor
  /-- `-X` makes its bearer move. -/
  | licensee
  /-- `≈X` adjoins to a phrase of category `X` without consuming it. -/
  | adjunct
  /-- `*X` takes part in no rule. -/
  | pair
deriving DecidableEq, Repr

namespace Sign

/-- All signs, in their order. -/
def all : List Sign := [selector, categorial, licensor, licensee, adjunct, pair]

theorem mem_all (s : Sign) : s ∈ all := by cases s <;> decide

/-- The symbol written before the name. -/
def symbol : Sign → String
  | selector => "="
  | categorial => ""
  | licensor => "+"
  | licensee => "-"
  | adjunct => "≈"
  | pair => "*"

/-- The sign with a given symbol. -/
def ofSymbol? (s : String) : Option Sign := all.find? fun sign => sign.symbol == s

theorem ofSymbol?_symbol (s : Sign) : ofSymbol? s.symbol = some s := by cases s <;> decide

/-- The sign that checks this one or is checked by it. -/
def complement : Sign → Option Sign
  | selector => some categorial
  | categorial => some selector
  | licensor => some licensee
  | licensee => some licensor
  | adjunct => none
  | pair => none

theorem complement_eq_some_comm {s t : Sign} : s.complement = some t ↔ t.complement = some s := by
  cases s <;> cases t <;> decide

/-- Whether two signs check each other. -/
def complementary (s t : Sign) : Bool := s.complement == some t

/-- Whether a feature with this sign consumes a goal. -/
def isProbe : Sign → Bool
  | selector | licensor => true
  | _ => false

/-- The place of a sign in the order of signs. -/
def rank (s : Sign) : Nat := all.idxOf s

end Sign

/-- A name with a sign. -/
structure Feature where
  name : String
  sign : Sign
  /-- Whether a derivation must check it. -/
  required : Bool := false
deriving DecidableEq, Repr

namespace Feature

/-- The feature `=name`. -/
def selector (name : String) : Feature := { name, sign := .selector }

/-- The feature `name`. -/
def categorial (name : String) : Feature := { name, sign := .categorial }

/-- The feature `+name`. -/
def licensor (name : String) : Feature := { name, sign := .licensor }

/-- The feature `-name`. -/
def licensee (name : String) : Feature := { name, sign := .licensee }

/-- The feature `≈name`. -/
def adjunct (name : String) : Feature := { name, sign := .adjunct }

/-- The feature as written: its symbol, then its name. -/
def text (f : Feature) : String := f.sign.symbol ++ f.name

/-- Features as written in an entry, with one space between them. -/
def listText (fs : List Feature) : String := " ".intercalate (fs.map text)

/-- Equal names and signs. Whether checking is required does not count. -/
def agrees (f g : Feature) : Bool := f.name == g.name && f.sign == g.sign

theorem agrees_iff {f g : Feature} : f.agrees g = true ↔ f.name = g.name ∧ f.sign = g.sign := by
  simp [agrees]

theorem agrees_comm (f g : Feature) : f.agrees g = g.agrees f := by
  rw [Bool.eq_iff_iff, agrees_iff, agrees_iff]
  exact ⟨fun h => ⟨h.1.symm, h.2.symm⟩, fun h => ⟨h.1.symm, h.2.symm⟩⟩

/-- By name, then by sign. -/
def order (f g : Feature) : Ordering :=
  (compare f.name g.name).then (compare f.sign.rank g.sign.rank)

/-- Equal names and complementary signs. -/
def fits (f g : Feature) : Bool := f.name == g.name && f.sign.complementary g.sign

/-- The feature of the same name with the complementary sign. -/
def complement (f : Feature) : Option Feature :=
  f.sign.complement.map fun sign => { name := f.name, sign }

end Feature
end MinimalistGrammar
