import MinimalistGrammar.Address
import MinimalistGrammar.Dict
import MinimalistGrammar.Lexicon

/-!
# Predicted categories

The parser works from the root of a derivation to its words. A prediction says that there is a
phrase that goes on below a certain node of the lexicon: some of the features of that phrase are
known already, the others and the word are still open.

## Main definitions

* `Frontier` — which parts of the lexicon node may be used.
* `Mover` — a phrase that moves out of the predicted one.
* `Category` — a prediction.
* `Category.features`, `Category.movingFeatures` — the known features of the phrase and of a mover.
* `Category.withoutMover` — the movers but for one.
* `Category.minIndex` — how far to the left a prediction reaches, movers included.
* `Category.targets` — the lexicon nodes with which a prediction can go on.
-/

namespace MinimalistGrammar

/-- Which parts of a lexicon node a prediction may use. -/
inductive Frontier
  | all
  /-- Words only: the prediction is a lexical head. -/
  | leaves
  /-- Features only: the prediction has a specifier still to merge. -/
  | branches
deriving DecidableEq, Repr

/-- A phrase that starts inside a predicted phrase and moves out of it. -/
structure Mover where
  /-- The lexicon node of the licensee for which it moves. -/
  node : Nat
  /-- Where it is pronounced. -/
  index : Address
deriving DecidableEq, Repr

/-- A prediction: there is a phrase here that goes on below a lexicon node. -/
structure Category where
  node : Nat
  frontier : Frontier
  /-- Where the phrase is pronounced. -/
  index : Address
  /-- The phrases that move out, by the name of the licensee for which they move. -/
  movers : Dict String Mover := ∅
  /-- The features of each mover that are known already, the last one of its entry first. -/
  moving : Dict String (List Feature) := ∅
  /-- The features of the phrase that are known already, the last one of its entry first. -/
  checked : List Feature
  /-- Where the phrase is in the derivation. -/
  path : Address
deriving DecidableEq

namespace Category

/-- The features that are known already, as they will be read in the entry. -/
def features (c : Category) : List Feature := c.checked.reverse

/-- The known features of the mover `z`, the last one of its entry first. -/
def movingFeatures (c : Category) (z : String) : List Feature := (c.moving.get? z).getD []

/-- The movers but for `z`, and what is known of their features. -/
def withoutMover (c : Category) (z : String) : Dict String Mover × Dict String (List Feature) :=
  (c.movers.erase z, c.moving.erase z)

/-- The least of the places where the phrase and its movers are pronounced. -/
def minIndex (c : Category) : Address :=
  (c.movers.values.map (·.index)).foldr Address.least c.index

/-- The names of the movers. -/
def moverNames (c : Category) : List String := c.movers.keys

/-- Whether a part of a lexicon node may be used. -/
def admits (c : Category) (lex : Lexicon) (part : Nat) : Bool :=
  match c.frontier with
  | .all => true
  | .leaves => lex.isLeaf part
  | .branches => !lex.isLeaf part

/-- The lexicon nodes with which the prediction can go on. -/
def targets (c : Category) (lex : Lexicon) : List Nat := (lex.parts c.node).filter (c.admits lex)

/-- The category of a node in a message: its feature, or its key if it is a word. -/
def nodeText (lex : Lexicon) (node : Nat) : String :=
  ((lex.feature? node).map Feature.text).getD (Lexicon.key node)

/-- The movers in a message. -/
def moversText (c : Category) : String :=
  if c.movers.isEmpty then "none" else ", ".intercalate (c.moverNames.map ("-" ++ ·))

/-- The prediction in a message. -/
def describe (c : Category) (lex : Lexicon) : String :=
  nodeText lex c.node ++ " at " ++ c.index.text ++ " (" ++ Feature.listText c.features ++
    "), movers: " ++ c.moversText

end Category
end MinimalistGrammar
