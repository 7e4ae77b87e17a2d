import MinimalistGrammar.Beam.Category

/-!
# Records of a derivation

A parse remembers what it predicts and reads as a list of records, one for every prediction and one
for every word.

## Main definitions

* `NodeRecord` — what is remembered of a node of the derivation.
* `NodeRecord.predicted`, `NodeRecord.scanned` — the records of a prediction and of a word.
-/

namespace MinimalistGrammar

/-- What a parse remembers of a node of its derivation. -/
structure NodeRecord where
  path : Address
  /-- The word, once it is read. -/
  label : Option String
  features : List Feature
  /-- The names of the movers. -/
  movers : List String
  /-- The key of the lexicon node. -/
  lexKey : String
  /-- The key of the lexicon node above a word. -/
  parentLexKey : Option String
  /-- Whether the node is a lexical head. -/
  isLexical : Bool
deriving DecidableEq, Repr

namespace NodeRecord

/-- The record of a prediction. -/
def predicted (c : Category) : NodeRecord :=
  { path := c.path
    label := none
    features := c.features
    movers := c.moverNames
    lexKey := Lexicon.key c.node
    parentLexKey := none
    isLexical := c.frontier == .leaves }

/-- The record of the word at a leaf of the lexicon. -/
def scanned (lex : Lexicon) (leaf : Nat) (c : Category) : NodeRecord :=
  { path := c.path
    label := some ((lex.word? leaf).getD "")
    features := c.features
    movers := c.moverNames
    lexKey := Lexicon.key leaf
    parentLexKey := some (Lexicon.key c.node)
    isLexical := true }

end NodeRecord
end MinimalistGrammar
