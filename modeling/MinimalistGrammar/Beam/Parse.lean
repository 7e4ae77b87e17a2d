import MinimalistGrammar.Beam.Expansion
import MinimalistGrammar.Beam.NodeRecord
import MinimalistGrammar.Probability
import MinimalistGrammar.StableQueue

/-!
# Parses

A parse is a derivation in the making: the input that is left to read, the predictions that are
still open, and the records of what has been predicted and read.

## Main definitions

* `Parse` — a derivation in the making.
* `Parse.initial` — the prediction of the start category.
* `Parse.extend` — the parse after an expansion.
* `Parse.isComplete` — nothing is open and nothing is left to read.
* `Parse.key` — when the parse leaves the beam.
-/

namespace MinimalistGrammar

/-- A derivation in the making. -/
structure Parse (π : Type) where
  probability : π
  /-- The tokens that are left to read. -/
  input : List String
  /-- The open predictions, the one furthest to the left first. -/
  queue : StableQueue Address Category
  /-- What has been predicted and read, in this order. -/
  records : List NodeRecord
  /-- How many of the records the last step has added. -/
  fresh : Nat
  message : String
  /-- The rule of the last step. -/
  rule : Option Rule := none
  /-- The state of the parse from which this one comes. -/
  previous : Option StateId := none
  /-- The state of this parse, once it is logged. -/
  state : Option StateId := none

namespace Parse

variable {π : Type}

/-- Adds an open prediction. -/
def enqueue (queue : StableQueue Address Category) (c : Category) : StableQueue Address Category :=
  queue.push c.minIndex c

/-- The prediction of the start category over an input. -/
def initial [Probability π] (input : List String) (start : Category) : Parse π :=
  { probability := Probability.certain
    input
    queue := enqueue {} start
    records := [.predicted start]
    fresh := 1
    message := " ".intercalate input }

/-- Whether nothing is open and nothing is left to read. -/
def isComplete (p : Parse π) : Bool := p.queue.isEmpty && p.input.isEmpty

/-- Where the next prediction is pronounced. -/
def index (p : Parse π) : Address := p.queue.peek?.elim .root Category.minIndex

/-- What decides when the parse leaves the beam. -/
def key (p : Parse π) : BeamKey π := { probability := p.probability, index := p.index }

/-- The parse after an expansion. New predictions have probability `share`; a word does not change
the probability. -/
def extend (lex : Lexicon) (p : Parse π) (e : Expansion) (share : π) (message : String) : Parse π :=
  let p := { p with message, rule := some e.rule, previous := p.state, state := none }
  match e with
  | .predict _ parts =>
    { p with
      probability := share
      queue := parts.foldl enqueue p.queue
      records := p.records ++ parts.map .predicted
      fresh := parts.length }
  | .scan leaf category tokens =>
    { p with
      input := p.input.drop tokens.length
      -- the record of the word comes after that of its prediction, and counts instead of it
      records := p.records ++ [.scanned lex leaf category]
      fresh := 1 }

/-- The records that the last step has added. -/
def freshRecords (p : Parse π) : List NodeRecord := p.records.drop (p.records.length - p.fresh)

/-- The kind of state in which the parse is shown. -/
def stateType (p : Parse π) : StateType :=
  if p.isComplete then .complete else p.rule.elim .prediction Rule.stateType

end Parse
end MinimalistGrammar
