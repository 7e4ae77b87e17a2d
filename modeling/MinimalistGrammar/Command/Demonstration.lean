import MinimalistGrammar.Beam.Parser
import MinimalistGrammar.Tree.Display

/-!
# A demonstration

A small grammar of English with embedded questions, and a sentence of it.

## Main definitions

* `Lexicon.questions` — the grammar.
* `demonstration` — the parses of the sentence, as text.
-/

namespace MinimalistGrammar

/-- A grammar in which a question word moves to the front of its clause, and a clause can be the
object of a verb. -/
def Lexicon.questions : Lexicon :=
  let noun (word : String) := (word, [Feature.categorial "N"])
  let verb (word object : String) :=
    (word, [Feature.selector object, Feature.selector "D", Feature.categorial "V"])
  .ofEntries
    [(epsilon, [.selector "V", .categorial "C"]),
      (epsilon, [.selector "V", .licensor "wh", .categorial "C"]),
      ("the", [.selector "N", .categorial "D"]),
      ("which", [.selector "N", .categorial "D", .licensee "wh"]),
      noun "king", noun "queen", noun "wine", noun "beer",
      verb "drinks" "D", verb "prefers" "D", verb "knows" "C", verb "says" "C"]

/-- The sentence to parse. -/
def demonstrationWords : List String :=
  ["the", "king", "knows", "which", "wine", "the", "queen", "prefers"]

/-- The parses of the sentence, as text. Each state of the run is a step. -/
def demonstration : String :=
  let (t, parses) := Lexicon.questions.derive demonstrationWords "C" .usual
  let n := parses.length
  let states := parses.filterMap fun parse => parse.state.bind t.state?
  "Parsed " ++ toString n ++ " tree" ++ plural n ++ " in " ++ toString t.size ++ " steps\n" ++
    String.join ((states.flatMap (·.roots)).map fun root => t.store.display root ++ "\n\n")

end MinimalistGrammar
