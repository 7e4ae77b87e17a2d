import MinimalistGrammar.Archive.Log
import MinimalistGrammar.Command.Arguments
import MinimalistGrammar.Example
import MinimalistGrammar.Lexicon.Text
import MinimalistGrammar.Monorail.Parser
import MinimalistGrammar.Tree.Display

/-!
# Sessions

In a session sentences are parsed with one lexicon, each of them by a parser and on a derivation
tree of its own. What a session does to the world is a list of actions.

## Main definitions

* `Action` — something done to the world.
* `Session.parse` — parses one sentence.
* `Session.examples` — parses the examples of a set.
* `Session.answer` — parses a line that was typed in.
-/

namespace MinimalistGrammar

/-- Something done to the world. An action that fails ends the program. -/
inductive Action
  /-- Prints a text. -/
  | print (text : String)
  /-- Writes a text to a file in place of what it holds. -/
  | write (file text : String)
  /-- Fails. -/
  | fail (message : String)
deriving DecidableEq, Repr

/-- Prints a line. -/
def Action.printLine (text : String) : Action := .print (text ++ "\n")

/-- Sentences parsed with one lexicon. -/
structure Session where
  lexicon : Lexicon
  options : Options

namespace Session

/-! ### One sentence -/

/-- The lines for a step. -/
def traceLines (s : Shown) : List Action :=
  .printLine ("[" ++ toString s.state.id.index ++ "] " ++ s.state.type.text ++ ": " ++
    s.state.message) :: s.state.roots.map fun root => .printLine (s.store.display root)

/-- The lines for the steps, if they are to be printed. -/
def trace (s : Session) (report : Report) : List Action :=
  if s.options.trace then report.shown.toList.flatMap traceLines else []

/-- Writes to a file what could be saved. -/
def writeTo (file : String) : Except SaveError String → Action
  | .error e => .fail e.message
  | .ok text => .write file text

/-- Writes the derivation log and the snapshot of a tree, if the options name files for them. -/
def keep (s : Session) (t : DerivationTree) : List Action :=
  (s.options.log.map fun file => writeTo file (t.exportLog.map logText)).toList ++
    (s.options.save.map fun file => writeTo file (t.save.map Snapshot.text)).toList

/-- A number with its noun. -/
def counted (n : Nat) (noun : String) : String := toString n ++ " " ++ noun ++ plural n

/-- Builds the tree of a sentence word by word, and says whether it has the target's shape. -/
def parseWordByWord (s : Session) (words : List String) (target : Option Bracketing) :
    List Action × Bool :=
  let (p, t, root) := (MonorailParser.ofLexicon s.lexicon).parse words {}
  let tree := root.toList.flatMap fun root =>
    [.printLine (t.store.display root), .printLine ""]
  (s.trace p.report ++ [.printLine ("Built " ++ counted t.size "state")] ++ tree ++ s.keep t,
    target.all fun target => root.any (target.covers t.store))

/-- The lines for the way in which a run was stopped. -/
def stopLines : Option ParseStatus → List Action
  | some .capReached => [.printLine "(step cap reached)"]
  | some .cancelled => [.printLine "(cancelled)"]
  | _ => []

/-- The states of the complete parses. -/
def completeStates (t : DerivationTree) (parses : List (Parse Float)) : List SyntaxState :=
  (parses.filter (·.isComplete)).filterMap fun parse => parse.state.bind t.state?

/-- The lines for the tree below a root, and for the target if the tree has its shape. -/
def rootLines (store : Store) (target : Option Bracketing) (root : ConstituentId) : List Action :=
  .printLine (store.display root) ::
    ((target.filter (·.covers store root)).map fun target =>
      Action.printLine ("matches " ++ target.text)).toList

/-- Searches for the parses of a sentence, and says whether one has the target's shape. -/
def search (s : Session) (words : List String) (target : Option Bracketing) :
    List Action × Bool :=
  let p : BeamParser Float := { lexicon := s.lexicon, settings := s.options.settings }
  let (p, t, parses) := p.parse words s.options.start {}
  let states := completeStates t parses
  let count := "Parsed " ++ counted parses.length "tree" ++ " in " ++ counted p.steps "step"
  let trees := states.flatMap fun state =>
    state.roots.flatMap (rootLines t.store target) ++ [.printLine ""]
  let matched := target.all fun target =>
    states.any fun state => state.roots.any (target.covers t.store)
  let regret := if matched then [] else [.printLine "no parse matches the target"]
  (s.trace p.report ++ [.printLine count] ++ stopLines p.status ++ trees ++ regret ++ s.keep t,
    matched)

/-- Parses a sentence, and says whether a tree has the target's shape if there is a target. -/
def parse (s : Session) (words : List String) (target : Option Bracketing) :
    List Action × Bool :=
  if s.options.monorail then s.parseWordByWord words target else s.search words target

/-! ### Example sets -/

/-- How many targets a set has, and how many of them were matched. -/
structure Score where
  matched : Nat := 0
  targets : Nat := 0

/-- The score after one more example. -/
def Score.add (score : Score) (e : Example) (matched : Bool) : Score :=
  if e.target?.isNone then score
  else { matched := score.matched + matched.toNat, targets := score.targets + 1 }

/-- The line for a score, if there were targets. -/
def Score.lines (score : Score) : List Action :=
  if score.targets = 0 then []
  else [.printLine (toString score.matched ++ "/" ++ toString score.targets ++ " targets matched")]

/-- Parses the examples of a set that follow those of a score. -/
def examplesFrom (s : Session) (score : Score) : List Example → List Action
  | [] => score.lines
  | e :: rest =>
    let (actions, matched) := s.parse e.words e.target?
    .printLine ("> " ++ e.text) :: actions ++ s.examplesFrom (score.add e matched) rest

/-- Parses the examples of a set, and tells how many targets were matched. -/
def examples (s : Session) (es : List Example) : List Action := s.examplesFrom {} es

/-! ### Lines typed in -/

/-- What invites to type in a line. -/
def prompt : Action := .print "> "

/-- Parses a line that was typed in. Capital letters of ASCII count as small, and a blank line says
nothing. -/
def answer (s : Session) (line : String) : List Action :=
  match Text.words (line.toList.map Char.toLower) with
  | [] => []
  | words => (s.parse (words.map String.ofList) none).1

/-- Invites to type in lines and parses them, until there are no more. -/
def converse (s : Session) (lines : List String) : List Action :=
  lines.flatMap (fun line => prompt :: s.answer line) ++ [prompt]

end Session
end MinimalistGrammar
