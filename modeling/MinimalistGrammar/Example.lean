import MinimalistGrammar.Bracketing.Reader
import MinimalistGrammar.File

/-!
# Example sets

An example set gives one example a line: a sentence, or a target tree if the line begins with a
bracket. Blank lines and lines that begin with `#` say nothing.

## Main definitions

* `Example` — a sentence or a target.
* `readExamples`, `examplesOfFile` — the examples of a text or a file.
-/

namespace MinimalistGrammar

/-- Something to parse. -/
inductive Example
  /-- The words of a sentence. -/
  | sentence (words : List String)
  /-- The tree that a parse should have. -/
  | target (tree : Bracketing)
deriving Repr

namespace Example

/-- The words to parse. -/
def words : Example → List String
  | sentence ws => ws
  | target tree => tree.yield

/-- The tree to compare with. -/
def target? : Example → Option Bracketing
  | sentence _ => none
  | target tree => some tree

/-- An example as written. -/
def text : Example → String
  | sentence ws => " ".intercalate ws
  | target tree => tree.text

end Example

/-- What is wrong with an example set. -/
inductive ExamplesError
  /-- The target on a line is no bracketing. -/
  | badTarget (line : Nat) (e : BracketingError)
  /-- The file has no text. -/
  | unreadable (e : FileError)
  /-- An error in a file. -/
  | inFile (name : String) (e : ExamplesError)
deriving DecidableEq, Repr

/-- The message for an error. -/
def ExamplesError.message : ExamplesError → String
  | badTarget line e => "line " ++ toString line ++ ": " ++ e.message
  | unreadable e => e.message
  | inFile name e => name ++ ": " ++ e.message

/-- The examples on some lines, the first of which is line `n`. -/
def readExampleLines (n : Nat) : List (List Char) → Except ExamplesError (List Example)
  | [] => .ok []
  | line :: rest =>
    let line := Text.trim line
    match line with
    | [] | '#' :: _ => readExampleLines (n + 1) rest
    | '[' :: _ =>
      match Bracketing.parse (String.ofList line) with
      | .error e => .error (.badTarget n e)
      | .ok tree => return .target tree :: (← readExampleLines (n + 1) rest)
    | _ =>
      return .sentence ((Text.words line).map String.ofList) :: (← readExampleLines (n + 1) rest)

/-- The examples of a text. -/
def readExamples (text : String) : Except ExamplesError (List Example) :=
  readExampleLines 1 (Text.lines text.toList)

/-- The examples of a file; errors in its text name the file. -/
def examplesOfFile (name : String) (contents : Except FileError String) :
    Except ExamplesError (List Example) :=
  match contents with
  | .error e => .error (.unreadable e)
  | .ok text => (readExamples text).mapError (.inFile name)

end MinimalistGrammar
