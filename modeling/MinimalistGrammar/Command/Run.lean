import MinimalistGrammar.Command.Folder
import MinimalistGrammar.Command.Session

/-!
# Runs of the command in a folder

A run of the command reads its arguments, what is typed in and the files of a folder. It ends with
an exit code, and leaves what it has printed and the files.

## Main definitions

* `Outcome` — how a run ends.
* `Outcome.perform` — does actions until one fails.
* `Command.run` — a run of the command.
-/

namespace MinimalistGrammar

/-- How a run ends. -/
structure Outcome where
  exit : UInt8 := 0
  printed : String := ""
  complaint : String := ""
  folder : Folder

/-- The exit code of a run that fails. -/
def failureCode : UInt8 := 1

/-- The exit code of a run with wrong arguments. -/
def argumentCode : UInt8 := 255

/-- Does actions, one after the other, until one of them fails. -/
def Outcome.perform (o : Outcome) : List Action → Outcome
  | [] => o
  | .print text :: rest => Outcome.perform { o with printed := o.printed ++ text } rest
  | .write file text :: rest =>
    match o.folder.write file text with
    | .error e => { o with exit := failureCode, complaint := e.message }
    | .ok folder => Outcome.perform { o with folder } rest
  | .fail message :: _ => { o with exit := failureCode, complaint := message }

/-- What is wrong with a file that a session needs. -/
inductive InputError
  | lexicon (e : LexiconError)
  | examples (e : ExamplesError)

/-- The message for a file that a session cannot use. -/
def InputError.message : InputError → String
  | lexicon e => e.message
  | examples e => e.message

/-- The session with the lexicon in a file, and the examples to parse if the options name some. -/
def openSession (lexicon : String) (o : Options) (lexiconText : Except FileError String)
    (examplesText : Option (Except FileError String)) :
    Except InputError (Session × Option (List Example)) := do
  let lex ← (Lexicon.ofFile lexicon lexiconText).mapError .lexicon
  let es ← (o.examples.bind fun name => examplesText.map (examplesOfFile name)).mapM
    (·.mapError .examples)
  return ({ lexicon := lex, options := o }, es)

/-- What a session does: it parses the examples, or else the lines that are typed in. -/
def Session.script (s : Session) (es : Option (List Example)) (lines : List String) : List Action :=
  es.elim (s.converse lines) s.examples

/-- A run of the command in a folder. -/
def Command.run (arguments : List String) (input : String) (folder : Folder) : Outcome :=
  match readArguments arguments with
  | .error e => { exit := argumentCode, complaint := e.message ++ "\n", folder }
  | .ok .help => { printed := usage ++ "\n", folder }
  | .ok (.parse lexicon o) =>
    match openSession lexicon o (folder.read lexicon) (o.examples.map folder.read) with
    | .error e => { exit := failureCode, complaint := e.message, folder }
    | .ok (session, es) => Outcome.perform { folder } (session.script es (Text.linesOf input))

end MinimalistGrammar
