import MinimalistGrammar.Command.Run

/-!
# The program

The program does in the world what a run of the command does in a folder.

## Main definitions

* `performInWorld` — does actions until one fails.
* `main` — the program.
-/

namespace MinimalistGrammar

/-- The contents of a file. -/
def readWorldFile (name : String) : IO (Except FileError String) := do
  let bytes ← try some <$> IO.FS.readBinFile name catch _ => pure none
  return decodeFile bytes

/-- Ends with a message on the error stream. -/
def complain (code : UInt8) (message : String) : IO UInt8 := do
  IO.eprintln message
  return code

/-- Does actions, one after the other, until one of them fails. Returns the exit code. -/
def performInWorld : List Action → IO UInt8
  | [] => return 0
  | .print text :: rest => do
    let out ← IO.getStdout
    out.putStr text
    out.flush
    performInWorld rest
  | .write file text :: rest => do
    let written ← try IO.FS.writeFile file text; pure none catch e => pure (some (toString e))
    match written with
    | some message => complain failureCode message
    | none => performInWorld rest
  | .fail message :: _ => complain failureCode message

/-- Invites to type in lines and parses them, until there are no more. -/
partial def converseInWorld (s : Session) (input : IO.FS.Stream) : IO UInt8 := do
  let code ← performInWorld [Session.prompt]
  let line ← input.getLine
  if code != 0 || line.isEmpty then return code
  let code ← performInWorld (s.answer line)
  if code != 0 then return code
  converseInWorld s input

/-- Parses with the lexicon in a file. -/
def parseInWorld (lexicon : String) (o : Options) : IO UInt8 := do
  let lexiconText ← readWorldFile lexicon
  let examplesText ← o.examples.mapM readWorldFile
  match openSession lexicon o lexiconText examplesText with
  | .error e => complain failureCode e.message
  | .ok (session, none) => converseInWorld session (← IO.getStdin)
  | .ok (session, some es) => performInWorld (session.examples es)

end MinimalistGrammar

open MinimalistGrammar in
/-- The program. -/
def main (arguments : List String) : IO UInt32 := do
  let code ←
    match readArguments arguments with
    | .error e => complain argumentCode e.message
    | .ok .help => performInWorld [.printLine usage]
    | .ok (.parse lexicon o) => parseInWorld lexicon o
  return code.toUInt32
