import MinimalistGrammar.Beam.Parser
import MinimalistGrammar.Decimal.Natural
import MinimalistGrammar.Decimal.Reader

/-!
# Arguments of the command

The command takes the name of a lexicon file and any number of options, in any order. The first
argument that is wrong decides the message, and a call for help stops the reading.

## Main definitions

* `Options` — what the options say.
* `Request` — what the arguments ask for.
* `readArguments` — reads the arguments.
* `ArgumentError.message` — the message for wrong arguments.
* `usage` — how the command is called.
-/

namespace MinimalistGrammar

/-- The name of the command. -/
def commandName : String := "mgbeam"

/-- What the options say. -/
structure Options where
  /-- The start category. -/
  start : String := "C"
  /-- The file with the examples to parse in place of what is typed in. -/
  examples : Option String := none
  settings : Settings Float := .usual
  /-- The file for the derivation log. -/
  log : Option String := none
  /-- The file for the snapshot of the derivation tree. -/
  save : Option String := none
  /-- Whether to print every step. -/
  trace : Bool := false
  /-- Whether to build one tree word by word. -/
  monorail : Bool := false

/-- What the arguments ask for. -/
inductive Request
  /-- How the command is called. -/
  | help
  /-- Parses with the lexicon in a file. -/
  | parse (lexicon : String) (options : Options)

/-- What is wrong with the arguments. -/
inductive ArgumentError
  /-- The last argument is an option that needs a value. -/
  | needsValue (option : String)
  | badProbability
  | badCap
  /-- The argument is no option, and there is a lexicon file already or it looks like an option. -/
  | invalid (argument : String)
  | missingLexicon
deriving DecidableEq, Repr

/-- How the command is called. -/
def usage : String :=
  "\n".intercalate
    ["Usage: " ++ commandName ++ " LEXICON [options]",
      "",
      "Reads sentences from stdin and parses them, one per line.",
      "",
      "Options:",
      "  -h, --help               Print this message",
      "  -s, --start CAT          Start category (defaults to C)",
      "  -e, --examples FILE      Parse every example in FILE instead of reading stdin",
      "  -p, --min-p P            Discard parses less probable than P (defaults to 0.0001)",
      "  -c, --cap N              Give up after N steps (defaults to 300)",
      "  -d, --discard-dead-ends  Drop states that didn't lead to a parse",
      "  -m, --monorail           Build the tree word by word instead of searching",
      "  -l, --log FILE           Write the derivation log of the last sentence to FILE",
      "  -o, --save FILE          Save the derivation tree of the last sentence to FILE",
      "  -t, --trace              Print every derivation step",
      "",
      "Set RUST_LOG to see the parser's own log (defaults to warn)."]

/-- What is wrong, in words. -/
def ArgumentError.reason : ArgumentError → String
  | needsValue option => option ++ " needs a value"
  | badProbability => "--min-p takes a number"
  | badCap => "--cap takes a whole number"
  | invalid argument => "invalid argument " ++ argument
  | missingLexicon => "missing lexicon file"

/-- The message for wrong arguments. -/
def ArgumentError.message (e : ArgumentError) : String :=
  "argument error: " ++ e.reason ++ ".\n\n" ++ usage

/-- What an option does. -/
inductive Switch
  | help
  /-- The option stands alone. -/
  | flag (set : Options → Options)
  /-- The next argument is the option's value. -/
  | valued (set : Options → String → Except ArgumentError Options)

/-- Sets the least probability to go on with. -/
def Options.withMinProbability (o : Options) (value : String) : Except ArgumentError Options :=
  match Decimal.readDouble? value with
  | none => .error .badProbability
  | some p => .ok { o with settings := { o.settings with minProbability := p } }

/-- Sets the number of steps. -/
def Options.withStepCap (o : Options) (value : String) : Except ArgumentError Options :=
  match Decimal.readBelow? (pow2 64) value.toList with
  | none => .error .badCap
  | some n => .ok { o with settings := { o.settings with stepCap := n } }

/-- The option of a name. -/
def Switch.ofName? : String → Option Switch
  | "-h" | "--help" => some .help
  | "-s" | "--start" => some (.valued fun o v => .ok { o with start := v })
  | "-e" | "--examples" => some (.valued fun o v => .ok { o with examples := some v })
  | "-p" | "--min-p" => some (.valued Options.withMinProbability)
  | "-c" | "--cap" => some (.valued Options.withStepCap)
  | "-d" | "--discard-dead-ends" =>
    some (.flag fun o => { o with settings := { o.settings with discardDeadEnds := true } })
  | "-l" | "--log" => some (.valued fun o v => .ok { o with log := some v })
  | "-o" | "--save" => some (.valued fun o v => .ok { o with save := some v })
  | "-t" | "--trace" => some (.flag fun o => { o with trace := true })
  | "-m" | "--monorail" => some (.flag fun o => { o with monorail := true })
  | _ => none

/-- Whether an argument can name the lexicon file. -/
def isFileArgument (argument : String) : Bool := argument.toList.head? != some '-'

/-- Reads the arguments behind those that gave `lexicon` and `o`. -/
def readArgumentsAfter (lexicon : Option String) (o : Options) :
    List String → Except ArgumentError Request
  | [] => (lexicon.map (Request.parse · o)).elim (.error .missingLexicon) .ok
  | argument :: rest =>
    match Switch.ofName? argument with
    | some .help => .ok .help
    | some (.flag set) => readArgumentsAfter lexicon (set o) rest
    | some (.valued set) =>
      match rest with
      | [] => .error (.needsValue argument)
      | value :: rest => do readArgumentsAfter lexicon (← set o value) rest
    | none =>
      if lexicon.isNone && isFileArgument argument then readArgumentsAfter (some argument) o rest
      else .error (.invalid argument)

/-- Reads the arguments. -/
def readArguments (arguments : List String) : Except ArgumentError Request :=
  readArgumentsAfter none {} arguments

end MinimalistGrammar
