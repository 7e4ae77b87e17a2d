import MinimalistGrammar.Derivation.Tree

/-!
# Reports

A parser tells those who watch it what it does, shows them every state it adds, and asks them now
and then whether to stop.

## Main definitions

* `Level`, `Message` — what is said, and how important it is.
* `Shown` — a state as it was shown.
* `Report` — what has been said and shown so far, and the answers to expect.
* `plural` — the ending of a noun after a number.
-/

namespace MinimalistGrammar

/-- How important a message is. -/
inductive Level
  | error
  | warn
  | info
  | debug
  | trace
deriving DecidableEq, Repr

/-- The name of a level. -/
def Level.name : Level → String
  | error => "ERROR"
  | warn => "WARN"
  | info => "INFO"
  | debug => "DEBUG"
  | trace => "TRACE"

/-- Whether a text stands somewhere in another. -/
def occursIn (part : List Char) : List Char → Bool
  | [] => part.isEmpty
  | c :: cs => part.isPrefixOf (c :: cs) || occursIn part cs

/-- Something said to those who watch. -/
structure Message where
  level : Level
  text : String
deriving DecidableEq, Repr

/-- A state as it was shown, with the store of that moment. -/
structure Shown where
  state : SyntaxState
  store : Store

/-- What a parser and those who watch it have told each other. -/
structure Report where
  /-- The messages since the last time they were cleared. -/
  messages : Array Message := #[]
  /-- How many messages there have been, cleared ones included. -/
  told : Nat := 0
  /-- The states shown, in the order in which they were added. -/
  shown : Array Shown := #[]
  /-- Whether those who watch say stop when they are asked for the `n`-th time, from zero on. -/
  stops : Nat → Bool := fun _ => false
  /-- How often they have been asked. -/
  asked : Nat := 0

namespace Report

/-- Says something. -/
def log (r : Report) (level : Level) (text : String) : Report :=
  { r with messages := r.messages.push { level, text }, told := r.told + 1 }

/-- Shows the current state of a derivation tree. -/
def present (r : Report) (t : DerivationTree) : Report :=
  match t.currentState? with
  | none => r
  | some state => { r with shown := r.shown.push { state, store := t.store } }

/-- Asks whether to stop. -/
def ask (r : Report) : Bool × Report := (r.stops r.asked, { r with asked := r.asked + 1 })

/-- Forgets the messages so far. -/
def clear (r : Report) : Report := { r with messages := #[] }

/-- Whether some message contains a text. -/
def mentions (r : Report) (text : String) : Bool :=
  r.messages.any fun m => occursIn text.toList m.text.toList

end Report

/-- The ending of a noun after the number `n`. -/
def plural (n : Nat) : String := if n == 1 then "" else "s"

end MinimalistGrammar
