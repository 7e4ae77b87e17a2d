import MinimalistGrammar.Derivation.State

/-!
# Rules

## Main definitions

* `Rule` — the rules that the parser applies backwards.
* `Rule.name`, `Rule.operation`, `Rule.stateType` — how a rule is called, what it does, and what
  kind of state it leads to.
-/

namespace MinimalistGrammar

/-- The rules that the parser applies backwards. -/
inductive Rule
  /-- A lexical head takes a complement that stays. -/
  | merge1
  /-- A lexical adjunct takes the phrase that it adjoins to. -/
  | merge1b
  /-- A phrase takes a specifier that stays. -/
  | merge2
  /-- A lexical head takes a complement that moves away. -/
  | merge3
  /-- A phrase takes a specifier that moves away. -/
  | merge4
  /-- A phrase attracts a mover that moves no further. -/
  | move1
  /-- A phrase attracts a mover that will move again. -/
  | move2
  /-- A word is read. -/
  | scan
deriving DecidableEq, Repr

namespace Rule

/-- The name of a rule. -/
def name : Rule → String
  | merge1 => "merge1"
  | merge1b => "merge1b"
  | merge2 => "merge2"
  | merge3 => "merge3"
  | merge4 => "merge4"
  | move1 => "move1"
  | move2 => "move2"
  | scan => "scan"

/-- The kind of state that a rule leads to. -/
def stateType : Rule → StateType
  | merge1 | merge1b | merge2 | merge3 | merge4 => .externalMerge
  | move1 | move2 => .internalMerge
  | scan => .scan

/-- What a rule does. -/
def operation (r : Rule) : String := r.stateType.text

end Rule
end MinimalistGrammar
