import MinimalistGrammar.Dict
import MinimalistGrammar.Ident

/-!
# States of a derivation

A state shows the trees as they stood after a step, with the step's message. The state that the
step started from is its parent, so alternatives are siblings.

## Main definitions

* `StateType` — what kind of step led to a state.
* `Step` — what a state shows.
* `SyntaxState` — a step in its place in a derivation tree.
-/

namespace MinimalistGrammar

/-- What kind of step led to a state. -/
inductive StateType
  | prediction
  | externalMerge
  | internalMerge
  | scan
  | complete
deriving DecidableEq, Repr, Inhabited

namespace StateType

/-- All types, in the order of their numbers. -/
def all : List StateType := [prediction, externalMerge, internalMerge, scan, complete]

theorem mem_all (t : StateType) : t ∈ all := by cases t <;> decide

/-- The number of a type. -/
def code (t : StateType) : Nat := all.idxOf t

/-- The type with a given number. -/
def ofCode? (n : Nat) : Option StateType := all[n]?

theorem ofCode?_code (t : StateType) : ofCode? t.code = some t := by cases t <;> decide

/-- The name of a type. -/
def text : StateType → String
  | prediction => "prediction"
  | externalMerge => "external merge"
  | internalMerge => "internal merge"
  | scan => "scan"
  | complete => "complete"

end StateType

/-- What a state shows. -/
structure Step where
  /-- The roots of the trees. -/
  roots : List ConstituentId
  message : String
  type : StateType
  /-- The groups of nodes to mark, by name. -/
  groups : Dict String GroupId := ∅
deriving DecidableEq

/-- A step in its place in a derivation tree. -/
structure SyntaxState extends Step where
  id : StateId
  /-- The state that the step started from. -/
  parent : Option StateId
deriving DecidableEq

end MinimalistGrammar
