import MinimalistGrammar.Derivation.State
import MinimalistGrammar.Tree.Reachable

/-!
# Derivation trees

The states of one or more derivations form a tree under their parent links, and one store holds the
syntax trees that they show. States are numbered in the order in which they are added, and no
number is given out twice.

A cursor points at the current state. The active branch, known by its last state, is the one that
one walks down when one goes forward.

## Main definitions

* `DerivationTree` — the states, the lists of their children, the store and the cursor.
* `TreeEvent` — what subscribers learn about a change.
* `DerivationTree.addStep` — adds a state and moves the cursor to it.
* `DerivationTree.ancestors`, `DerivationTree.branch` — the way from a state to its root, and back.
* `DerivationTree.firstTerminal` — the end of the branch that always takes the first child.
-/

namespace MinimalistGrammar

/-- What subscribers learn about a change of a derivation tree. -/
inductive TreeEvent
  /-- A state was added. -/
  | added (id : StateId)
  /-- The cursor was moved. -/
  | jumped (id : StateId)
  /-- Some states were removed. -/
  | removed (ids : List StateId)
  /-- The tree was replaced by another one. -/
  | reloaded
deriving DecidableEq, Repr

/-- The states of some derivations, with all that they show. -/
structure DerivationTree where
  store : Store := {}
  states : IdentMap .state SyntaxState := ∅
  /-- The children of every state, in the order in which they were added. -/
  children : IdentMap .state (List StateId) := ∅
  nextId : Nat := 0
  current : Option StateId := none
  /-- The last state of the active branch. -/
  active : Option StateId := none
  /-- What has happened, latest event last. -/
  events : Array TreeEvent := #[]

namespace DerivationTree

/-- How many states there are. -/
def size (t : DerivationTree) : Nat := t.states.size

/-- Whether there is no state. -/
def isEmpty (t : DerivationTree) : Bool := t.states.isEmpty

/-- Whether there is a state `id`. -/
def contains (t : DerivationTree) (id : StateId) : Bool := t.states.contains id

/-- The state `id`. -/
def state? (t : DerivationTree) (id : StateId) : Option SyntaxState := t.states[id]?

/-- The current state. -/
def currentState? (t : DerivationTree) : Option SyntaxState := t.current.bind t.state?

/-- The parent of the state `id`. -/
def parent? (t : DerivationTree) (id : StateId) : Option StateId := (t.state? id).bind (·.parent)

/-- The children of the state `id`. -/
def childrenOf (t : DerivationTree) (id : StateId) : List StateId := t.children.getD id []

/-- The states without a parent. -/
def roots (t : DerivationTree) : List StateId :=
  (t.states.values.filter (·.parent.isNone)).map (·.id)

/-- Whether the state `id` ends a branch. -/
def isTerminal (t : DerivationTree) (id : StateId) : Bool := (t.childrenOf id).isEmpty

/-- The states that end a branch. -/
def branches (t : DerivationTree) : List StateId := t.states.keys.filter t.isTerminal

/-- The tree with an event told to its subscribers. -/
def notify (t : DerivationTree) (e : TreeEvent) : DerivationTree :=
  { t with events := t.events.push e }

/-! ### Adding states -/

/-- Adds a state and moves the cursor to it. A parent that is not in the tree makes a new root. -/
def addStep (t : DerivationTree) (step : Step) (parent : Option StateId) :
    DerivationTree × StateId :=
  let id : StateId := ⟨t.nextId⟩
  let parent := parent.filter t.contains
  let children := t.children.insert id []
  let t :=
    { t with
      states := t.states.insert id { step with id, parent }
      children := parent.elim children fun p => children.modify p (· ++ [id])
      nextId := t.nextId + 1
      current := some id
      active := some id }
  (t.notify (.added id), id)

theorem state?_addStep (t : DerivationTree) (step : Step) (parent : Option StateId) (id : StateId) :
    (t.addStep step parent).1.state? id =
      if id = ⟨t.nextId⟩ then
        some { step with id := ⟨t.nextId⟩, parent := parent.filter t.contains }
      else t.state? id :=
  IdentMap.getElem?_insert ..

/-! ### Branches -/

/-- At most `n` states from one state up to its root. -/
def ancestorsWithin (t : DerivationTree) : Nat → Option StateId → List StateId
  | 0, _ => []
  | _ + 1, none => []
  | n + 1, some id => id :: t.ancestorsWithin n (t.parent? id)

@[simp] theorem ancestorsWithin_none (t : DerivationTree) (n : Nat) :
    t.ancestorsWithin n none = [] := by
  cases n <;> rfl

/-- A state and its ancestors up to the root. Without circles no state comes twice, so there are
not more than there are states, but for a last parent that is not in the tree. -/
def ancestors (t : DerivationTree) (id : StateId) : List StateId :=
  if t.contains id then t.ancestorsWithin (t.size + 1) (some id) else []

/-- The states from the root down to a state. -/
def branch (t : DerivationTree) (id : StateId) : List StateId := (t.ancestors id).reverse

/-- The state at most `n` first children down from `id`. -/
def firstTerminalWithin (t : DerivationTree) : Nat → StateId → StateId
  | 0, id => id
  | n + 1, id =>
    match t.childrenOf id with
    | [] => id
    | child :: _ => t.firstTerminalWithin n child

/-- The end of the branch that takes the first child everywhere from `id` down. -/
def firstTerminal (t : DerivationTree) (id : StateId) : StateId :=
  t.firstTerminalWithin t.children.size id

end DerivationTree
end MinimalistGrammar
