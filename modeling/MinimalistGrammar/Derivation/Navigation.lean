import MinimalistGrammar.Derivation.Tree

/-!
# Moving through a derivation tree

The cursor moves up to the parent, down along the active branch, to either end of it, or to the end
of the next or the previous branch. Every move gives the new current state, or nothing if there is
nowhere to go.

## Main definitions

* `UnknownState` — the error for a state that is not in the tree.
* `DerivationTree.jumpTo` — moves the cursor to any state.
* `DerivationTree.nextStep`, `DerivationTree.previousStep` — one step down or up.
* `DerivationTree.firstStep`, `DerivationTree.lastStep` — the ends of the active branch.
* `DerivationTree.nextParse`, `DerivationTree.previousParse` — the branches one after the other.
-/

namespace MinimalistGrammar

/-- A state that is not in the tree. -/
structure UnknownState where
  id : StateId
deriving DecidableEq, Repr

/-- The message for a state that is not in the tree. -/
def UnknownState.message (e : UnknownState) : String :=
  "no syntax state with id " ++ toString e.id.index

namespace DerivationTree

/-- Whether the state `id` is on the active branch. -/
def onActive (t : DerivationTree) (id : StateId) : Bool :=
  t.active.any fun a => (t.ancestors a).contains id

/-- Moves the cursor to the state `id`, which is in the tree. If it is not on the active branch, the
branch of its first terminal becomes active. -/
def moveTo (t : DerivationTree) (id : StateId) : DerivationTree :=
  let active := if t.onActive id then t.active else some (t.firstTerminal id)
  { t with active, current := some id }.notify (.jumped id)

/-- Moves the cursor to the state `id`. -/
def jumpTo (t : DerivationTree) (id : StateId) : Except UnknownState DerivationTree :=
  if t.contains id then .ok (t.moveTo id) else .error ⟨id⟩

/-- Moves the cursor if there is a state to move to, and says which. -/
def goTo (t : DerivationTree) (id : Option StateId) : DerivationTree × Option StateId :=
  match id.filter t.contains with
  | none => (t, none)
  | some id => (t.moveTo id, some id)

/-- The state after `id` in a list. -/
def successor? (id : StateId) : List StateId → Option StateId
  | [] => none
  | a :: rest => if a == id then rest.head? else successor? id rest

/-- One step down the active branch. -/
def nextStep (t : DerivationTree) : DerivationTree × Option StateId :=
  t.goTo do
    let current ← t.current
    let active ← t.active
    successor? current (t.branch active)

/-- One step up. -/
def previousStep (t : DerivationTree) : DerivationTree × Option StateId :=
  t.goTo (t.currentState?.bind (·.parent))

/-- To the root of the active branch. -/
def firstStep (t : DerivationTree) : DerivationTree × Option StateId :=
  t.goTo (t.active.bind fun a => (t.branch a).head?)

/-- To the end of the active branch. -/
def lastStep (t : DerivationTree) : DerivationTree × Option StateId := t.goTo t.active

/-- To the end of the branch at position `choose i n`, `i` being the position of the active branch
among all `n` branches; to the first branch if the active one is none of them. -/
def cycle (t : DerivationTree) (choose : Nat → Nat → Nat) : DerivationTree × Option StateId :=
  let branches := t.branches
  let position := t.active.bind fun a => branches.idxOf? a
  let next := position.elim 0 fun i => choose i branches.length
  match branches[next]? with
  | none => (t, none)
  -- the branch is made active first, so that moving to its end keeps it active
  | some id => { t with active := some id }.goTo (some id)

/-- To the end of the next branch, the first one being next after the last. -/
def nextParse (t : DerivationTree) : DerivationTree × Option StateId :=
  t.cycle fun i n => (i + 1) % n

/-- To the end of the previous branch, the last one being previous to the first. -/
def previousParse (t : DerivationTree) : DerivationTree × Option StateId :=
  t.cycle fun i n => (i + n - 1) % n

end DerivationTree
end MinimalistGrammar
