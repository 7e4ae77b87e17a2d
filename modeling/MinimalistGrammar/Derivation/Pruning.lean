import MinimalistGrammar.Derivation.Tree

/-!
# Removing states

With a state go all states that come from it, and with them all nodes, features and groups that no
other state shows.

## Main definitions

* `DerivationTree.doomed` — some states with all that come from them.
* `DerivationTree.collectGarbage` — drops what no state shows.
* `DerivationTree.removeStates` — removes states and finds a new place for the cursor.
-/

namespace MinimalistGrammar
namespace DerivationTree

/-- Some states, with the state `id` as well if its parent is one of them. -/
def withOrphan (found : IdentSet .state) (id : StateId) (s : SyntaxState) : IdentSet .state :=
  if s.parent.any found.contains then found.insert id else found

/-- Those of `ids` that are in the tree, with all states that come from them. A parent has a lesser
number than its children, so going through the states by number finds them all. -/
def doomed (t : DerivationTree) (ids : List StateId) : IdentSet .state :=
  t.states.foldl withOrphan (Std.TreeSet.ofList (ids.filter t.contains))

/-- Drops everything in the store that no state shows. -/
def collectGarbage (t : DerivationTree) : DerivationTree :=
  let roots := t.states.values.flatMap (·.roots)
  let groups := t.states.values.flatMap (·.groups.values)
  { t with store := t.store.retain (t.store.reachable roots groups) }

/-- The tree without some states. -/
def withoutStates (t : DerivationTree) (gone : IdentSet .state) : DerivationTree :=
  { t with
    states := t.states.filter fun id _ => !gone.contains id
    children := (t.children.filter fun id _ => !gone.contains id).map fun _ children =>
      children.filter (! gone.contains ·) }

/-- The cursor at a state, or at the last state if there is none. The active branch is kept if it
still ends a branch. -/
def settle (t : DerivationTree) (survivor : Option StateId) : DerivationTree :=
  let current := survivor.or t.states.keys.getLast?
  let isKept := t.active.any fun a => t.contains a && t.isTerminal a
  { t with current, active := if isKept then t.active else current.map t.firstTerminal }

/-- Removes states with all that come from them, and gives the removed ones. The cursor goes to the
nearest ancestor that is left. -/
def removeStates (t : DerivationTree) (ids : List StateId) : DerivationTree × List StateId :=
  let gone := t.doomed ids
  if gone.isEmpty then (t, [])
  else
    -- the ancestors of the cursor are looked up before any state is gone
    let survivor := t.current.bind fun id => (t.ancestors id).find? (! gone.contains ·)
    let t := ((t.withoutStates gone).collectGarbage).settle survivor
    (t.notify (.removed gone.toList), gone.toList)

end DerivationTree
end MinimalistGrammar
