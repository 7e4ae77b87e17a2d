import MinimalistGrammar.Tree.Linearize

/-!
# Trees as text

A tree is shown with one node a line, two spaces deeper for each level. A phrase that has moved
away is shown by its words in angle brackets.

## Main definitions

* `depthLimit` — the depth below which parts are left out.
* `Store.display` — the text of a tree.
-/

namespace MinimalistGrammar

/-- Parts of nodes deeper than this are left out. -/
def depthLimit : Nat := 64

namespace Store

/-- Whether a node is pronounced elsewhere than below `parent`. -/
def isMovedAway (c : Constituent) (parent : Option ConstituentId) : Bool :=
  match c.landing, parent with
  | some landing, some parent => landing != parent
  | _, _ => false

/-- The text of a leaf: its label, and its features if it has any. -/
def leafText (label : String) (features : List Feature) : String :=
  if features.isEmpty then label else label ++ " [" ++ Feature.listText features ++ "]"

/-- The text of the node `id` below `parent`, when `levels` more levels may be shown. -/
def displayBelow (s : Store) : Nat → Option ConstituentId → ConstituentId → String
  | levels, parent, id =>
    let indent := "".pushn ' ' (2 * (depthLimit + 1 - levels))
    match s.constituent? id with
    | none => indent ++ "?"
    | some c =>
      let label := if c.label.isEmpty then "_" else c.label
      -- what has moved away is shown in full only where it has landed
      if isMovedAway c parent then indent ++ "<" ++ " ".intercalate (s.linearize id) ++ ">"
      else if c.isLeaf then indent ++ leafText label (s.featureValues id)
      else
        match levels with
        | 0 => indent ++ "(" ++ label ++ " ...)"
        | levels + 1 =>
          indent ++ "(" ++ label ++
            String.join (c.parts.map fun part => "\n" ++ s.displayBelow levels (some id) part) ++
              ")"

/-- The text of a tree. -/
def display (s : Store) (root : ConstituentId) : String :=
  s.displayBelow (depthLimit + 1) none root

end Store
end MinimalistGrammar
