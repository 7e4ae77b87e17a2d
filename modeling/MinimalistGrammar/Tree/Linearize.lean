import MinimalistGrammar.Bracketing
import MinimalistGrammar.Tree.Store

/-!
# Words and shape of a tree

A tree is pronounced from left to right, and a phrase that has moved only where it has landed. The
part links of a store may run in circles: a node is left out below itself, so what is read off is
finite in every store, and in a store without circles nothing is left out.

## Main definitions

* `Store.pronouncedParts` — the parts of a node that are pronounced there.
* `Store.linearize` — the words of a tree.
* `Store.shape` — the shape of a tree, to compare with a bracketing.
* `Bracketing.covers` — whether a tree has the shape of a bracketing.
-/

namespace MinimalistGrammar

/-- A node that is new on a path leaves fewer nodes off the path. -/
theorem length_filter_notMem_lt {α : Type} [DecidableEq α] {l path : List α} {a : α} (hl : a ∈ l)
    (hp : a ∉ path) :
    (l.filter (· ∉ a :: path)).length < (l.filter (· ∉ path)).length := by
  have hsplit : l.filter (· ∉ a :: path) = (l.filter (· ∉ path)).filter (· ≠ a) := by
    rw [List.filter_filter]
    refine List.filter_congr fun x _ => ?_
    simp
  rw [hsplit]
  refine List.length_filter_lt_length_iff_exists.mpr ⟨a, ?_, by simp⟩
  exact List.mem_filter.mpr ⟨hl, by simpa using hp⟩

namespace Store

/-- How many nodes of the store are not on a path. -/
def offPath (s : Store) (path : List ConstituentId) : Nat :=
  (s.constituents.keys.filter (· ∉ path)).length

theorem offPath_cons_lt {s : Store} {path : List ConstituentId} {id : ConstituentId}
    {c : Constituent} (hc : s.constituent? id = some c) (hp : id ∉ path) :
    s.offPath (id :: path) < s.offPath path := by
  refine length_filter_notMem_lt (Std.TreeMap.mem_keys.mpr ?_) hp
  exact Std.TreeMap.mem_iff_isSome_getElem?.mpr (by
    rw [constituent?] at hc
    rw [hc]
    rfl)

/-- The parts of a node less those that have landed elsewhere. -/
def pronouncedParts (s : Store) (id : ConstituentId) : List ConstituentId :=
  ((s.constituent? id).elim [] (·.parts)).filter fun part =>
    match (s.constituent? part).bind (·.landing) with
    | some landing => landing == id
    | none => true

/-! ### Words -/

/-- The words below a node, `path` being the nodes above it. -/
def linearizeBelow (s : Store) (path : List ConstituentId) (id : ConstituentId) : List String :=
  match _hc : s.constituent? id with
  | none => []
  | some c =>
    if _hp : id ∈ path then []
    else
      (if c.isLeaf then tokens c.label else []) ++
        (s.pronouncedParts id).flatMap fun part => s.linearizeBelow (id :: path) part
termination_by s.offPath path
decreasing_by exact offPath_cons_lt _hc _hp

/-- The words of a tree, left to right. -/
def linearize (s : Store) (root : ConstituentId) : List String := s.linearizeBelow [] root

/-! ### Shape -/

/-- The shape of the tree below a node, `path` being the nodes above it. -/
def shapeBelow (s : Store) (path : List ConstituentId) (id : ConstituentId) : Option Shape :=
  match _hc : s.constituent? id with
  | none => none
  | some c =>
    if _hp : id ∈ path then none
    else if c.isLeaf then Shape.ofWord c.label
    else
      Shape.around ((s.pronouncedParts id).flatMap fun part =>
        (s.shapeBelow (id :: path) part).toList)
termination_by s.offPath path
decreasing_by exact offPath_cons_lt _hc _hp

/-- The shape of a tree. -/
def shape (s : Store) (root : ConstituentId) : Option Shape := s.shapeBelow [] root

end Store

/-- Whether a tree has the shape of a bracketing. -/
def Bracketing.covers (b : Bracketing) (s : Store) (root : ConstituentId) : Bool :=
  b.shape == s.shape root

end MinimalistGrammar
