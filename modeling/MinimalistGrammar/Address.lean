import Std.Data.TreeMap

/-!
# Tree addresses

An address says how to get from the root of a binary tree to a node, branch by branch. Addresses
are ordered lexicographically, so a node comes before the nodes below it and all that is below a
left branch comes before all that is below the right one.

## Main definitions

* `Branch` — left or right.
* `Address` — a list of branches, from the root down.
* `Address.left`, `Address.right`, `Address.parent?` — the nodes right below and right above.
-/

namespace MinimalistGrammar

/-- One of the two ways down from a node. -/
inductive Branch
  | left
  | right
deriving DecidableEq, Repr

namespace Branch

/-- Left is before right. -/
def order : Branch → Branch → Ordering
  | left, right => .lt
  | right, left => .gt
  | _, _ => .eq

instance : Ord Branch := ⟨order⟩

instance : Std.TransOrd Branch where
  eq_swap := by intro a b; cases a <;> cases b <;> rfl
  isLE_trans := by
    intro a b c hab hbc
    cases a <;> cases b <;> cases c <;> first | rfl | exact absurd hab (by decide) |
      exact absurd hbc (by decide)

instance : Std.LawfulEqOrd Branch where
  compare_self := by intro a; cases a <;> rfl
  eq_of_compare := by
    intro a b h
    cases a <;> cases b <;> first | rfl | exact absurd h (by decide)

/-- The digit that stands for a branch. -/
def digit : Branch → Char
  | left => '0'
  | right => '1'

end Branch

/-- A way from the root of a tree to a node. -/
structure Address where
  /-- The branches taken, from the root down. -/
  branches : List Branch
deriving DecidableEq, Repr

namespace Address

/-- The address of the root. -/
def root : Address := ⟨[]⟩

/-- The address one branch below `a`. -/
def child (a : Address) (b : Branch) : Address := ⟨a.branches ++ [b]⟩

/-- The address right below `a` on the left. -/
def left (a : Address) : Address := a.child .left

/-- The address right below `a` on the right. -/
def right (a : Address) : Address := a.child .right

/-- The address right above `a`; the root has none. -/
def parent? (a : Address) : Option Address :=
  if a.branches.isEmpty then none else some ⟨a.branches.dropLast⟩

@[simp] theorem parent?_root : root.parent? = none := rfl

@[simp] theorem parent?_child (a : Address) (b : Branch) : (a.child b).parent? = some a := by
  simp [parent?, child]

/-- How far down the node is. -/
def length (a : Address) : Nat := a.branches.length

@[simp] theorem length_child (a : Address) (b : Branch) : (a.child b).length = a.length + 1 := by
  simp [length, child]

instance : Ord Address := ⟨fun a b => compare a.branches b.branches⟩

instance : Std.TransOrd Address where
  eq_swap := by
    intro a b
    show compare a.branches b.branches = (compare b.branches a.branches).swap
    exact Std.OrientedCmp.eq_swap
  isLE_trans := by
    intro a b c hab hbc
    show (compare a.branches c.branches).isLE = true
    have hab' : (compare a.branches b.branches).isLE = true := hab
    have hbc' : (compare b.branches c.branches).isLE = true := hbc
    exact Std.TransCmp.isLE_trans hab' hbc'

instance : Std.LawfulEqOrd Address where
  compare_self := by
    intro a
    show compare a.branches a.branches = .eq
    exact Std.ReflCmp.compare_self
  eq_of_compare := by
    intro a b h
    have hab : compare a.branches b.branches = .eq := h
    exact congrArg Address.mk (Std.LawfulEqCmp.eq_of_compare hab)

/-- The lesser of two addresses. -/
def least (a b : Address) : Address := if (compare b a).isLT then b else a

/-- An address as digits, `0` for left and `1` for right. -/
def text (a : Address) : String := String.ofList (a.branches.map Branch.digit)

end Address
end MinimalistGrammar
