import MinimalistGrammar.Dict
import MinimalistGrammar.Geometry
import MinimalistGrammar.Ident

/-!
# Attributes

A node of a tree may carry annotations of any form. Most of them are data; a value computed on
demand or a value that only others understand is known by a number that tells it apart from all
others.

## Main definitions

* `Attribute` — an annotation.
* `Attribute.nodes` — the nodes that an annotation refers to, in order.
* `Attribute.Ordered` — every map in the annotation has its keys in increasing order.
-/

namespace MinimalistGrammar

/-- An annotation on a node. Two annotations are equal if their data are, doubles being compared as
numbers. -/
inductive Attribute
  | null
  | bool (b : Bool)
  | int (n : Int)
  | float (x : Float)
  | str (s : String)
  | list (items : List Attribute)
  | tuple (items : List Attribute)
  | set (items : List Attribute)
  /-- The entries are in increasing order of their keys. -/
  | map (entries : List (String × Attribute))
  | point (p : Point)
  | rect (r : Rect)
  | color (c : Color)
  /-- Another node of the same tree. -/
  | node (id : ConstituentId)
  /-- A value computed on demand. -/
  | computed (serial : Nat)
  /-- A value of a type that only others understand. -/
  | foreign (typeName : String) (serial : Nat)
deriving BEq, Inhabited

namespace Attribute

mutual

/-- The nodes that an annotation refers to, in order. -/
def nodes : Attribute → List ConstituentId
  | node id => [id]
  | list items => nodesOfItems items
  | tuple items => nodesOfItems items
  | set items => nodesOfItems items
  | map entries => nodesOfEntries entries
  | _ => []

/-- The nodes that the items of a collection refer to. -/
def nodesOfItems : List Attribute → List ConstituentId
  | [] => []
  | a :: as => a.nodes ++ nodesOfItems as

/-- The nodes that the values of a map refer to. -/
def nodesOfEntries : List (String × Attribute) → List ConstituentId
  | [] => []
  | (_, a) :: rest => a.nodes ++ nodesOfEntries rest

end

mutual

/-- Every map in the annotation has its keys in increasing order. -/
def Ordered : Attribute → Prop
  | list items => OrderedItems items
  | tuple items => OrderedItems items
  | set items => OrderedItems items
  | map entries => Increasing entries ∧ OrderedEntries entries
  | _ => True

/-- Every map in some annotations has its keys in increasing order. -/
def OrderedItems : List Attribute → Prop
  | [] => True
  | a :: as => a.Ordered ∧ OrderedItems as

/-- Every map in the values of some entries has its keys in increasing order. -/
def OrderedEntries : List (String × Attribute) → Prop
  | [] => True
  | (_, a) :: rest => a.Ordered ∧ OrderedEntries rest

end

/-- The map of the entries of a list; of two entries with one key the later counts. -/
def ofEntries (entries : List (String × Attribute)) : Attribute :=
  map (Dict.ofList entries).entries

end Attribute
end MinimalistGrammar
