import MinimalistGrammar.Feature
import MinimalistGrammar.Tree.Attribute

/-!
# Constituents and their features

The nodes of syntax trees refer to each other and to their features by identifiers. So a phrase
that has moved hangs below two nodes, and a phrase shares the feature occurrences of its head.

## Main definitions

* `Constituent` — a node of a syntax tree.
* `Head` — the part or the parts that a node projects from.
* `FeatureOccurrence` — a feature on a leaf, with the feature that it checks or is checked by.
* `Group` — a named set of nodes with a colour.
-/

namespace MinimalistGrammar

/-- The part or the parts that a node projects from. -/
inductive Head
  | single (a : ConstituentId)
  /-- Both parts project. -/
  | shared (a b : ConstituentId)
deriving DecidableEq, Repr

/-- The parts that a node projects from. -/
def Head.parts : Head → List ConstituentId
  | single a => [a]
  | shared a b => [a, b]

/-- A feature in one place, with its checking links. -/
structure FeatureOccurrence where
  feature : Feature
  /-- The goal that this feature has consumed. -/
  checks : Option FeatureId := none
  /-- The probe that has consumed this feature. -/
  checkedBy : Option FeatureId := none
  /-- The leaf that this feature sits on. -/
  host : Option ConstituentId := none
deriving DecidableEq, Repr

namespace FeatureOccurrence

/-- Whether the feature has checked or been checked. -/
def isChecked (f : FeatureOccurrence) : Bool := f.checks.isSome || f.checkedBy.isSome

/-- Whether the feature is a licensee that no licensor has checked. -/
def isPending (f : FeatureOccurrence) : Bool :=
  f.feature.sign == .licensee && f.checkedBy.isNone

end FeatureOccurrence

/-- A node of a syntax tree. -/
structure Constituent where
  label : String := ""
  parts : List ConstituentId := []
  /-- The features that are left, the active one first. -/
  features : List FeatureId := []
  /-- The key of the lexicon node that the node stands for. -/
  lexKey : Option String := none
  /-- The key of the lexicon node above it. -/
  parentLexKey : Option String := none
  /-- The nodes in this subtree that still have to move, by the name of their licensee. -/
  movers : Dict String ConstituentId := ∅
  head : Option Head := none
  /-- The leaves that the node projects from. -/
  lexicalHeads : List ConstituentId := []
  /-- The node below which this one is pronounced, if it has moved. -/
  landing : Option ConstituentId := none
  /-- The address of the node in its derivation. -/
  address : String := ""
  attributes : Dict String Attribute := ∅

namespace Constituent

/-- Whether the node has no parts. -/
def isLeaf (c : Constituent) : Bool := c.parts.isEmpty

/-- The active feature. -/
def active? (c : Constituent) : Option FeatureId := c.features.head?

/-- All nodes that the node refers to. -/
def nodes (c : Constituent) : List ConstituentId :=
  c.parts ++ c.movers.values ++ c.head.elim [] Head.parts ++ c.lexicalHeads ++ c.landing.toList ++
    c.attributes.values.flatMap Attribute.nodes

end Constituent

/-- A named set of nodes. -/
structure Group where
  name : String := ""
  members : List ConstituentId := []
  color : Option Color := none
deriving DecidableEq, Repr

/-! ### Labels of inner nodes -/

/-- The label of a node whose head is its left part. -/
def headLeft : String := "<"

/-- The label of a node whose head is its right part. -/
def headRight : String := ">"

/-- The label of a node with one part. -/
def unary : String := "o"

/-- The label of a node whose right part is adjoined. -/
def adjunction : String := "*"

end MinimalistGrammar
