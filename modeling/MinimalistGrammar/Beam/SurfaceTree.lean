import MinimalistGrammar.Beam.RecordTree
import MinimalistGrammar.Tree.Store

/-!
# From a derivation to a syntax tree

The tree of a derivation is built into a store from the leaves up. A merge checks the active
features of its two parts, and the node keeps the features of its head but for the active one. When
a licensor finds its mover, the mover is hung below the new node as well: it is pronounced there.

## Main definitions

* `BuiltNode` — a node that has been built, with the phrases that still have to move.
* `Store.build` — builds the tree of a derivation.
* `SurfaceTree` — the result for a list of records.
-/

namespace MinimalistGrammar

/-- Phrases that still have to move, by the name of the licensee for which they move. -/
abbrev PendingMovers := Dict String ConstituentId

/-- A node that has been built. -/
structure BuiltNode where
  id : ConstituentId
  pending : PendingMovers
  /-- All nodes built for the subtree, by increasing address. -/
  nodes : List (Address × ConstituentId) := []

namespace Store

/-- The features that a projection of a node keeps: all but the active one. -/
def projected (s : Store) (id : ConstituentId) : List FeatureId :=
  (s.constituent? id).elim [] (·.features.drop 1)

/-- Checks the active features of two nodes, if they have any. -/
def checkActive (s : Store) (selector selected : ConstituentId) : Store :=
  match s.active? selector, s.active? selected with
  | some probe, some goal => s.check probe goal
  | _, _ => s

/-- A new node that projects from one of its parts. -/
def addProjection (s : Store) (head : ConstituentId) (label : String)
    (parts : List ConstituentId) (lexKey : String) : Store × ConstituentId :=
  let (s, id) := s.addNode { label, parts, features := s.projected head, lexKey := some lexKey }
  (s.setHead id (.single head), id)

/-- A leaf for a record. -/
def buildLeaf (s : Store) (r : NodeRecord) : Store × ConstituentId :=
  let (s, id) := s.addLeaf (r.label.getD "") r.features
  (s.modifyConstituent id fun c =>
    { c with lexKey := some r.lexKey, parentLexKey := r.parentLexKey }, id)

/-- The label and the parts of a node for which the selector takes a phrase. -/
def mergeParts (s : Store) (isLexical : Bool) (selector selected : ConstituentId) :
    String × List ConstituentId :=
  if (s.active? selector).bind s.sign? = some .adjunct then (adjunction, [selector, selected])
  else if isLexical then (headLeft, [selector, selected])
  else (headRight, [selected, selector])

/-- A node for which the selector takes a phrase. -/
def buildMerge (s : Store) (r : NodeRecord) (isLexical : Bool) (selector selected : ConstituentId) :
    Store × ConstituentId :=
  let (label, parts) := s.mergeParts isLexical selector selected
  (s.checkActive selector selected).addProjection selector label parts r.lexKey

/-- The mover that the active feature of a node attracts, with the name of its licensee. -/
def attracted? (s : Store) (id : ConstituentId) (pending : PendingMovers) :
    Option (String × ConstituentId) := do
  let probe ← s.activeFeature? id
  if probe.feature.sign = .licensor then
    let mover ← pending.get? probe.feature.name
    some (probe.feature.name, mover)
  else none

/-- Checks the active feature of a node against the licensee for which a mover moves. -/
def checkLicensee (s : Store) (id mover : ConstituentId) (name : String) : Store :=
  match s.active? id, (s.pendingLicensees mover).lookup name with
  | some probe, some goal => s.check probe goal
  | _, _ => s

/-- A node with a mover on its left, which lands there. -/
def buildMove (s : Store) (r : NodeRecord) (part mover : ConstituentId) (name : String) :
    Store × ConstituentId :=
  let (s, id) :=
    (s.checkLicensee part mover name).addProjection part headRight [mover, part] r.lexKey
  (s.modifyConstituent mover fun c => { c with landing := some id }, id)

/-- A node with a single part, and what is left to move. -/
def buildUnary (s : Store) (r : NodeRecord) (part : ConstituentId) (pending : PendingMovers) :
    (Store × ConstituentId) × PendingMovers :=
  match s.attracted? part pending with
  | some (name, mover) => (s.buildMove r part mover name, pending.erase name)
  -- without a mover there is still a node, with a single part
  | none => (s.addProjection part unary [part] r.lexKey, pending)

/-- Notes at a node its address and what is left to move: what its parts left, and the node itself
for each of its own licensees. -/
def finishNode (s : Store) (path : Address) (id : ConstituentId) (pending : PendingMovers) :
    Store × PendingMovers :=
  -- a licensee of the node takes the place of an older mover of the same name
  let pending := pending.insertAll ((s.pendingLicensees id).map (·.1)) id
  (s.modifyConstituent id fun c => { c with movers := pending, address := path.text }, pending)

/-- Builds the tree of a derivation that hangs at the address `path`. Of two pending movers with one
name, that of the selector counts. -/
def build (s : Store) (path : Address) : RecordTree → Store × BuiltNode
  | .leaf r =>
    let (s, id) := s.buildLeaf r
    let (s, pending) := s.finishNode path id ∅
    (s, { id, pending, nodes := [(path, id)] })
  | .unary r side part =>
    let (s, built) := s.build (path.child side) part
    let ((s, id), pending) := s.buildUnary r built.id built.pending
    let (s, pending) := s.finishNode path id pending
    (s, { id, pending, nodes := (path, id) :: built.nodes })
  | .binary r left right =>
    let (s, selector) := s.build path.left left
    let (s, selected) := s.build path.right right
    let (s, id) := s.buildMerge r left.record.isLexical selector.id selected.id
    let (s, pending) := s.finishNode path id (selector.pending.unite selected.pending)
    (s, { id, pending, nodes := (path, id) :: (selector.nodes ++ selected.nodes) })

end Store

/-- The syntax tree of a list of records. -/
structure SurfaceTree where
  root : ConstituentId
  /-- The nodes by their address in the derivation. -/
  nodes : List (Address × ConstituentId)
deriving DecidableEq, Repr

namespace SurfaceTree

/-- Builds the tree of some records into a store, if there is a record for the root. -/
def build (s : Store) (records : List NodeRecord) : Option (Store × SurfaceTree) :=
  (RecordTree.ofRecords records).map fun tree =>
    let (s, built) := s.build .root tree
    (s, { root := built.id, nodes := built.nodes })

/-- The nodes that still have to move. -/
def pendingMovers (s : Store) (t : SurfaceTree) : List ConstituentId :=
  (s.constituent? t.root).elim [] (·.movers.values)

end SurfaceTree
end MinimalistGrammar
