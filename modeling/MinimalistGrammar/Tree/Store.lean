import MinimalistGrammar.Tree.Constituent

/-!
# The store of trees

All constituents, feature occurrences and groups live in one store, each under an identifier that
is never given out twice.

## Main definitions

* `Store` — the objects by identifier, and the next number of each kind.
* `Store.addLeaf`, `Store.addNode`, `Store.addFeature`, `Store.addGroup` — new objects.
* `Store.check` — links a probe to its goal.
* `Store.setHead` — says what a node projects from.
-/

namespace MinimalistGrammar

/-- The objects of a collection of syntax trees. -/
structure Store where
  constituents : IdentMap .constituent Constituent := ∅
  features : IdentMap .feature FeatureOccurrence := ∅
  groups : IdentMap .group Group := ∅
  nextConstituent : Nat := 0
  nextFeature : Nat := 0
  nextGroup : Nat := 0

namespace Store

/-- The node with a given identifier. -/
def constituent? (s : Store) (id : ConstituentId) : Option Constituent := s.constituents[id]?

/-- The feature occurrence with a given identifier. -/
def feature? (s : Store) (id : FeatureId) : Option FeatureOccurrence := s.features[id]?

/-- The group with a given identifier. -/
def group? (s : Store) (id : GroupId) : Option Group := s.groups[id]?

/-- How many nodes there are. -/
def size (s : Store) : Nat := s.constituents.size

/-- Whether there is no node. -/
def isEmpty (s : Store) : Bool := s.constituents.isEmpty

/-! ### Changing objects -/

/-- Changes a node, if there is one. -/
def modifyConstituent (s : Store) (id : ConstituentId) (f : Constituent → Constituent) : Store :=
  { s with constituents := s.constituents.modify id f }

/-- Changes a feature occurrence, if there is one. -/
def modifyFeature (s : Store) (id : FeatureId) (f : FeatureOccurrence → FeatureOccurrence) :
    Store :=
  { s with features := s.features.modify id f }

/-! ### New objects -/

/-- A new node. -/
def addNode (s : Store) (c : Constituent) : Store × ConstituentId :=
  let id : ConstituentId := ⟨s.nextConstituent⟩
  ({ s with constituents := s.constituents.insert id c, nextConstituent := s.nextConstituent + 1 },
    id)

/-- A new feature occurrence. -/
def addFeature (s : Store) (feature : Feature) (host : Option ConstituentId) :
    Store × FeatureId :=
  let id : FeatureId := ⟨s.nextFeature⟩
  ({ s with features := s.features.insert id { feature, host }, nextFeature := s.nextFeature + 1 },
    id)

/-- A new group. -/
def addGroup (s : Store) (group : Group) : Store × GroupId :=
  let id : GroupId := ⟨s.nextGroup⟩
  ({ s with groups := s.groups.insert id group, nextGroup := s.nextGroup + 1 }, id)

/-- New occurrences of some features on the leaf `host`. -/
def addFeatures (s : Store) (host : ConstituentId) : List Feature → Store × List FeatureId
  | [] => (s, [])
  | f :: fs =>
    let (s, id) := s.addFeature f (some host)
    let (s, ids) := s.addFeatures host fs
    (s, id :: ids)

@[simp] theorem addFeatures_nil (s : Store) (host : ConstituentId) :
    s.addFeatures host [] = (s, []) := rfl

/-- A new leaf that is its own head and hosts new occurrences of some features. -/
def addLeaf (s : Store) (label : String) (features : List Feature) : Store × ConstituentId :=
  let (s, id) := s.addNode { label }
  let (s, ids) := s.addFeatures id features
  (s.modifyConstituent id fun c => { c with features := ids, lexicalHeads := [id] }, id)

/-! ### Parts -/

/-- Adds a part at the end. -/
def addPart (s : Store) (parent child : ConstituentId) : Store :=
  s.modifyConstituent parent fun c => { c with parts := c.parts ++ [child] }

/-- Adds a part before position `index`, or at the end if there is no such position. -/
def insertPart (s : Store) (parent : ConstituentId) (index : Nat) (child : ConstituentId) :
    Store :=
  s.modifyConstituent parent fun c =>
    { c with parts := c.parts.take index ++ child :: c.parts.drop index }

/-- Whether there is such a node and it has no parts. -/
def isLeaf (s : Store) (id : ConstituentId) : Bool := (s.constituent? id).any Constituent.isLeaf

/-! ### Features -/

/-- The features of a node, in order. -/
def featureValues (s : Store) (id : ConstituentId) : List Feature :=
  ((s.constituent? id).elim [] (·.features)).filterMap fun f => (s.feature? f).map (·.feature)

/-- The active feature of a node. -/
def active? (s : Store) (id : ConstituentId) : Option FeatureId :=
  (s.constituent? id).bind Constituent.active?

/-- The occurrence of the active feature of a node. -/
def activeFeature? (s : Store) (id : ConstituentId) : Option FeatureOccurrence :=
  (s.active? id).bind s.feature?

/-- The sign of a feature occurrence. -/
def sign? (s : Store) (id : FeatureId) : Option Sign := (s.feature? id).map (·.feature.sign)

/-- Whether a probe and a goal are features of one name with complementary signs. -/
def canCheck (s : Store) (probe goal : FeatureId) : Bool :=
  match s.feature? probe, s.feature? goal with
  | some p, some g => p.feature.fits g.feature
  | _, _ => false

/-- Sets the links of a check from both sides. -/
def link (s : Store) (probe goal : FeatureId) : Store :=
  (s.modifyFeature probe fun f => { f with checks := some goal }).modifyFeature goal fun f =>
    { f with checkedBy := some probe }

/-- Links a probe to its goal if they fit. -/
def check (s : Store) (probe goal : FeatureId) : Store :=
  if s.canCheck probe goal then s.link probe goal else s

/-- The licensees of a node that nothing has checked, by name. -/
def pendingLicensees (s : Store) (id : ConstituentId) : List (String × FeatureId) :=
  ((s.constituent? id).elim [] (·.features)).filterMap fun fid =>
    ((s.feature? fid).filter (·.isPending)).map fun f => (f.feature.name, fid)

/-! ### Heads -/

/-- The leaves that a node projects from, as kept at the node. -/
def lexicalHeads (s : Store) (id : ConstituentId) : List ConstituentId :=
  (s.constituent? id).elim [] (·.lexicalHeads)

/-- A list with an item at its end unless it is there already. -/
def addNew (l : List ConstituentId) (a : ConstituentId) : List ConstituentId :=
  if l.contains a then l else l ++ [a]

/-- The leaves that a node projects from, as its head tells. -/
def headLeaves (s : Store) (id : ConstituentId) (c : Constituent) : List ConstituentId :=
  match c.head with
  | some head => (head.parts.flatMap s.lexicalHeads).foldl addNew []
  | none => if c.isLeaf then [id] else []

/-- Brings the leaves that a node projects from up to date. -/
def updateLexicalHeads (s : Store) (id : ConstituentId) : Store :=
  match s.constituent? id with
  | none => s
  | some c => s.modifyConstituent id fun d => { d with lexicalHeads := s.headLeaves id c }

/-- Says what a node projects from. -/
def setHead (s : Store) (id : ConstituentId) (head : Head) : Store :=
  (s.modifyConstituent id fun c => { c with head := some head }).updateLexicalHeads id

@[simp] theorem features_setHead (s : Store) (id : ConstituentId) (head : Head) :
    (s.setHead id head).features = s.features := by
  rw [setHead, updateLexicalHeads]
  split <;> rfl

/-! ### Objects under given identifiers -/

/-- Puts a node under a given identifier. -/
def putConstituent (s : Store) (id : ConstituentId) (c : Constituent) : Store :=
  { s with
    constituents := s.constituents.insert id c
    nextConstituent := max s.nextConstituent (id.index + 1) }

/-- Puts a feature occurrence under a given identifier. -/
def putFeature (s : Store) (id : FeatureId) (f : FeatureOccurrence) : Store :=
  { s with
    features := s.features.insert id f
    nextFeature := max s.nextFeature (id.index + 1) }

/-- Puts a group under a given identifier. -/
def putGroup (s : Store) (id : GroupId) (g : Group) : Store :=
  { s with
    groups := s.groups.insert id g
    nextGroup := max s.nextGroup (id.index + 1) }

/-- Drops a node. -/
def removeConstituent (s : Store) (id : ConstituentId) : Store :=
  { s with constituents := s.constituents.erase id }

/-- Drops a feature occurrence. -/
def removeFeature (s : Store) (id : FeatureId) : Store :=
  { s with features := s.features.erase id }

/-- Drops a group. -/
def removeGroup (s : Store) (id : GroupId) : Store := { s with groups := s.groups.erase id }

end Store
end MinimalistGrammar
