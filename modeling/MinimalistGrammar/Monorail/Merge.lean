import MinimalistGrammar.Tree.Reachable

/-!
# Merging from left to right

When a word or a raised phrase is merged on top of a tree, a feature of the left part may consume
the category of the right one. A selector makes the left part project; a licensee and an adjunct
make the right one project, and the category that an adjunct finds stays open.

A feature that has found its category is used up, and so is a category that a selector or a licensee
has found.

## Main definitions

* `Store.openFeatures` — the features of a node that are not used up.
* `Store.checkingPair?` — the features of two nodes that check each other.
* `Store.mergeOnTop` — the node above two others.
* `Store.nextEdge` — the next node that may be raised.
-/

namespace MinimalistGrammar

/-- Whether a feature of this sign consumes a category of its name. -/
def Sign.findsCategory : Sign → Bool
  | .selector | .licensee | .adjunct => true
  | _ => false

/-- The first of all features with one name and sign. -/
def unrepeated : List (FeatureId × Feature) → List (FeatureId × Feature)
  | [] => []
  | f :: rest => f :: (unrepeated rest).filter fun g => !f.2.agrees g.2

@[simp] theorem unrepeated_nil : unrepeated [] = [] := rfl

namespace Store

/-- The features of a node that are not used up. -/
def openFeatures (s : Store) (used : IdentSet .feature) (id : ConstituentId) :
    List (FeatureId × Feature) :=
  (((s.constituent? id).elim [] (·.features)).filter (! used.contains ·)).filterMap fun f =>
    (s.feature? f).map fun occurrence => (f, occurrence.feature)

/-- The first open category of the right node for which the left one has an open feature, with the
first such feature before it. -/
def checkingPair? (s : Store) (used : IdentSet .feature) (left right : ConstituentId) :
    Option (FeatureId × FeatureId) :=
  let goals := (s.openFeatures used right).filter (·.2.sign == .categorial)
  goals.findSome? fun goal =>
    ((s.openFeatures used left).find? fun probe =>
      probe.2.name == goal.2.name && probe.2.sign.findsCategory).map fun probe => (probe.1, goal.1)

/-- What is used up after a check. -/
def spend (s : Store) (used : IdentSet .feature) (pair : FeatureId × FeatureId) :
    IdentSet .feature :=
  match s.sign? pair.1 with
  | some .selector | some .licensee => (used.insert pair.1).insert pair.2
  -- an adjunct leaves the category open, to be checked again
  | _ => used.insert pair.1

/-- The part that projects, and the label of the new node. Without a check a word projects and a
phrase does not. -/
def projectionOf (s : Store) (left right : ConstituentId) (pair : Option (FeatureId × FeatureId)) :
    ConstituentId × String :=
  match pair with
  | some (probe, _) =>
    match s.sign? probe with
    | some .selector => (left, headLeft)
    | some .licensee => (right, headRight)
    | _ => (right, adjunction)
  | none => if s.isLeaf left then (left, headLeft) else (right, headRight)

/-- The node above two others, and what is used up then. -/
def mergeOnTop (s : Store) (used : IdentSet .feature) (left right : ConstituentId) :
    Store × IdentSet .feature × ConstituentId :=
  let pair := s.checkingPair? used left right
  let (head, label) := s.projectionOf left right pair
  let used := pair.elim used (s.spend used)
  let s := pair.elim s fun (probe, goal) => s.link probe goal
  -- features that the check has used up are not handed on
  let features := (unrepeated (s.openFeatures used head)).map (·.1)
  let (s, id) := s.addNode { label, parts := [left, right], features }
  (s.setHead id (.single head), used, id)

/-- The next node that may be raised, and the nodes that have been on the edge then: the first
right part down the left edge whose sister has not been on it. -/
def nextEdge (s : Store) (edges : IdentSet .constituent) (node : ConstituentId) :
    Option ConstituentId × IdentSet .constituent :=
  match (s.constituent? node).map (·.parts) with
  | some [left, right] =>
    if edges.contains left then
      -- a part is older than its node, so the test holds in every tree made by merging
      if left.index < node.index then s.nextEdge edges left else (none, edges)
    else (some right, edges.insert right)
  | _ => (none, edges)
termination_by node.index

/-! ### Merging uses up features -/

/-- How many features are not used up. -/
def openCount (s : Store) (used : IdentSet .feature) : Nat :=
  (s.features.keys.filter (! used.contains ·)).length

@[simp] theorem keys_features_modifyFeature (s : Store) (id : FeatureId)
    (f : FeatureOccurrence → FeatureOccurrence) :
    (s.modifyFeature id f).features.keys = s.features.keys :=
  keys_modify s.features id f

@[simp] theorem keys_features_link (s : Store) (probe goal : FeatureId) :
    (s.link probe goal).features.keys = s.features.keys := by
  simp [link]

@[simp] theorem features_modifyConstituent (s : Store) (id : ConstituentId)
    (f : Constituent → Constituent) : (s.modifyConstituent id f).features = s.features := rfl

@[simp] theorem features_addNode (s : Store) (c : Constituent) :
    (s.addNode c).1.features = s.features := rfl

/-- Merging makes no features. -/
theorem keys_features_mergeOnTop (s : Store) (used : IdentSet .feature)
    (left right : ConstituentId) :
    (s.mergeOnTop used left right).1.features.keys = s.features.keys := by
  simp only [mergeOnTop, features_setHead, features_addNode]
  cases s.checkingPair? used left right with
  | none => rfl
  | some pair => exact keys_features_link s pair.1 pair.2

/-- The probe of a check is a feature that was not used up. -/
theorem mem_of_checkingPair? {s : Store} {used : IdentSet .feature} {left right : ConstituentId}
    {pair : FeatureId × FeatureId} (h : s.checkingPair? used left right = some pair) :
    pair.1 ∈ s.features.keys ∧ used.contains pair.1 = false := by
  obtain ⟨goal, _, hgoal⟩ := List.exists_of_findSome?_eq_some h
  obtain ⟨probe, hprobe, rfl⟩ := Option.map_eq_some_iff.mp hgoal
  have hmem := List.mem_of_find?_eq_some hprobe
  obtain ⟨f, hf, hval⟩ := List.mem_filterMap.mp hmem
  obtain ⟨occurrence, hocc, rfl⟩ := Option.map_eq_some_iff.mp hval
  refine ⟨Std.TreeMap.mem_keys.mpr ?_, by simpa using (List.mem_filter.mp hf).2⟩
  exact Std.TreeMap.mem_iff_isSome_getElem?.mpr (by
    rw [feature?] at hocc
    rw [hocc]
    rfl)

theorem openCount_insert_le (s : Store) (used : IdentSet .feature) (id : FeatureId) :
    s.openCount (used.insert id) ≤ s.openCount used := by
  rw [openCount, openCount, filter_insert]
  exact List.length_filter_le ..

/-- A merge with a check uses up at least one feature. -/
theorem openCount_mergeOnTop_lt {s : Store} {used : IdentSet .feature}
    {left right : ConstituentId} {pair : FeatureId × FeatureId}
    (h : s.checkingPair? used left right = some pair) :
    (s.mergeOnTop used left right).1.openCount (s.mergeOnTop used left right).2.1 <
      s.openCount used := by
  obtain ⟨hkey, hnew⟩ := mem_of_checkingPair? h
  have hlt := length_filter_insert_lt hkey hnew
  have hused : (s.mergeOnTop used left right).2.1 = s.spend used pair := by
    simp only [mergeOnTop, h, Option.elim]
  rw [openCount, keys_features_mergeOnTop, hused, ← openCount]
  refine Nat.lt_of_le_of_lt ?_ hlt
  rw [spend]
  split
  · exact openCount_insert_le ..
  · exact openCount_insert_le ..
  · exact Nat.le_refl _

end Store
end MinimalistGrammar
