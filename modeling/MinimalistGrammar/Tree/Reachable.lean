import MinimalistGrammar.Tree.Store
import MinimalistGrammar.Visited

/-!
# What is reachable in a store

From some nodes and groups one gets to other nodes and to features along the links between them.
What is not reachable from anything that is still shown can be dropped.

## Main definitions

* `Reachable` — sets of nodes, feature occurrences and groups.
* `Store.reachable` — everything that can be reached.
* `Store.retain` — the store without all the rest.
-/

namespace MinimalistGrammar

/-- Some of the objects of a store. -/
structure Reachable where
  constituents : IdentSet .constituent := ∅
  features : IdentSet .feature := ∅
  groups : IdentSet .group := ∅

/-- A link to follow. -/
inductive Link
  | constituent (id : ConstituentId)
  | feature (id : FeatureId)
deriving DecidableEq, Repr

/-- The links of a node. -/
def Constituent.links (c : Constituent) : List Link :=
  c.features.map .feature ++ c.nodes.map .constituent

/-- The links of a feature occurrence. -/
def FeatureOccurrence.links (f : FeatureOccurrence) : List Link :=
  f.checks.toList.map .feature ++ f.checkedBy.toList.map .feature ++
    f.host.toList.map .constituent

namespace Store

/-- How many objects of the store have not been found. -/
def missing (s : Store) (found : Reachable) : Nat :=
  (s.constituents.keys.filter (! found.constituents.contains ·)).length +
    (s.features.keys.filter (! found.features.contains ·)).length

/-- Follows links until none is left that leads to something new. -/
def follow (s : Store) (found : Reachable) : List Link → Reachable
  | [] => found
  | .constituent id :: rest =>
    match _hc : s.constituents[id]? with
    | none => s.follow found rest
    | some c =>
      -- links may lead in circles, so what was found is not followed again
      if _hnew : found.constituents.contains id then s.follow found rest
      else
        s.follow { found with constituents := found.constituents.insert id } (c.links ++ rest)
  | .feature id :: rest =>
    match _hf : s.features[id]? with
    | none => s.follow found rest
    | some f =>
      if _hnew : found.features.contains id then s.follow found rest
      else s.follow { found with features := found.features.insert id } (f.links ++ rest)
termination_by links => (s.missing found, links.length)
decreasing_by
  · exact Prod.Lex.right _ (by simp)
  · exact Prod.Lex.right _ (by simp)
  · refine Prod.Lex.left _ _ (Nat.add_lt_add_right (length_filter_insert_lt ?_ ?_) _)
    · exact Std.TreeMap.mem_keys.mpr (Std.TreeMap.mem_iff_isSome_getElem?.mpr (by simp [_hc]))
    · exact Bool.eq_false_iff.mpr _hnew
  · exact Prod.Lex.right _ (by simp)
  · exact Prod.Lex.right _ (by simp)
  · refine Prod.Lex.left _ _ (Nat.add_lt_add_left (length_filter_insert_lt ?_ ?_) _)
    · exact Std.TreeMap.mem_keys.mpr (Std.TreeMap.mem_iff_isSome_getElem?.mpr (by simp [_hf]))
    · exact Bool.eq_false_iff.mpr _hnew

/-- Everything that can be reached from some nodes and the members of some groups. -/
def reachable (s : Store) (roots : List ConstituentId) (groups : List GroupId) : Reachable :=
  let known := groups.filter s.groups.contains
  let members := (known.filterMap s.group?).flatMap (·.members)
  s.follow { groups := Std.TreeSet.ofList known } ((roots ++ members).map .constituent)

/-- The store with nothing but what is in `keep`. -/
def retain (s : Store) (keep : Reachable) : Store :=
  { s with
    constituents := s.constituents.filter fun id _ => keep.constituents.contains id
    features := s.features.filter fun id _ => keep.features.contains id
    groups := s.groups.filter fun id _ => keep.groups.contains id }

end Store
end MinimalistGrammar
