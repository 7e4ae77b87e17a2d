import Mathlib.Data.List.Basic
import Mathlib.Data.Set.Basic
import Mathlib.Logic.Relation
import Mathlib.Order.Bounds.Basic
import MinimalistGrammar.Proofs.Tree.Reachable

/-!
# The two stacks of a search

A search through a store keeps two stacks, one of nodes and one of feature occurrences. It takes the
node on top as long as there is one, and only then the occurrence on top, which may put its host on
the stack of nodes again. One object may lie on a stack many times, or not be in the store at all;
it is found when it is taken from the stack for the first time, and only then are its links put on
the stacks. So every turn either finds something, which can happen only finitely often, or leaves
one entry less on the stacks.

## Main definitions

* `Attribute.PointsTo` — an annotation refers to a node, at any depth.
* `Store.LinksTo` — an object of the store is linked to another.
* `Store.IsEntry` — where a search begins.
* `Store.outset`, `Store.advance` — the loop over the two stacks.
* `Store.IsClosedSet` — a set of objects that no link leaves.

## Main results

* `Store.mem_linksOf_iff` — the links that are followed are those that there are.
* `Store.exists_advances` — the loop ends.
* `Store.IsUnderway.advance` — no turn loses anything that can be reached.
* `Store.reachable_isLeast` — **a search finds the least set that no link leaves**, and what is
  dropped after it is missed by nothing.
-/

namespace MinimalistGrammar

/-! ### Links -/

namespace Attribute

/-- An annotation refers to a node, at any depth. -/
inductive PointsTo : Attribute → ConstituentId → Prop
  | node (id : ConstituentId) : PointsTo (.node id) id
  | list {items : List Attribute} {a : Attribute} {id : ConstituentId} (ha : a ∈ items)
      (h : PointsTo a id) : PointsTo (.list items) id
  | tuple {items : List Attribute} {a : Attribute} {id : ConstituentId} (ha : a ∈ items)
      (h : PointsTo a id) : PointsTo (.tuple items) id
  | set {items : List Attribute} {a : Attribute} {id : ConstituentId} (ha : a ∈ items)
      (h : PointsTo a id) : PointsTo (.set items) id
  | map {entries : List (String × Attribute)} {key : String} {a : Attribute} {id : ConstituentId}
      (ha : (key, a) ∈ entries) (h : PointsTo a id) : PointsTo (.map entries) id

theorem mem_nodesOfItems_iff {items : List Attribute} {id : ConstituentId} :
    id ∈ nodesOfItems items ↔ ∃ a ∈ items, id ∈ a.nodes := by
  induction items with
  | nil => simp [nodesOfItems]
  | cons a items ih => rw [nodesOfItems, List.mem_append, ih, List.exists_mem_cons_iff]

theorem mem_nodesOfEntries_iff {entries : List (String × Attribute)} {id : ConstituentId} :
    id ∈ nodesOfEntries entries ↔ ∃ e ∈ entries, id ∈ e.2.nodes := by
  induction entries with
  | nil => simp [nodesOfEntries]
  | cons e entries ih => rw [nodesOfEntries, List.mem_append, ih, List.exists_mem_cons_iff]

theorem pointsTo_of_mem_nodes (a : Attribute) {id : ConstituentId} (h : id ∈ a.nodes) :
    a.PointsTo id := by
  match a with
  | .node id' =>
    obtain rfl := List.mem_singleton.mp h
    exact .node id
  | .list items =>
    obtain ⟨a, ha, hid⟩ := mem_nodesOfItems_iff.mp h
    exact .list ha (pointsTo_of_mem_nodes a hid)
  | .tuple items =>
    obtain ⟨a, ha, hid⟩ := mem_nodesOfItems_iff.mp h
    exact .tuple ha (pointsTo_of_mem_nodes a hid)
  | .set items =>
    obtain ⟨a, ha, hid⟩ := mem_nodesOfItems_iff.mp h
    exact .set ha (pointsTo_of_mem_nodes a hid)
  | .map entries =>
    obtain ⟨⟨key, a⟩, ha, hid⟩ := mem_nodesOfEntries_iff.mp h
    have hlt : 1 + sizeOf key + sizeOf a < sizeOf entries := List.sizeOf_lt_of_mem ha
    exact .map ha (pointsTo_of_mem_nodes a hid)
  | .null | .bool _ | .int _ | .float _ | .str _ | .point _ | .rect _ | .color _ | .computed _
  | .foreign _ _ => exact absurd h List.not_mem_nil

/-- The nodes of an annotation are those that it refers to. -/
theorem mem_nodes_iff {a : Attribute} {id : ConstituentId} : id ∈ a.nodes ↔ a.PointsTo id := by
  constructor
  · exact a.pointsTo_of_mem_nodes
  · intro h
    induction h with
    | node => exact List.mem_singleton_self _
    | list ha _ ih | tuple ha _ ih | set ha _ ih => exact mem_nodesOfItems_iff.mpr ⟨_, ha, ih⟩
    | map ha _ ih => exact mem_nodesOfEntries_iff.mpr ⟨_, ha, ih⟩

end Attribute

/-- A search on its way. The entry at the head of a list is the one on top of its stack. -/
structure Search where
  found : Reachable := {}
  /-- The nodes that wait. -/
  nodes : List ConstituentId := []
  /-- The feature occurrences that wait. -/
  occurrences : List FeatureId := []

/-- The links that wait. -/
def Search.waiting (search : Search) : List Link :=
  search.nodes.map .constituent ++ search.occurrences.map .feature

/-- Two searches have found the same. -/
structure Reachable.IsSame (found found' : Reachable) : Prop where
  has (l : Link) : found'.has l = found.has l
  contains_groups (g : GroupId) : found'.groups.contains g = found.groups.contains g

namespace Store

variable {s : Store} {l l' : Link} {start links links' : List Link} {found : Reachable}
  {search search' : Search} {roots : List ConstituentId} {groups : List GroupId}

/-! ### Objects and their links -/

/-- An object of the store is linked to another, which need not be in the store. -/
inductive LinksTo (s : Store) : Link → Link → Prop
  | part {id part : ConstituentId} {c : Constituent} (hc : s.constituent? id = some c)
      (h : part ∈ c.parts) : LinksTo s (.constituent id) (.constituent part)
  | mover {id mover : ConstituentId} {c : Constituent} {name : String}
      (hc : s.constituent? id = some c) (h : c.movers.get? name = some mover) :
      LinksTo s (.constituent id) (.constituent mover)
  | head {id part : ConstituentId} {c : Constituent} {head : Head}
      (hc : s.constituent? id = some c) (hhead : c.head = some head) (h : part ∈ head.parts) :
      LinksTo s (.constituent id) (.constituent part)
  | lexicalHead {id leaf : ConstituentId} {c : Constituent} (hc : s.constituent? id = some c)
      (h : leaf ∈ c.lexicalHeads) : LinksTo s (.constituent id) (.constituent leaf)
  | landing {id landing : ConstituentId} {c : Constituent} (hc : s.constituent? id = some c)
      (h : c.landing = some landing) : LinksTo s (.constituent id) (.constituent landing)
  | annotated {id node : ConstituentId} {c : Constituent} {key : String} {a : Attribute}
      (hc : s.constituent? id = some c) (ha : c.attributes.get? key = some a)
      (h : a.PointsTo node) : LinksTo s (.constituent id) (.constituent node)
  | feature {id : ConstituentId} {fid : FeatureId} {c : Constituent}
      (hc : s.constituent? id = some c) (h : fid ∈ c.features) :
      LinksTo s (.constituent id) (.feature fid)
  | checks {fid goal : FeatureId} {f : FeatureOccurrence} (hf : s.feature? fid = some f)
      (h : f.checks = some goal) : LinksTo s (.feature fid) (.feature goal)
  | checkedBy {fid probe : FeatureId} {f : FeatureOccurrence} (hf : s.feature? fid = some f)
      (h : f.checkedBy = some probe) : LinksTo s (.feature fid) (.feature probe)
  | host {fid : FeatureId} {host : ConstituentId} {f : FeatureOccurrence}
      (hf : s.feature? fid = some f) (h : f.host = some host) :
      LinksTo s (.feature fid) (.constituent host)

theorem linksTo_of_mem_nodes {id node : ConstituentId} {c : Constituent}
    (hc : s.constituent? id = some c) (h : node ∈ c.nodes) :
    s.LinksTo (.constituent id) (.constituent node) := by
  simp only [Constituent.nodes, List.mem_append] at h
  rcases h with ((((h | h) | h) | h) | h) | h
  · exact .part hc h
  · obtain ⟨name, hname⟩ := Dict.mem_values_iff.mp h
    exact .mover hc hname
  · cases hhead : c.head with
    | none => simp [hhead] at h
    | some head => exact .head hc hhead (by simpa [hhead] using h)
  · exact .lexicalHead hc h
  · exact .landing hc (Option.mem_toList.mp h)
  · obtain ⟨a, ha, hid⟩ := List.mem_flatMap.mp h
    obtain ⟨key, hkey⟩ := Dict.mem_values_iff.mp ha
    exact .annotated hc hkey (Attribute.mem_nodes_iff.mp hid)

theorem linksTo_of_mem_linksOf (h : l' ∈ s.linksOf l) : s.LinksTo l l' := by
  cases l with
  | constituent id =>
    cases hc : s.constituent? id with
    | none => simp [linksOf, linked?, hc] at h
    | some c =>
      rw [linksOf_constituent hc, Constituent.links, List.mem_append] at h
      rcases h with h | h
      · obtain ⟨fid, hfid, rfl⟩ := List.mem_map.mp h
        exact .feature hc hfid
      · obtain ⟨node, hnode, rfl⟩ := List.mem_map.mp h
        exact linksTo_of_mem_nodes hc hnode
  | feature fid =>
    cases hf : s.feature? fid with
    | none => simp [linksOf, linked?, hf] at h
    | some f =>
      rw [linksOf_feature hf] at h
      simp only [FeatureOccurrence.links, List.mem_append, List.mem_map, Option.mem_toList] at h
      rcases h with (⟨goal, hgoal, rfl⟩ | ⟨probe, hprobe, rfl⟩) | ⟨host, hhost, rfl⟩
      · exact .checks hf hgoal
      · exact .checkedBy hf hprobe
      · exact .host hf hhost

theorem mem_linksOf_of_mem_nodes {id node : ConstituentId} {c : Constituent}
    (hc : s.constituent? id = some c) (h : node ∈ c.nodes) :
    .constituent node ∈ s.linksOf (.constituent id) := by
  rw [linksOf_constituent hc]
  exact List.mem_append_right _ (List.mem_map_of_mem h)

theorem mem_linksOf_of_linksTo (h : s.LinksTo l l') : l' ∈ s.linksOf l := by
  cases h with
  | part hc h => exact mem_linksOf_of_mem_nodes hc (by simp [Constituent.nodes, h])
  | mover hc h =>
    have hvalue := Dict.mem_values_iff.mpr ⟨_, h⟩
    exact mem_linksOf_of_mem_nodes hc (by simp [Constituent.nodes, hvalue])
  | head hc hhead h => exact mem_linksOf_of_mem_nodes hc (by simp [Constituent.nodes, hhead, h])
  | lexicalHead hc h => exact mem_linksOf_of_mem_nodes hc (by simp [Constituent.nodes, h])
  | landing hc h => exact mem_linksOf_of_mem_nodes hc (by simp [Constituent.nodes, h])
  | annotated hc ha h =>
    have hvalue := Dict.mem_values_iff.mpr ⟨_, ha⟩
    exact mem_linksOf_of_mem_nodes hc (List.mem_append_right _
      (List.mem_flatMap.mpr ⟨_, hvalue, Attribute.mem_nodes_iff.mpr h⟩))
  | feature hc h =>
    rw [linksOf_constituent hc]
    exact List.mem_append_left _ (List.mem_map_of_mem h)
  | checks hf h | checkedBy hf h | host hf h =>
    rw [linksOf_feature hf]
    simp [FeatureOccurrence.links, h]

/-- The links that are followed are those that there are. -/
theorem mem_linksOf_iff : l' ∈ s.linksOf l ↔ s.LinksTo l l' :=
  ⟨linksTo_of_mem_linksOf, mem_linksOf_of_linksTo⟩

/-- What can be reached is at the end of a chain of objects that there are. -/
theorem reaches_iff_exists_chain : s.Reaches start l ↔ ∃ entry ∈ start, s.linked? entry ≠ none ∧
    Relation.ReflTransGen (fun a b => s.LinksTo a b ∧ s.linked? b ≠ none) entry l := by
  constructor
  · intro h
    induction h with
    | start hl h => exact ⟨_, hl, h, .refl⟩
    | step _ hl' h ih =>
      obtain ⟨entry, hentry, hstored, hchain⟩ := ih
      exact ⟨entry, hentry, hstored, hchain.tail ⟨mem_linksOf_iff.mp hl', h⟩⟩
  · rintro ⟨entry, hentry, hstored, hchain⟩
    induction hchain with
    | refl => exact .start hentry hstored
    | tail _ hlink ih => exact ih.step (mem_linksOf_iff.mpr hlink.1) hlink.2

/-! ### The loop -/

/-- The members of a group wait on top, if there is such a group. -/
def enterGroup (s : Store) (search : Search) (g : GroupId) : Search :=
  match s.group? g with
  | none => search
  | some group =>
    { search with
      found := { search.found with groups := search.found.groups.insert g }
      nodes := group.members.reverse ++ search.nodes }

/-- The beginning of a search from some roots and groups. -/
def outset (s : Store) (roots : List ConstituentId) (groups : List GroupId) : Search :=
  groups.foldl s.enterGroup { nodes := roots.reverse }

/-- What is done with a node that has been taken from its stack. -/
def turnToNode (s : Store) (search : Search) (id : ConstituentId) : Search :=
  match s.constituent? id with
  | none => search
  | some c =>
    if search.found.constituents.contains id then search
    else
      { found := search.found.add (.constituent id)
        nodes := c.nodes.reverse ++ search.nodes
        occurrences := c.features.reverse ++ search.occurrences }

/-- What is done with a feature occurrence that has been taken from its stack. -/
def turnToOccurrence (s : Store) (search : Search) (fid : FeatureId) : Search :=
  match s.feature? fid with
  | none => search
  | some f =>
    if search.found.features.contains fid then search
    else
      { found := search.found.add (.feature fid)
        nodes := f.host.toList ++ search.nodes
        occurrences := (f.checks.toList ++ f.checkedBy.toList).reverse ++ search.occurrences }

/-- One turn of a search, if anything waits. Occurrences are looked at only when no node waits. -/
def advance (s : Store) : Search → Option Search
  | ⟨found, id :: nodes, occurrences⟩ => some (s.turnToNode ⟨found, nodes, occurrences⟩ id)
  | ⟨found, [], fid :: occurrences⟩ => some (s.turnToOccurrence ⟨found, [], occurrences⟩ fid)
  | ⟨_, [], []⟩ => none

/-- A link that has been taken leads to nothing or to what was found, and is passed over; or it
leads to a new object, whose links wait from then on. -/
inductive Turns (s : Store) (l : Link) (search : Search) : Search → Prop
  | pass (h : s.linked? l = none ∨ search.found.has l = true) : Turns s l search search
  | find {search' : Search} (h : s.linked? l ≠ none) (hnew : search.found.has l = false)
      (hfound : search'.found = search.found.add l)
      (hwaiting : ∀ l', l' ∈ search'.waiting ↔ l' ∈ s.linksOf l ++ search.waiting) :
      Turns s l search search'

theorem turns_turnToNode (s : Store) (search : Search) (id : ConstituentId) :
    s.Turns (.constituent id) search (s.turnToNode search id) := by
  rw [turnToNode]
  split
  · next hc => exact .pass (Or.inl (by rw [linked?, hc]; rfl))
  · next c hc =>
    split
    · next hfound => exact .pass (Or.inr hfound)
    · next hnew =>
      refine .find (by simp [linked?, hc]) (Bool.eq_false_iff.mpr hnew) rfl fun l' => ?_
      rw [linksOf_constituent hc, Constituent.links, Search.waiting, Search.waiting]
      cases l' <;> simp

theorem turns_turnToOccurrence (s : Store) (search : Search) (fid : FeatureId) :
    s.Turns (.feature fid) search (s.turnToOccurrence search fid) := by
  rw [turnToOccurrence]
  split
  · next hf => exact .pass (Or.inl (by rw [linked?, hf]; rfl))
  · next f hf =>
    split
    · next hfound => exact .pass (Or.inr hfound)
    · next hnew =>
      refine .find (by simp [linked?, hf]) (Bool.eq_false_iff.mpr hnew) rfl fun l' => ?_
      rw [linksOf_feature hf, FeatureOccurrence.links, Search.waiting, Search.waiting]
      cases l' <;> simp [or_comm, or_left_comm]

/-- Every turn takes the link on top. -/
theorem exists_turns_of_advance (h : s.advance search = some search') :
    ∃ l rest, search.found = rest.found ∧ search.waiting = l :: rest.waiting ∧
      s.Turns l rest search' := by
  match search, h with
  | ⟨found, id :: nodes, occurrences⟩, h =>
    obtain rfl := Option.some.inj h
    exact ⟨.constituent id, ⟨found, nodes, occurrences⟩, rfl, rfl, s.turns_turnToNode _ id⟩
  | ⟨found, [], fid :: occurrences⟩, h =>
    obtain rfl := Option.some.inj h
    exact ⟨.feature fid, ⟨found, [], occurrences⟩, rfl, rfl, s.turns_turnToOccurrence _ fid⟩

/-- A search comes to rest when nothing waits. -/
theorem waiting_of_advance (h : s.advance search = none) : search.waiting = [] := by
  match search, h with
  | ⟨_, [], []⟩, _ => rfl

/-! ### The loop ends -/

/-- Finding an object of the store leaves fewer to be found. -/
theorem missing_add_lt (h : s.linked? l ≠ none) (hnew : found.has l = false) :
    s.missing (found.add l) < s.missing found := by
  cases l with
  | constituent id =>
    refine Nat.add_lt_add_right (length_filter_insert_lt (Std.TreeMap.mem_keys.mpr ?_) hnew) _
    rw [Std.TreeMap.mem_iff_isSome_getElem?, Option.isSome_iff_ne_none]
    exact fun hnone => h (by rw [linked?, constituent?, hnone]; rfl)
  | feature fid =>
    refine Nat.add_lt_add_left (length_filter_insert_lt (Std.TreeMap.mem_keys.mpr ?_) hnew) _
    rw [Std.TreeMap.mem_iff_isSome_getElem?, Option.isSome_iff_ne_none]
    exact fun hnone => h (by rw [linked?, feature?, hnone]; rfl)

/-- A turn finds something or shortens the stacks. -/
theorem decreases_of_advance (h : s.advance search = some search') :
    Prod.Lex (· < ·) (· < ·) (s.missing search'.found, search'.waiting.length)
      (s.missing search.found, search.waiting.length) := by
  obtain ⟨l, rest, hfound, hwaiting, hturns⟩ := exists_turns_of_advance h
  rw [hfound, hwaiting]
  cases hturns with
  | pass => exact .right _ (Nat.lt_succ_self _)
  | find h hnew hfound' =>
    rw [hfound']
    exact .left _ _ (missing_add_lt h hnew)

/-- The loop ends. -/
theorem exists_advances (s : Store) (search : Search) :
    ∃ last, Relation.ReflTransGen (fun a b => s.advance a = some b) search last ∧
      s.advance last = none := by
  match h : s.advance search with
  | none => exact ⟨search, .refl, h⟩
  | some search' =>
    obtain ⟨last, hlast, hnone⟩ := s.exists_advances search'
    exact ⟨last, .head h hlast, hnone⟩
termination_by (s.missing search.found, search.waiting.length)
decreasing_by exact decreases_of_advance h

/-! ### What the loop finds -/

/-- It does not matter in which order links wait, nor how often. -/
theorem IsUnderway.congr (h : s.IsUnderway start found links) (heq : ∀ l, l ∈ links' ↔ l ∈ links) :
    s.IsUnderway start found links' where
  found_reaches := h.found_reaches
  links_reaches hl := h.links_reaches ((heq _).mp hl)
  entered hl hstored := (h.entered hl hstored).imp_right (heq _).mpr
  closed hl hl' hstored := (h.closed hl hl' hstored).imp_right (heq _).mpr

/-- No turn loses anything that can be reached. -/
theorem IsUnderway.advance (h : s.IsUnderway start search.found search.waiting)
    (hadvance : s.advance search = some search') :
    s.IsUnderway start search'.found search'.waiting := by
  obtain ⟨l, rest, hfound, hwaiting, hturns⟩ := exists_turns_of_advance hadvance
  rw [hfound, hwaiting] at h
  cases hturns with
  | pass hpass => exact h.skip hpass
  | find hstored _ hfound' hwaiting' =>
    rw [hfound']
    exact (h.visit hstored).congr hwaiting'

theorem IsUnderway.advances (h : s.IsUnderway start search.found search.waiting)
    (hadvances : Relation.ReflTransGen (fun a b => s.advance a = some b) search search') :
    s.IsUnderway start search'.found search'.waiting := by
  induction hadvances with
  | refl => exact h
  | tail _ hadvance ih => exact ih.advance hadvance

/-- What a search starts with when some groups have been entered. -/
structure Entered (s : Store) (search : Search) (groups : List GroupId)
    (search' : Search) : Prop where
  has (l : Link) : search'.found.has l = search.found.has l
  occurrences : search'.occurrences = search.occurrences
  mem_nodes (id : ConstituentId) : id ∈ search'.nodes ↔ id ∈ search.nodes ∨
    ∃ g ∈ groups, ∃ group, s.group? g = some group ∧ id ∈ group.members
  contains_groups (g : GroupId) : search'.found.groups.contains g = true ↔
    search.found.groups.contains g = true ∨ g ∈ groups ∧ s.group? g ≠ none

theorem entered_enterGroup (s : Store) (search : Search) (g : GroupId) :
    s.Entered search [g] (s.enterGroup search g) := by
  rw [enterGroup]
  split
  · next hnone =>
    refine ⟨fun _ => rfl, rfl, fun id => ?_, fun g' => ?_⟩
    · simp [hnone]
    · simp only [List.mem_singleton]
      exact ⟨Or.inl, fun h => h.resolve_right fun ⟨heq, hne⟩ => hne (heq ▸ hnone)⟩
  · next group hgroup =>
    refine ⟨fun l => by cases l <;> rfl, rfl, fun id => ?_, fun g' => ?_⟩
    · simp [hgroup, or_comm]
    · simp only [Std.TreeSet.contains_insert, Bool.or_eq_true, beq_iff_eq,
        Std.LawfulEqCmp.compare_eq_iff_eq, List.mem_singleton]
      constructor
      · rintro (rfl | h)
        · exact Or.inr ⟨rfl, by simp [hgroup]⟩
        · exact Or.inl h
      · rintro (h | ⟨rfl, -⟩)
        · exact Or.inr h
        · exact Or.inl rfl

theorem Entered.append {groups' : List GroupId} {search'' : Search}
    (h : s.Entered search groups search') (h' : s.Entered search' groups' search'') :
    s.Entered search (groups ++ groups') search'' where
  has l := (h'.has l).trans (h.has l)
  occurrences := h'.occurrences.trans h.occurrences
  mem_nodes id := by
    rw [h'.mem_nodes, h.mem_nodes, or_assoc]
    simp only [List.mem_append, or_and_right, exists_or]
  contains_groups g := by
    rw [h'.contains_groups, h.contains_groups, List.mem_append, or_and_right, or_assoc]

theorem entered_foldl (s : Store) (search : Search) (groups : List GroupId) :
    s.Entered search groups (groups.foldl s.enterGroup search) := by
  induction groups generalizing search with
  | nil => exact ⟨fun _ => rfl, rfl, by simp, by simp⟩
  | cons g groups ih => exact (s.entered_enterGroup search g).append (ih _)

/-- Where a search begins: at a root, or at a member of a group. -/
inductive IsEntry (s : Store) (roots : List ConstituentId) (groups : List GroupId) : Link → Prop
  | root {id : ConstituentId} (h : id ∈ roots) : IsEntry s roots groups (.constituent id)
  | member {id : ConstituentId} {g : GroupId} {group : Group} (hg : g ∈ groups)
      (hgroup : s.group? g = some group) (h : id ∈ group.members) :
      IsEntry s roots groups (.constituent id)

theorem isEntry_iff : s.IsEntry roots groups l ↔ l ∈ s.entrances roots groups := by
  rw [mem_entrances_iff]
  constructor
  · rintro (h | ⟨hg, hgroup, h⟩)
    · exact ⟨_, rfl, Or.inl h⟩
    · exact ⟨_, rfl, Or.inr ⟨_, hg, _, hgroup, h⟩⟩
  · rintro ⟨id, rfl, h | ⟨g, hg, group, hgroup, h⟩⟩
    · exact .root h
    · exact .member hg hgroup h

theorem isUnderway_outset (s : Store) (roots : List ConstituentId) (groups : List GroupId) :
    s.IsUnderway (s.entrances roots groups) (s.outset roots groups).found
      (s.outset roots groups).waiting := by
  have hentered := s.entered_foldl { nodes := roots.reverse } groups
  have hnone (l : Link) : ¬(s.outset roots groups).found.has l = true := by
    rw [outset, hentered.has]
    cases l <;> simp [Reachable.has]
  refine (isUnderway_start hnone).congr fun l => ?_
  rw [mem_entrances_iff, Search.waiting, outset, hentered.occurrences, List.map_nil,
    List.append_nil, List.mem_map]
  simp only [hentered.mem_nodes, List.mem_reverse]
  constructor
  · rintro ⟨id, hid, rfl⟩
    exact ⟨id, rfl, hid⟩
  · rintro ⟨id, rfl, hid⟩
    exact ⟨id, hid, rfl⟩

/-- No turn finds a group. -/
theorem groups_of_advances
    (h : Relation.ReflTransGen (fun a b => s.advance a = some b) search search') :
    search'.found.groups = search.found.groups := by
  induction h with
  | refl => rfl
  | tail _ hadvance ih =>
    obtain ⟨l, rest, hfound, -, hturns⟩ := exists_turns_of_advance hadvance
    rw [← ih, hfound]
    cases hturns with
    | pass => rfl
    | find _ _ hfound' => cases l <;> rw [hfound'] <;> rfl

/-- The loop finds what a search finds. -/
theorem exists_advances_reachable (s : Store) (roots : List ConstituentId) (groups : List GroupId) :
    ∃ last, Relation.ReflTransGen (fun a b => s.advance a = some b) (s.outset roots groups) last ∧
      s.advance last = none ∧ (s.reachable roots groups).IsSame last.found := by
  obtain ⟨last, hadvances, hnone⟩ := s.exists_advances (s.outset roots groups)
  have hend := (s.isUnderway_outset roots groups).advances hadvances
  rw [waiting_of_advance hnone] at hend
  refine ⟨last, hadvances, hnone, fun l => ?_, fun g => ?_⟩
  · rw [Bool.eq_iff_iff, hend.has_iff, has_reachable_iff]
  · have hentered := s.entered_foldl { nodes := roots.reverse } groups
    rw [Bool.eq_iff_iff, groups_of_advances hadvances, outset, hentered.contains_groups,
      contains_groups_reachable_iff, ← Option.ne_none_iff_exists']
    simp

/-! ### The least set that no link leaves -/

/-- A set of objects has all those of the store from which a search begins, and with every object
all those of the store that it is linked to. -/
structure IsClosedSet (s : Store) (roots : List ConstituentId) (groups : List GroupId)
    (objects : Set Link) : Prop where
  entry {l : Link} (h : s.IsEntry roots groups l) (hl : s.linked? l ≠ none) : l ∈ objects
  link {l l' : Link} (hl : l ∈ objects) (h : s.LinksTo l l') (hl' : s.linked? l' ≠ none) :
      l' ∈ objects

theorem isLeast_reachable (s : Store) (roots : List ConstituentId) (groups : List GroupId) :
    IsLeast {objects | s.IsClosedSet roots groups objects}
      {l | (s.reachable roots groups).has l = true} := by
  constructor
  · refine ⟨fun h hl => ?_, fun hl h hl' => ?_⟩
    · exact has_reachable_iff.mpr (.start (isEntry_iff.mp h) hl)
    · exact has_reachable_iff.mpr ((has_reachable_iff.mp hl).step (mem_linksOf_iff.mpr h) hl')
  · intro objects hobjects l hfound
    induction has_reachable_iff.mp hfound with
    | start hl hstored => exact hobjects.entry (isEntry_iff.mpr hl) hstored
    | step hreaches hlink hstored ih =>
      exact hobjects.link (ih (has_reachable_iff.mpr hreaches)) (mem_linksOf_iff.mp hlink) hstored

/-! ### What is kept -/

/-- Two stores have the same objects and counters. -/
structure IsSame (s s' : Store) : Prop where
  linked? (l : Link) : s'.linked? l = s.linked? l
  group? (g : GroupId) : s'.group? g = s.group? g
  nextConstituent : s'.nextConstituent = s.nextConstituent
  nextFeature : s'.nextFeature = s.nextFeature
  nextGroup : s'.nextGroup = s.nextGroup

/-- What is kept is as it was. -/
theorem linked?_retain_of_ne_none {keep : Reachable} (h : (s.retain keep).linked? l ≠ none) :
    keep.has l = true ∧ (s.retain keep).linked? l = s.linked? l := by
  rw [linked?_retain] at h ⊢
  split at h
  · next hkeep => exact ⟨hkeep, if_pos hkeep⟩
  · exact absurd rfl h

/-- A link leads where it led, if what it leads to is kept whenever it is in the store. -/
theorem linked?_retain_of_imp {keep : Reachable} (h : s.linked? l ≠ none → keep.has l = true) :
    (s.retain keep).linked? l = s.linked? l := by
  rw [linked?_retain]
  split
  · rfl
  · next hdrop => exact (not_imp_comm.mp h hdrop).symm

/-- An object that is kept has the links it had, and they lead where they led. -/
theorem linksTo_retain (hl : (s.retain (s.reachable roots groups)).linked? l ≠ none)
    (h : s.LinksTo l l') :
    (s.retain (s.reachable roots groups)).LinksTo l l' ∧
      (s.retain (s.reachable roots groups)).linked? l' = s.linked? l' := by
  obtain ⟨hfound, hkept⟩ := linked?_retain_of_ne_none hl
  constructor
  · rw [← mem_linksOf_iff, linksOf_congr hkept]
    exact mem_linksOf_iff.mpr h
  · exact linked?_retain_of_imp ((isLeast_reachable s roots groups).1.link hfound h)

/-- A group that was asked for is kept if there is one. -/
theorem group?_retain_of_mem {g : GroupId} (hg : g ∈ groups) :
    (s.retain (s.reachable roots groups)).group? g = s.group? g := by
  rw [group?_retain]
  split
  · rfl
  · next hdrop =>
    rw [contains_groups_reachable_iff, not_and, ← Option.ne_none_iff_exists', not_not] at hdrop
    exact (hdrop hg).symm

/-- A group that is kept is as it was, and its members are. -/
theorem group?_retain_of_some {g : GroupId} {group : Group}
    (h : (s.retain (s.reachable roots groups)).group? g = some group) :
    s.group? g = some group ∧ ∀ id ∈ group.members,
      (s.retain (s.reachable roots groups)).constituent? id = s.constituent? id := by
  rw [group?_retain] at h
  split at h
  · next hkeep =>
    obtain ⟨hg, -⟩ := contains_groups_reachable_iff.mp hkeep
    refine ⟨h, fun id hid => constituent?_of_linked? (linked?_retain_of_imp ?_)⟩
    exact (isLeast_reachable s roots groups).1.entry (.member hg h hid)
  · cases h

/-- In what is kept, the same can be reached. -/
theorem isSame_reachable_retain (s : Store) (roots : List ConstituentId) (groups : List GroupId) :
    (s.reachable roots groups).IsSame
      ((s.retain (s.reachable roots groups)).reachable roots groups) := by
  have hgroup {g : GroupId} (hg : g ∈ groups) :
      (s.retain (s.reachable roots groups)).group? g = s.group? g := group?_retain_of_mem hg
  have hkeep (l : Link) (hl : s.Reaches (s.entrances roots groups) l) :
      (s.reachable roots groups).has l = true := has_reachable_iff.mpr hl
  have hentry (l : Link) :
      l ∈ (s.retain (s.reachable roots groups)).entrances roots groups ↔
        l ∈ s.entrances roots groups := by
    simp only [mem_entrances_iff]
    refine exists_congr fun id => and_congr_right fun _ => or_congr_right ?_
    refine exists_congr fun g => and_congr_right fun hg => ?_
    rw [hgroup hg]
  constructor
  · intro l
    rw [Bool.eq_iff_iff, has_reachable_iff, has_reachable_iff, ← reaches_retain_iff hkeep]
    exact ⟨fun h => h.mono fun l => (hentry l).mp, fun h => h.mono fun l => (hentry l).mpr⟩
  · intro g
    rw [Bool.eq_iff_iff, contains_groups_reachable_iff, contains_groups_reachable_iff]
    refine and_congr_right fun hg => ?_
    rw [hgroup hg]

/-- Dropping the rest a second time changes nothing. -/
theorem isSame_retain {keep keep' : Reachable} (h : keep.IsSame keep') :
    (s.retain keep).IsSame ((s.retain keep).retain keep') where
  linked? l := by
    rw [linked?_retain, h.has, linked?_retain]
    split <;> rfl
  group? g := by
    rw [group?_retain, h.contains_groups, group?_retain]
    split <;> rfl
  nextConstituent := rfl
  nextFeature := rfl
  nextGroup := rfl

/-- **A search finds the least set of objects that no link leaves**, whatever the links of the store
are. The loop over the two stacks ends, and has then found what is at the end of a chain of objects
that there are, and the groups that there are. When all the rest is dropped, what is kept has the
links it had, they lead where they led, and nothing more is dropped the next time. -/
theorem reachable_isLeast (s : Store) (roots : List ConstituentId) (groups : List GroupId) :
    let found := s.reachable roots groups
    let kept := s.retain found
    (∃ last, Relation.ReflTransGen (fun a b => s.advance a = some b) (s.outset roots groups) last ∧
        s.advance last = none ∧ found.IsSame last.found) ∧
      (∀ g, found.groups.contains g = true ↔ g ∈ groups ∧ s.group? g ≠ none) ∧
      (∀ l, found.has l = true ↔
        ∃ entry, s.IsEntry roots groups entry ∧ s.linked? entry ≠ none ∧
          Relation.ReflTransGen (fun a b => s.LinksTo a b ∧ s.linked? b ≠ none) entry l) ∧
      IsLeast {objects | s.IsClosedSet roots groups objects} {l | found.has l = true} ∧
      (∀ l, kept.linked? l ≠ none → kept.linked? l = s.linked? l ∧
        ∀ l', s.LinksTo l l' → kept.LinksTo l l' ∧ kept.linked? l' = s.linked? l') ∧
      (∀ g group, kept.group? g = some group → s.group? g = some group ∧
        ∀ id ∈ group.members, kept.constituent? id = s.constituent? id) ∧
      kept.IsSame (kept.retain (kept.reachable roots groups)) := by
  refine ⟨s.exists_advances_reachable roots groups, fun g => ?_, fun l => ?_,
    s.isLeast_reachable roots groups, fun l hl => ?_, fun g group => group?_retain_of_some,
    isSame_retain (s.isSame_reachable_retain roots groups)⟩
  · rw [contains_groups_reachable_iff, Option.ne_none_iff_exists']
  · rw [has_reachable_iff, reaches_iff_exists_chain]
    simp only [isEntry_iff]
  · exact ⟨(linked?_retain_of_ne_none hl).2, fun l' => linksTo_retain hl⟩

end Store
end MinimalistGrammar
