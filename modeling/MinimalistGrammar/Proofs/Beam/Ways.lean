import MinimalistGrammar.Proofs.Beam.Projections
import MinimalistGrammar.Proofs.Tree.Growth

/-!
# Ways down a tree of records

A part of a tree of records is at the end of a way down from the root. When records are put together
by their paths, the parts of the tree are at the paths of the records that hang together from the
root, and each has a record of its path. Building the tree notes one node for each way, in the order
of their addresses.

## Main definitions

* `RecordTree.at?` — the part of a tree at the end of a way.
* `RecordTree.ways` — the ways to all parts of a tree.
* `Rooted` — records that hang together from the root.

## Main results

* `RecordTree.at?_ofPlaced_ne_none_iff` — there is a part where there is a record.
* `RecordTree.pairwise_ways` — the ways are in the order of addresses.
* `Store.map_fst_nodes_build`, `Store.lookup_nodes_build` — the addresses of the nodes that are
  built.
-/

namespace MinimalistGrammar

variable {way : List Branch} {side : Branch} {rs : List Placed} {tree part : RecordTree}
  {r : NodeRecord}

namespace RecordTree

/-- The part of a tree at the end of a way. -/
def at? : RecordTree → List Branch → Option RecordTree
  | tree, [] => some tree
  | leaf _, _ :: _ => none
  | unary _ side part, b :: way => if b = side then part.at? way else none
  | binary _ left _, .left :: way => left.at? way
  | binary _ _ right, .right :: way => right.at? way

@[simp] theorem at?_nil (tree : RecordTree) : tree.at? [] = some tree := by cases tree <;> rfl

/-- A way can be gone in two parts. -/
theorem at?_append (tree : RecordTree) (way way' : List Branch) :
    tree.at? (way ++ way') = (tree.at? way).bind (·.at? way') := by
  induction way generalizing tree with
  | nil => rw [List.nil_append, at?_nil, Option.bind_some]
  | cons b way ih =>
    cases tree with
    | leaf r => rfl
    | unary r side part =>
      rw [List.cons_append, at?, at?]
      split
      · exact ih part
      · rfl
    | binary r left right =>
      cases b with
      | left => exact ih left
      | right => exact ih right

/-- Where there are parts on both sides, they are those of one node. -/
theorem exists_binary_of_at? (hleft : tree.at? (way ++ [.left]) ≠ none)
    (hright : tree.at? (way ++ [.right]) ≠ none) : ∃ r left right,
      tree.at? way = some (.binary r left right) ∧ tree.at? (way ++ [.left]) = some left := by
  rw [at?_append] at hleft hright
  rw [at?_append]
  cases hpart : tree.at? way with
  | none => exact absurd (by rw [hpart, Option.bind_none]) hleft
  | some part =>
    rw [hpart, Option.bind_some] at hleft hright
    cases part with
    | leaf r => exact absurd rfl hleft
    | unary r side part => cases side <;> simp [at?] at hleft hright
    | binary r left right => exact ⟨r, left, right, rfl, at?_nil left⟩

/-- The ways to all parts of a tree: first the tree itself, then what is below it from left to
right. -/
def ways : RecordTree → List (List Branch)
  | leaf _ => [[]]
  | unary _ side part => [] :: part.ways.map (side :: ·)
  | binary _ left right => [] :: (left.ways.map (.left :: ·) ++ right.ways.map (.right :: ·))

theorem mem_ways_iff : way ∈ tree.ways ↔ tree.at? way ≠ none := by
  induction tree generalizing way with
  | leaf r => cases way <;> simp [ways, at?]
  | unary r side part ih =>
    cases way with
    | nil => simp [ways]
    | cons b way =>
      by_cases hb : b = side
      · simp [ways, at?, ih, hb]
      · simp [ways, at?, hb, Ne.symm hb]
  | binary r left right ih₁ ih₂ =>
    cases way with
    | nil => simp [ways]
    | cons b way => cases b <;> simp [ways, at?, ih₁, ih₂]

theorem pairwise_map_cons {ways : List (List Branch)}
    (h : ways.Pairwise fun a b => compare a b = .lt) (side : Branch) :
    (ways.map (side :: ·)).Pairwise fun a b => compare a b = .lt := by
  refine List.pairwise_map.mpr (h.imp fun hlt => ?_)
  exact (Address.compare_append [side] _ _).trans hlt

/-- A way is before all that go on from it, and what begins on the left is before what begins on the
right. -/
theorem pairwise_ways (tree : RecordTree) : tree.ways.Pairwise fun a b => compare a b = .lt := by
  have hbelow {side : Branch} {ways : List (List Branch)} {way : List Branch}
      (hway : way ∈ ways.map (side :: ·)) : compare [] way = .lt := by
    obtain ⟨way, -, rfl⟩ := List.mem_map.mp hway
    exact List.compare_nil_cons
  induction tree with
  | leaf r => exact List.pairwise_singleton ..
  | unary r side part ih =>
    exact List.pairwise_cons.mpr ⟨fun way hway => hbelow hway, pairwise_map_cons ih side⟩
  | binary r left right ih₁ ih₂ =>
    refine List.pairwise_cons.mpr ⟨fun way hway => ?_, List.pairwise_append.mpr
      ⟨pairwise_map_cons ih₁ .left, pairwise_map_cons ih₂ .right, fun way hway way' hway' => ?_⟩⟩
    · exact (List.mem_append.mp hway).elim hbelow hbelow
    · obtain ⟨way, -, rfl⟩ := List.mem_map.mp hway
      obtain ⟨way', -, rfl⟩ := List.mem_map.mp hway'
      rfl

/-! ### Placed records -/

/-- What is below a node on one side is the tree of the records there. -/
theorem at?_cons_of_ofPlaced (h : ofPlaced rs = some tree) (b : Branch) (way : List Branch) :
    tree.at? (b :: way) = (ofPlaced (belowOn b rs)).bind (·.at? way) := by
  obtain ⟨r, -, hpreferred⟩ := exists_preferred (mem_atNode.mpr (ofPlaced_cases h).1)
  rw [ofPlaced_eq hpreferred, Option.some.injEq] at h
  subst h
  cases hleft : ofPlaced (belowOn .left rs) <;> cases hright : ofPlaced (belowOn .right rs) <;>
    cases b <;>
    simp [at?, hleft, hright]

/-- A part has a record of its way. -/
theorem mem_of_at?_ofPlaced (h : ofPlaced rs = some tree) (hpart : tree.at? way = some part) :
    (way, part.record) ∈ rs := by
  induction way generalizing rs tree with
  | nil =>
    rw [at?_nil] at hpart
    obtain rfl := Option.some.inj hpart
    exact (ofPlaced_cases h).1
  | cons b way ih =>
    rw [at?_cons_of_ofPlaced h] at hpart
    obtain ⟨below, hbelow, hpart⟩ := Option.bind_eq_some_iff.mp hpart
    exact mem_belowOn.mp (ih hbelow hpart)

end RecordTree

/-- The records hang together from the root: above a record there is another one. -/
def Rooted (rs : List Placed) : Prop :=
  ∀ way side r, (way ++ [side], r) ∈ rs → ∃ r', (way, r') ∈ rs

theorem Rooted.belowOn (h : Rooted rs) (side : Branch) : Rooted (belowOn side rs) := by
  intro way side' r hr
  obtain ⟨r', hr'⟩ := h (side :: way) side' r (mem_belowOn.mp hr)
  exact ⟨r', mem_belowOn.mpr hr'⟩

/-- There is a record at the beginning of every way. -/
theorem Rooted.exists_nil (h : Rooted rs) (hr : (way, r) ∈ rs) : ∃ r', ([], r') ∈ rs := by
  induction way using List.reverseRecOn generalizing r with
  | nil => exact ⟨r, hr⟩
  | append_singleton way side ih =>
    obtain ⟨r', hr'⟩ := h way side r hr
    exact ih hr'

/-- When records hang together from the root, there is a part where there is a record. -/
theorem RecordTree.at?_ofPlaced_ne_none_iff (hrs : Rooted rs) (h : ofPlaced rs = some tree) :
    tree.at? way ≠ none ↔ ∃ r, (way, r) ∈ rs := by
  constructor
  · intro hne
    obtain ⟨part, hpart⟩ := Option.ne_none_iff_exists'.mp hne
    exact ⟨part.record, mem_of_at?_ofPlaced h hpart⟩
  · rintro ⟨r, hr⟩
    induction way generalizing rs tree with
    | nil => simp
    | cons b way ih =>
      have hr := mem_belowOn.mpr hr
      obtain ⟨r', hr'⟩ := (hrs.belowOn b).exists_nil hr
      obtain ⟨below, hbelow⟩ := Option.ne_none_iff_exists'.mp (ofPlaced_ne_none hr')
      rw [at?_cons_of_ofPlaced h, hbelow, Option.bind_some]
      exact ih (hrs.belowOn b) hbelow hr

/-! ### Addresses of nodes -/

/-- Where one gets from a place on some way. -/
def Address.along (a : Address) (way : List Branch) : Address := ⟨a.branches ++ way⟩

@[simp] theorem Address.along_nil (a : Address) : a.along [] = a := by simp [along]

theorem Address.along_child (a : Address) (side : Branch) (way : List Branch) :
    (a.child side).along way = a.along (side :: way) := by
  simp [along, child]

theorem Address.map_along_child (a : Address) (side : Branch) (ways : List (List Branch)) :
    ways.map (a.child side).along = (ways.map (side :: ·)).map a.along := by
  rw [List.map_map]
  exact List.map_congr_left fun way _ => a.along_child side way

/-- One node is noted for each way. -/
theorem Store.map_fst_nodes_build (s : Store) (path : Address) (tree : RecordTree) :
    (s.build path tree).2.nodes.map (·.1) = tree.ways.map path.along := by
  induction tree generalizing s path with
  | leaf r => simp [Store.build_leaf, RecordTree.ways]
  | unary r side part ih =>
    rw [RecordTree.ways, List.map_cons, Address.along_nil, ← Address.map_along_child, ← ih]
    rfl
  | binary r left right ih₁ ih₂ =>
    rw [RecordTree.ways, List.map_cons, Address.along_nil, List.map_append,
      ← Address.map_along_child, ← Address.map_along_child, ← Address.left, ← Address.right,
      ← ih₁ s, ← ih₂ (s.build path.left left).1, ← List.map_append]
    rfl

/-- No address is noted twice. -/
theorem Store.lookup_nodes_build {s : Store} {path : Address} {tree : RecordTree}
    {x : Address × ConstituentId} (hx : x ∈ (s.build path tree).2.nodes) :
    (s.build path tree).2.nodes.lookup x.1 = some x.2 := by
  have hnodup : ((s.build path tree).2.nodes.map (·.1)).Nodup := by
    rw [map_fst_nodes_build]
    refine List.pairwise_map.mpr (tree.pairwise_ways.imp fun {a b} hlt heq => ?_)
    have hab : a = b := List.append_cancel_left (congrArg Address.branches heq)
    rw [hab] at hlt
    exact absurd (hlt.symm.trans Std.ReflOrd.compare_self) (by decide)
  obtain ⟨before, after, heq⟩ := List.append_of_mem hx
  rw [heq, List.map_append, List.map_cons] at hnodup
  refine List.lookup_eq_some_iff.mpr ⟨before, after, heq, fun y hy => ?_⟩
  have hne :=
    (List.nodup_append.mp hnodup).2.2 y.1 (List.mem_map_of_mem hy) x.1 (List.mem_cons_self ..)
  exact bne_iff_ne.mpr (Ne.symm hne)

end MinimalistGrammar
