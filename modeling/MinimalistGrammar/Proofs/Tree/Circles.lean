import Mathlib.Data.Finset.Basic
import MinimalistGrammar.Proofs.Tree.Covering

/-!
# Reading trees that may run in circles

The words of a tree are read off in one pass. The pass keeps one list of words, to which it adds at
the leaves, and one set of the nodes that it is below: it enters a node into the set, reads its
parts, and takes the node out again. A node that is in the set already is passed over. Nothing
becomes smaller from a node to its parts, since part links may run in circles; but the set grows on
the way down, and there are only finitely many nodes to enter.

## Main definitions

* `Progress` — the words that have been read, and the nodes that one is below.
* `Visit` — a turn to a node, with the set before and after.
* `Store.Reads` — some nodes are read one after the other.
* `Store.Unfolds`, `Store.Pronounces` — the plain recursion, which has no set to look into.

## Main results

* `Store.Reads.visiting_eq` — after every turn the set is what it was before.
* `Store.exists_reads` — the pass ends below every path.
* `Store.Reads.notMem_before` — without circles no node is passed over.
* `Store.reads_linearize` — **reading ends in every store, with the words of the tree**.
-/

namespace MinimalistGrammar

/-- What reading has come to. -/
@[ext] structure Progress where
  /-- The words so far. -/
  words : List String := []
  /-- The nodes that one is below. -/
  visiting : Finset ConstituentId := ∅

namespace Progress

/-- More words have been read. -/
def read (p : Progress) (words : List String) : Progress := { p with words := p.words ++ words }

/-- One goes below a node, and reads its label if it is a leaf. -/
def enter (p : Progress) (id : ConstituentId) (c : Constituent) : Progress where
  words := p.words ++ if c.isLeaf then tokens c.label else []
  visiting := insert id p.visiting

/-- One comes back from below a node. -/
def leave (p : Progress) (id : ConstituentId) : Progress :=
  { p with visiting := p.visiting.erase id }

theorem read_nil (p : Progress) : p.read [] = p := by rw [read, List.append_nil]

theorem read_read (p : Progress) (words words' : List String) :
    (p.read words).read words' = p.read (words ++ words') := by
  rw [read, read, read, List.append_assoc]

/-- Back from below a new node, one has read the label and what is below. -/
theorem leave_read_enter {p : Progress} {id : ConstituentId} (hid : id ∉ p.visiting)
    (c : Constituent) (below : List String) :
    ((p.enter id c).read below).leave id =
      p.read ((if c.isLeaf then tokens c.label else []) ++ below) :=
  Progress.ext (List.append_assoc ..) (Finset.erase_insert hid)

end Progress

/-- A turn to a node, with the nodes that one is below before and after. -/
structure Visit where
  node : ConstituentId
  before : Finset ConstituentId
  after : Finset ConstituentId

namespace Store

variable {s : Store} {id root : ConstituentId} {ids path : List ConstituentId} {c : Constituent}
  {p q r : Progress} {visits visits' : List Visit}

/-! ### The pass -/

/-- Some nodes are read one after the other, each with all that is pronounced below it. The turns
are listed in the order in which they begin. -/
inductive Reads (s : Store) : List ConstituentId → Progress → Progress → List Visit → Prop
  | nil (p : Progress) : Reads s [] p p []
  /-- There is no such node. -/
  | missing {id : ConstituentId} {ids : List ConstituentId} {p r : Progress} {visits : List Visit}
      (hc : s.constituent? id = none) (hrest : Reads s ids p r visits) :
      Reads s (id :: ids) p r (⟨id, p.visiting, p.visiting⟩ :: visits)
  /-- One is below the node already. -/
  | circle {id : ConstituentId} {ids : List ConstituentId} {p r : Progress} {visits : List Visit}
      {c : Constituent} (hc : s.constituent? id = some c) (hid : id ∈ p.visiting)
      (hrest : Reads s ids p r visits) :
      Reads s (id :: ids) p r (⟨id, p.visiting, p.visiting⟩ :: visits)
  | node {id : ConstituentId} {ids : List ConstituentId} {p q r : Progress}
      {below visits : List Visit} {c : Constituent} (hc : s.constituent? id = some c)
      (hid : id ∉ p.visiting) (hparts : Reads s (s.pronouncedParts id) (p.enter id c) q below)
      (hrest : Reads s ids (q.leave id) r visits) :
      Reads s (id :: ids) p r (⟨id, p.visiting, (q.leave id).visiting⟩ :: (below ++ visits))

/-- When some nodes have been read, one is below the same nodes as before. -/
theorem Reads.visiting_eq (h : s.Reads ids p r visits) : r.visiting = p.visiting := by
  induction h with
  | nil => rfl
  | missing _ _ ih | circle _ _ _ ih => exact ih
  | node _ hid _ _ ihparts ihrest =>
    rw [ihrest, Progress.leave, ihparts, Progress.enter, Finset.erase_insert hid]

/-- After every turn one is below the same nodes as before. -/
theorem Reads.after_eq_before (h : s.Reads ids p r visits) : ∀ v ∈ visits, v.after = v.before := by
  induction h with
  | nil => exact List.forall_mem_nil _
  | missing _ _ ih | circle _ _ _ ih => exact List.forall_mem_cons.mpr ⟨rfl, ih⟩
  | @node id ids p q r below visits c _ hid hparts _ ihparts ihrest =>
    refine List.forall_mem_cons.mpr ⟨?_, List.forall_mem_append.mpr ⟨ihparts, ihrest⟩⟩
    show q.visiting.erase id = p.visiting
    rw [hparts.visiting_eq, Progress.enter, Finset.erase_insert hid]

/-- There is one way to read some nodes. -/
theorem Reads.unique (h : s.Reads ids p r visits) {r' : Progress} (h' : s.Reads ids p r' visits') :
    r' = r ∧ visits' = visits := by
  -- what is stored under the first name, and whether it is being visited, decides the rule
  induction h generalizing r' visits' with
  | nil =>
    cases h'
    exact ⟨rfl, rfl⟩
  | missing hc _ ih =>
    cases h' with
    | missing _ hrest =>
      obtain ⟨rfl, rfl⟩ := ih hrest
      exact ⟨rfl, rfl⟩
    | circle hc' | node hc' => cases hc.symm.trans hc'
  | circle hc hid _ ih =>
    cases h' with
    | missing hc' => cases hc.symm.trans hc'
    | circle _ _ hrest =>
      obtain ⟨rfl, rfl⟩ := ih hrest
      exact ⟨rfl, rfl⟩
    | node _ hid' => exact absurd hid hid'
  | node hc hid _ _ ihparts ihrest =>
    cases h' with
    | missing hc' => cases hc.symm.trans hc'
    | circle _ hid' => exact absurd hid' hid
    | node hc' _ hparts hrest =>
      obtain rfl := Option.some.inj (hc.symm.trans hc')
      obtain ⟨rfl, rfl⟩ := ihparts hparts
      obtain ⟨rfl, rfl⟩ := ihrest hrest
      exact ⟨rfl, rfl⟩

/-! ### The pass ends -/

theorem linearizeBelow_of_none (hc : s.constituent? id = none) : s.linearizeBelow path id = [] := by
  rw [linearizeBelow]
  split
  · rfl
  · next c hc' => cases hc.symm.trans hc'

theorem linearizeBelow_of_mem (hid : id ∈ path) : s.linearizeBelow path id = [] := by
  rw [linearizeBelow]
  split
  · rfl
  · rw [dif_pos hid]

theorem linearizeBelow_of_notMem (hc : s.constituent? id = some c) (hid : id ∉ path) :
    s.linearizeBelow path id =
      (if c.isLeaf then tokens c.label else []) ++
        (s.pronouncedParts id).flatMap (s.linearizeBelow (id :: path)) := by
  rw [linearizeBelow]
  split
  · next hnone => cases hnone.symm.trans hc
  · next c' hc' =>
    obtain rfl := Option.some.inj (hc'.symm.trans hc)
    rw [dif_neg hid]

/-- Below the nodes of a path, reading ends, and adds the words that are below there. -/
theorem exists_reads (s : Store) (hpath : ∀ above, above ∈ p.visiting ↔ above ∈ path)
    (ids : List ConstituentId) :
    ∃ visits, s.Reads ids p (p.read (ids.flatMap (s.linearizeBelow path))) visits := by
  -- the set grows from a node to its parts; along the list it stays as it is
  induction hn : s.offPath path using Nat.strongRecOn generalizing path p ids with
  | _ n ihbelow =>
    induction ids generalizing p with
    | nil =>
      rw [List.flatMap_nil, p.read_nil]
      exact ⟨[], .nil p⟩
    | cons id ids ih =>
      rw [List.flatMap_cons]
      cases hc : s.constituent? id with
      | none =>
        obtain ⟨visits, hrest⟩ := ih hpath
        rw [linearizeBelow_of_none hc, List.nil_append]
        exact ⟨_, .missing hc hrest⟩
      | some c =>
        by_cases hid : id ∈ path
        · obtain ⟨visits, hrest⟩ := ih hpath
          rw [linearizeBelow_of_mem hid, List.nil_append]
          exact ⟨_, .circle hc ((hpath id).mpr hid) hrest⟩
        · have hnew : id ∉ p.visiting := fun hmem => hid ((hpath id).mp hmem)
          have hpath' : ∀ above, above ∈ (p.enter id c).visiting ↔ above ∈ id :: path := by
            intro above
            rw [Progress.enter, Finset.mem_insert, List.mem_cons, hpath]
          obtain ⟨below, hparts⟩ := ihbelow _ (hn ▸ offPath_cons_lt hc hid) hpath'
            (s.pronouncedParts id) rfl
          obtain ⟨visits, hrest⟩ := ih (p := p.read (s.linearizeBelow path id)) hpath
          have hback := Progress.leave_read_enter hnew c
            ((s.pronouncedParts id).flatMap (s.linearizeBelow (id :: path)))
          rw [← linearizeBelow_of_notMem hc hid] at hback
          rw [← hback] at hrest
          rw [← p.read_read, ← hback]
          exact ⟨_, .node hc hnew hparts hrest⟩

/-! ### Without circles -/

/-- Without circles no node is passed over, if the nodes above are above. -/
theorem Reads.notMem_before (h : s.Reads ids p r visits) (hs : s.IsAcyclic)
    (habove : ∀ id ∈ ids, ∀ above ∈ p.visiting, Relation.TransGen s.IsPart id above) :
    ∀ v ∈ visits, v.node ∉ v.before := by
  induction h with
  | nil => exact List.forall_mem_nil _
  | missing _ _ ih | circle _ _ _ ih =>
    obtain ⟨hid, hids⟩ := List.forall_mem_cons.mp habove
    exact List.forall_mem_cons.mpr ⟨fun hmem => hs _ (hid _ hmem), ih hids⟩
  | @node id ids p q r below visits c _ hnew hparts _ ihparts ihrest =>
    obtain ⟨hid, hids⟩ := List.forall_mem_cons.mp habove
    have hbelow : ∀ part ∈ s.pronouncedParts id, ∀ above ∈ (p.enter id c).visiting,
        Relation.TransGen s.IsPart part above := by
      intro part hpart above hmem
      have hstep := Relation.TransGen.single (isPart_of_mem_pronouncedParts hpart)
      rcases Finset.mem_insert.mp hmem with rfl | hmem
      · exact hstep
      · exact hstep.trans (hid above hmem)
    have hleave : (q.leave id).visiting = p.visiting := by
      rw [Progress.leave, hparts.visiting_eq, Progress.enter, Finset.erase_insert hnew]
    refine List.forall_mem_cons.mpr ⟨hnew, List.forall_mem_append.mpr ⟨ihparts hbelow, ?_⟩⟩
    exact ihrest (hleave.symm ▸ hids)

/-- The plain recursion over some nodes and what is pronounced below them: what a leaf gives for its
label, and what a node gives for what its parts have given. Nothing keeps it from running in
circles. -/
inductive Unfolds {α : Type} (s : Store) (leaf : String → List α) (node : List α → List α) :
    List ConstituentId → List α → Prop
  | nil : Unfolds s leaf node [] []
  | missing {id : ConstituentId} {ids : List ConstituentId} {rest : List α}
      (hc : s.constituent? id = none) (hrest : Unfolds s leaf node ids rest) :
      Unfolds s leaf node (id :: ids) rest
  | leaf {id : ConstituentId} {ids : List ConstituentId} {rest : List α} {c : Constituent}
      (hc : s.constituent? id = some c) (hleaf : c.isLeaf = true)
      (hrest : Unfolds s leaf node ids rest) :
      Unfolds s leaf node (id :: ids) (leaf c.label ++ rest)
  | node {id : ConstituentId} {ids : List ConstituentId} {below rest : List α} {c : Constituent}
      (hc : s.constituent? id = some c) (hleaf : c.isLeaf = false)
      (hparts : Unfolds s leaf node (s.pronouncedParts id) below)
      (hrest : Unfolds s leaf node ids rest) : Unfolds s leaf node (id :: ids) (node below ++ rest)

/-- The plain recursion can end in one way only. -/
theorem Unfolds.unique {α : Type} {leaf : String → List α} {node : List α → List α}
    {results results' : List α} (h : s.Unfolds leaf node ids results)
    (h' : s.Unfolds leaf node ids results') : results' = results := by
  induction h generalizing results' with
  | nil =>
    cases h'
    rfl
  | missing hc _ ih =>
    cases h' with
    | missing _ hrest => exact ih hrest
    | leaf hc' | node hc' => cases hc.symm.trans hc'
  | leaf hc hleaf _ ih =>
    cases h' with
    | missing hc' => cases hc.symm.trans hc'
    | leaf hc' _ hrest =>
      obtain rfl := Option.some.inj (hc.symm.trans hc')
      rw [ih hrest]
    | node hc' hleaf' =>
      obtain rfl := Option.some.inj (hc.symm.trans hc')
      cases hleaf.symm.trans hleaf'
  | node hc hleaf _ _ ihparts ihrest =>
    cases h' with
    | missing hc' => cases hc.symm.trans hc'
    | leaf hc' hleaf' =>
      obtain rfl := Option.some.inj (hc.symm.trans hc')
      cases hleaf.symm.trans hleaf'
    | node _ _ hparts hrest => rw [ihparts hparts, ihrest hrest]

/-- The plain recursion for words: those of the labels of leaves, and otherwise those of the
parts. -/
def Pronounces (s : Store) : List ConstituentId → List String → Prop :=
  s.Unfolds tokens fun below => below

/-- Where no node is passed over, the plain recursion ends with the words that are read. -/
theorem Reads.exists_pronounces (h : s.Reads ids p r visits)
    (hnew : ∀ v ∈ visits, v.node ∉ v.before) :
    ∃ words, s.Pronounces ids words ∧ r.words = p.words ++ words := by
  induction h with
  | nil => exact ⟨[], .nil, (List.append_nil _).symm⟩
  | missing hc _ ih =>
    obtain ⟨words, hrest, hwords⟩ := ih (List.forall_mem_cons.mp hnew).2
    exact ⟨words, .missing hc hrest, hwords⟩
  | circle _ hid => exact absurd hid (List.forall_mem_cons.mp hnew).1
  | @node id ids p q r below visits c hc _ hparts _ ihparts ihrest =>
    obtain ⟨hbelow, hrest⟩ := List.forall_mem_append.mp (List.forall_mem_cons.mp hnew).2
    obtain ⟨partWords, hpartWords, hq⟩ := ihparts hbelow
    obtain ⟨words, hwords, hr⟩ := ihrest hrest
    cases hleaf : c.isLeaf with
    | true =>
      -- a leaf has no parts, so nothing is read below it
      rw [pronouncedParts_of_isLeaf hc hleaf] at hpartWords
      cases hpartWords
      refine ⟨_, .leaf hc hleaf hwords, ?_⟩
      rw [hr, Progress.leave, hq, Progress.enter, if_pos hleaf, List.append_nil, List.append_assoc]
    | false =>
      refine ⟨_, .node hc hleaf hpartWords hwords, ?_⟩
      rw [hr, Progress.leave, hq, Progress.enter, if_neg (by simp [hleaf]), List.append_nil,
        List.append_assoc]

/-! ### Whole trees -/

/-- **Reading ends in every store, with the words of the tree**, whatever its links are, and there
is one way to read. After every turn one is below the same nodes as before. Without circles no node
is passed over, and the words are those of the plain recursion. -/
theorem reads_linearize (s : Store) (root : ConstituentId) :
    ∃ visits, s.Reads [root] {} { words := s.linearize root } visits ∧
      (∀ r visits', s.Reads [root] {} r visits' →
        r = { words := s.linearize root } ∧ visits' = visits) ∧
      (∀ v ∈ visits, v.after = v.before) ∧
      (s.IsAcyclic → (∀ v ∈ visits, v.node ∉ v.before) ∧
        ∀ words, s.Pronounces [root] words ↔ words = s.linearize root) := by
  have hempty : ∀ above, above ∈ ({} : Progress).visiting ↔ above ∈ ([] : List ConstituentId) := by
    simp
  obtain ⟨visits, hreads⟩ := s.exists_reads hempty [root]
  have hread : ({} : Progress).read ([root].flatMap (s.linearizeBelow [])) =
      { words := s.linearize root } := by
    rw [List.flatMap_singleton]
    rfl
  rw [hread] at hreads
  refine ⟨visits, hreads, fun r visits' h => hreads.unique h, hreads.after_eq_before, fun hs => ?_⟩
  have hnew := hreads.notMem_before hs (by simp)
  obtain ⟨words, hwords, heq⟩ := hreads.exists_pronounces hnew
  obtain rfl : s.linearize root = words := heq
  exact ⟨hnew, fun words' => ⟨Unfolds.unique hwords, fun h => h ▸ hwords⟩⟩

/-- A leaf hangs twice below one node, beside a part that there is not, and is read twice. -/
theorem reads_linearize_shared :
    let s := ((({ nextConstituent := 1 } : Store).addNode { label := "a" }).1.addNode
      { parts := [⟨1⟩, ⟨0⟩, ⟨1⟩] }).1
    s.IsAcyclic ∧ s.linearize ⟨2⟩ = ["a", "a"] ∧
      ∃ visits, s.Reads [⟨2⟩] {} { words := ["a", "a"] } visits ∧
        ∀ v ∈ visits, v.node ∉ v.before := by
  intro s
  have hleaf : s.constituent? ⟨1⟩ = some { label := "a" } := rfl
  have htop : s.constituent? ⟨2⟩ = some { parts := [⟨1⟩, ⟨0⟩, ⟨1⟩] } := rfl
  have holder : s.HasOlderParts := by
    rintro part id ⟨c, hc, hpart⟩
    rw [constituent?_addNode, constituent?_addNode] at hc
    split at hc
    · next hid =>
      obtain rfl := Option.some.inj hc
      rw [hid]
      exact (by decide : ∀ part ∈ [⟨1⟩, ⟨0⟩, (⟨1⟩ : ConstituentId)], part.index < 2) part hpart
    · split at hc
      · obtain rfl := Option.some.inj hc
        exact absurd hpart List.not_mem_nil
      · simp [constituent?] at hc
  obtain ⟨visits, hreads, -, -, hacyclic⟩ := reads_linearize s ⟨2⟩
  obtain ⟨hnew, hwords⟩ := hacyclic holder.isAcyclic
  have hplain : s.Unfolds tokens (fun below => below) [⟨2⟩] ["a", "a"] :=
    .node htop rfl (.leaf hleaf rfl (.missing rfl (.leaf hleaf rfl .nil))) .nil
  have hlinearize := ((hwords _).mp hplain).symm
  exact ⟨holder.isAcyclic, hlinearize, visits, hlinearize ▸ hreads, hnew⟩

end Store
end MinimalistGrammar
