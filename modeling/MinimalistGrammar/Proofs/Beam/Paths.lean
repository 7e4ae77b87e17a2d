import MinimalistGrammar.Proofs.Beam.Ways

/-!
# The paths of a parse

What a parse has predicted is the upper part of a derivation: the paths of its records are those of
a binary tree, in which a node has two parts, or one part on the left, or is a leaf so far. At every
path one prediction is recorded. At a leaf either a word is recorded as well, or the prediction is
open still.

This holds of the prediction of the start category, and an expansion keeps it: either a word is read
at an open leaf, or the leaf gets parts, which are new leaves.

## Main definitions

* `Address.IsTree`, `Address.IsLeafOf` — the paths of a binary tree, and those among them that end
  it.
* `IsFrontier` — the leaves of the recorded paths are those that are read and those that are open.
* `Parse.HasFrontier` — the same of a parse, with the tree that is built of its records.

## Main results

* `IsFrontier.read`, `IsFrontier.predict` — what an expansion does to the leaves.
* `BeamParser.hasFrontier_of_mem_held` — the paths of all parses of a run.
-/

namespace MinimalistGrammar

/-! ### Binary trees -/

namespace Address

variable {paths parts : List Address} {a p : Address} {side : Branch}

/-- Some paths are those of a binary tree: above every path there is another one, up to the root,
and beside every path on the right there is one on the left. -/
structure IsTree (paths : List Address) : Prop where
  root : .root ∈ paths
  above {a : Address} {side : Branch} : a.child side ∈ paths → a ∈ paths
  left {a : Address} : a.right ∈ paths → a.left ∈ paths

/-- Nothing is below one of some paths. -/
def IsLeafOf (a : Address) (paths : List Address) : Prop := a ∈ paths ∧ ∀ side, a.child side ∉ paths

/-- A leaf gets parts, one of them on the left. -/
structure Divides (p : Address) (parts : List Address) : Prop where
  below {a : Address} : a ∈ parts → ∃ side, a = p.child side
  left : p.left ∈ parts
  nodup : parts.Nodup

section divides

variable (h : IsTree paths) (hp : p.IsLeafOf paths) (hparts : p.Divides parts)

include hp hparts

theorem Divides.notMem (ha : a ∈ parts) : a ∉ paths := by
  obtain ⟨side, rfl⟩ := hparts.below ha
  exact hp.2 side

include h

/-- With the parts of a leaf it is a binary tree as before. -/
theorem IsTree.append : IsTree (paths ++ parts) where
  root := List.mem_append_left _ h.root
  above {a side} ha := by
    rcases List.mem_append.mp ha with ha | ha
    · exact List.mem_append_left _ (h.above ha)
    · obtain ⟨side', heq⟩ := hparts.below ha
      rw [(child_inj.mp heq).1]
      exact List.mem_append_left _ hp.1
  left {a} ha := by
    rcases List.mem_append.mp ha with ha | ha
    · exact List.mem_append_left _ (h.left ha)
    · obtain ⟨side, heq⟩ := hparts.below ha
      rw [(child_inj.mp heq).1]
      exact List.mem_append_right _ hparts.left

/-- The parts are leaves instead of the leaf that has got them. -/
theorem IsTree.isLeafOf_append_iff :
    a.IsLeafOf (paths ++ parts) ↔ a ∈ parts ∨ a.IsLeafOf paths ∧ a ≠ p := by
  constructor
  · rintro ⟨ha, hbelow⟩
    rcases List.mem_append.mp ha with ha | ha
    · refine Or.inr ⟨⟨ha, fun side hside => hbelow side (List.mem_append_left _ hside)⟩, ?_⟩
      rintro rfl
      exact hbelow .left (List.mem_append_right _ hparts.left)
    · exact Or.inl ha
  · rintro (ha | ⟨⟨ha, hbelow⟩, hne⟩)
    · obtain ⟨side, rfl⟩ := hparts.below ha
      refine ⟨List.mem_append_right _ ha, fun side' hside => ?_⟩
      rcases List.mem_append.mp hside with hside | hside
      · exact hp.2 side (h.above hside)
      · obtain ⟨side'', heq⟩ := hparts.below hside
        exact ne_child p side (child_inj.mp heq).1.symm
    · refine ⟨List.mem_append_left _ ha, fun side hside => ?_⟩
      rcases List.mem_append.mp hside with hside | hside
      · exact hbelow side hside
      · obtain ⟨side', heq⟩ := hparts.below hside
        exact hne (child_inj.mp heq).1

end divides

end Address

/-! ### Records -/

/-- The paths of the predictions that are recorded. -/
def predictedPaths (records : List NodeRecord) : List Address :=
  (records.filter (·.label.isNone)).map (·.path)

/-- The paths of the words that are recorded. -/
def readPaths (records : List NodeRecord) : List Address :=
  (records.filter (·.label.isSome)).map (·.path)

/-- The recorded paths are those of a binary tree. At each of them one prediction is recorded, and
the leaves are the paths where a word is recorded as well and those that are open. -/
structure IsFrontier (records : List NodeRecord) (opened : List Address) : Prop where
  isTree : Address.IsTree (predictedPaths records)
  /-- At every path one prediction is recorded, and at most one word. -/
  nodup_predicted : (predictedPaths records).Nodup
  mem_predicted {r : NodeRecord} : r ∈ records → r.path ∈ predictedPaths records
  nodup_read : (readPaths records).Nodup
  /-- Words are recorded at leaves. -/
  isLeaf {a : Address} : a ∈ readPaths records → a.IsLeafOf (predictedPaths records)
  /-- The other leaves are open, each of them once. -/
  nodup_opened : opened.Nodup
  mem_opened_iff {a : Address} :
    a ∈ opened ↔ a.IsLeafOf (predictedPaths records) ∧ a ∉ readPaths records

namespace IsFrontier

variable {records new : List NodeRecord} {opened rest parts : List Address} {p a : Address}

theorem of_perm {opened' : List Address} (h : IsFrontier records opened)
    (hperm : opened.Perm opened') : IsFrontier records opened' :=
  { h with
    nodup_opened := hperm.nodup_iff.mp h.nodup_opened
    mem_opened_iff := hperm.mem_iff.symm.trans h.mem_opened_iff }

theorem predictedPaths_append :
    predictedPaths (records ++ new) = predictedPaths records ++ predictedPaths new := by
  rw [predictedPaths, List.filter_append, List.map_append, predictedPaths, predictedPaths]

theorem readPaths_append : readPaths (records ++ new) = readPaths records ++ readPaths new := by
  rw [readPaths, List.filter_append, List.map_append, readPaths, readPaths]

section step

variable (h : IsFrontier records (p :: rest))

include h

/-- A word is read at an open leaf. -/
theorem read (hpredicted : predictedPaths new = []) (hread : readPaths new = [p])
    (hnew : ∀ r ∈ new, r.path = p) : IsFrontier (records ++ new) rest := by
  obtain ⟨hrest, hnodup⟩ := List.nodup_cons.mp h.nodup_opened
  obtain ⟨hleaf, hunread⟩ := h.mem_opened_iff.mp (List.mem_cons_self ..)
  have hpaths : predictedPaths (records ++ new) = predictedPaths records := by
    rw [predictedPaths_append, hpredicted, List.append_nil]
  have hwords : readPaths (records ++ new) = readPaths records ++ [p] := by
    rw [readPaths_append, hread]
  -- the predicted paths stay, and one open leaf becomes a leaf that is read
  refine ⟨hpaths ▸ h.isTree, hpaths ▸ h.nodup_predicted, ?predicted, ?nodupRead, ?isLeaf, hnodup,
    ?opened⟩
  case predicted =>
    intro r hr
    rw [hpaths]
    rcases List.mem_append.mp hr with hr | hr
    · exact h.mem_predicted hr
    · rw [hnew r hr]
      exact hleaf.1
  case nodupRead =>
    rw [hwords]
    exact List.nodup_append.mpr ⟨h.nodup_read, List.pairwise_singleton .., fun a ha b hb heq =>
      hunread (List.mem_singleton.mp hb ▸ heq ▸ ha)⟩
  case isLeaf =>
    intro a ha
    rw [hwords] at ha
    rw [hpaths]
    rcases List.mem_append.mp ha with ha | ha
    · exact h.isLeaf ha
    · rw [List.mem_singleton.mp ha]
      exact hleaf
  case opened =>
    intro a
    rw [hpaths, hwords, List.mem_append, List.mem_singleton, not_or, ← and_assoc,
      ← h.mem_opened_iff, List.mem_cons]
    constructor
    · exact fun ha => ⟨Or.inr ha, fun heq => hrest (heq ▸ ha)⟩
    · exact fun ⟨ha, hne⟩ => ha.resolve_left hne

/-- An open leaf gets parts, which are open. -/
theorem predict (hpredicted : predictedPaths new = parts) (hread : readPaths new = [])
    (hnew : ∀ r ∈ new, r.path ∈ parts) (hparts : p.Divides parts) :
    IsFrontier (records ++ new) (parts ++ rest) := by
  obtain ⟨hrest, hnodup⟩ := List.nodup_cons.mp h.nodup_opened
  obtain ⟨hleaf, hunread⟩ := h.mem_opened_iff.mp (List.mem_cons_self ..)
  have hpaths : predictedPaths (records ++ new) = predictedPaths records ++ parts := by
    rw [predictedPaths_append, hpredicted]
  have hwords : readPaths (records ++ new) = readPaths records := by
    rw [readPaths_append, hread, List.append_nil]
  have hother (a : Address) (ha : a ∈ rest) :
      a.IsLeafOf (predictedPaths records) ∧ a ∉ readPaths records :=
    h.mem_opened_iff.mp (List.mem_cons_of_mem _ ha)
  refine ⟨hpaths ▸ h.isTree.append hleaf hparts, ?nodupPredicted, ?predicted, hwords ▸ h.nodup_read,
    ?isLeaf, ?nodupOpened, ?opened⟩
  case nodupPredicted =>
    rw [hpaths]
    exact List.nodup_append.mpr ⟨h.nodup_predicted, hparts.nodup, fun a ha b hb heq =>
      hparts.notMem hleaf hb (heq ▸ ha)⟩
  case predicted =>
    intro r hr
    rw [hpaths]
    rcases List.mem_append.mp hr with hr | hr
    · exact List.mem_append_left _ (h.mem_predicted hr)
    · exact List.mem_append_right _ (hnew r hr)
  case isLeaf =>
    -- the leaf that has got parts was open, so no word was recorded there
    intro a ha
    rw [hwords] at ha
    rw [hpaths, h.isTree.isLeafOf_append_iff hleaf hparts]
    exact Or.inr ⟨h.isLeaf ha, fun heq => hunread (heq ▸ ha)⟩
  case nodupOpened =>
    exact List.nodup_append.mpr ⟨hparts.nodup, hnodup, fun a ha b hb heq =>
      hparts.notMem hleaf ha (heq ▸ (hother b hb).1.1)⟩
  case opened =>
    intro a
    rw [hpaths, hwords, h.isTree.isLeafOf_append_iff hleaf hparts, List.mem_append]
    constructor
    · rintro (ha | ha)
      · exact ⟨Or.inl ha, fun hread => hparts.notMem hleaf ha (h.isLeaf hread).1⟩
      · obtain ⟨hleaf', hunread'⟩ := hother a ha
        exact ⟨Or.inr ⟨hleaf', fun heq => hrest (heq ▸ ha)⟩, hunread'⟩
    · rintro ⟨ha | ⟨hleaf', hne⟩, hunread'⟩
      · exact Or.inl ha
      · exact Or.inr ((List.mem_cons.mp (h.mem_opened_iff.mpr ⟨hleaf', hunread'⟩)).resolve_left hne)

end step

end IsFrontier

/-! ### Expansions -/

namespace Category

variable {lex : Lexicon} {c : Category} {input : List String} {e : Expansion}

/-- Every rule puts its parts right below the prediction. -/
theorem ByRule.unfolds (h : c.ByRule lex input e) : c.Unfolds e := by
  cases h with
  | merge1 | merge1b | merge2 | merge3 | merge4 => exact .merge _ rfl rfl
  | move1 | move2 => exact .move _ rfl
  | scan => exact .scan ..

/-- A word is recorded at the prediction, or the prediction gets parts, which are recorded. -/
theorem Unfolds.paths_cases (lex : Lexicon) (h : c.Unfolds e) :
    (e.parts = [] ∧ predictedPaths (e.records lex) = [] ∧ readPaths (e.records lex) = [c.path] ∧
        ∀ r ∈ e.records lex, r.path = c.path) ∨
      (predictedPaths (e.records lex) = e.parts.map (·.path) ∧ readPaths (e.records lex) = [] ∧
        (∀ r ∈ e.records lex, r.path ∈ e.parts.map (·.path)) ∧
          c.path.Divides (e.parts.map (·.path))) := by
  have hne : c.path.left ≠ c.path.right :=
    fun heq => absurd (Address.child_inj.mp heq).2 (by decide)
  cases h with
  | scan => exact Or.inl ⟨rfl, rfl, rfl, fun r hr => List.mem_singleton.mp hr ▸ rfl⟩
  | @move rule part hpart =>
    refine Or.inr ⟨rfl, rfl, fun r hr => List.mem_singleton.mpr (List.mem_singleton.mp hr ▸ rfl),
      ?_⟩
    rw [show (Expansion.parts (.predict rule [part])).map (·.path) = [c.path.left] from
      congrArg (· :: []) hpart]
    exact ⟨fun ha => ⟨.left, List.mem_singleton.mp ha⟩, List.mem_singleton_self _,
      List.pairwise_singleton ..⟩
  | @merge rule head other hhead hother =>
    have hpaths : (Expansion.parts (.predict rule [head, other])).map (·.path) =
        [c.path.left, c.path.right] := by
      rw [← hhead, ← hother]
      rfl
    refine Or.inr ⟨rfl, rfl, fun r hr => ?_, ?_⟩
    · obtain ⟨part, hpart, rfl⟩ := List.mem_map.mp hr
      exact List.mem_map_of_mem hpart
    · rw [hpaths]
      refine ⟨fun ha => ?_, List.mem_cons_self .., List.pairwise_pair.mpr hne⟩
      rcases List.mem_pair.mp ha with rfl | rfl
      · exact ⟨.left, rfl⟩
      · exact ⟨.right, rfl⟩

end Category

/-! ### Parses -/

namespace Parse

variable {π : Type} [Probability π] {lex : Lexicon} {words : List String} {first c : Category}
  {es : List Expansion} {e : Expansion} {q : Parse π}

/-- The start category is open at the root. -/
theorem isFrontier_initial (hfirst : first.path = .root) :
    IsFrontier [.predicted first] [first.path] := by
  have hpaths : predictedPaths [.predicted first] = [.root] := congrArg (· :: []) hfirst
  have hbelow (a : Address) (side : Branch) : a.child side ≠ .root := fun heq => by
    have hlength := congrArg Address.length heq
    rw [Address.length_child] at hlength
    exact absurd hlength (Nat.succ_ne_zero _)
  refine ⟨⟨?_, fun ha => ?_, fun ha => ?_⟩, ?_, fun {r} hr => ?_, .nil,
    fun ha => absurd ha List.not_mem_nil, List.pairwise_singleton .., fun {a} => ?_⟩
  · exact hpaths ▸ List.mem_singleton_self _
  · exact absurd (List.mem_singleton.mp (hpaths ▸ ha)) (hbelow _ _)
  · exact absurd (List.mem_singleton.mp (hpaths ▸ ha)) (hbelow _ _)
  · exact hpaths ▸ List.pairwise_singleton ..
  · rw [List.mem_singleton.mp hr]
    exact List.mem_singleton_self _
  · rw [Address.IsLeafOf, hpaths, hfirst, List.mem_singleton]
    refine ⟨fun ha => ⟨⟨ha, fun side hside => ?_⟩, List.not_mem_nil⟩, fun ha => ha.1.1⟩
    exact hbelow a side (List.mem_singleton.mp hside)

/-- The leaves of whatever comes from the prediction of a start category are read or open. -/
theorem ComesAbout.isFrontier (hlex : lex.WellFormed) (hfirst : first.path = .root)
    (h : (initial words first).ComesAbout lex es q) :
    IsFrontier q.records (q.queue.toList.map (·.path)) := by
  induction h with
  | start => exact isFrontier_initial hfirst
  | log _ state ih => exact ih
  | @expand es q c queue e _ hpop he share message ih =>
    rw [StableQueue.toList_eq_of_pop? hpop, List.map_cons] at ih
    have hopened := (toList_foldl_enqueue_perm e.parts queue).symm.map (·.path)
    rw [List.map_append] at hopened
    rw [records_extend, queue_extend]
    refine IsFrontier.of_perm ?_ hopened
    rcases (Category.byRule_of_mem hlex he).unfolds.paths_cases lex with
      ⟨hparts, hpredicted, hread, hnew⟩ | ⟨hpredicted, hread, hnew, hdivides⟩
    · rw [hparts]
      exact ih.read hpredicted hread hnew
    · exact ih.predict hpredicted hread hnew hdivides

/-- What the records and the open predictions of a parse say of its derivation, and the tree that is
built of the records. -/
structure HasFrontier (q : Parse π) : Prop where
  isFrontier : IsFrontier q.records (q.queue.toList.map (·.path))
  /-- A parse is complete when all leaves and all words are read. -/
  isComplete_iff : q.isComplete = true ↔
    (∀ a : Address, a.IsLeafOf (predictedPaths q.records) → a ∈ readPaths q.records) ∧ q.input = []
  /-- The tree that is built has one node for each path, in the order of the paths. -/
  build (s : Store) : ∃ s' surface, SurfaceTree.build s q.records = some (s', surface) ∧
    (surface.nodes.map (·.1)).Pairwise (fun a b => compare a b = .lt) ∧
      ∀ a, a ∈ surface.nodes.map (·.1) ↔ ∃ r ∈ q.records, r.path = a

end Parse

namespace IsFrontier

variable {records : List NodeRecord} {opened : List Address} {a : Address}

theorem mem_predictedPaths_iff (h : IsFrontier records opened) :
    a ∈ predictedPaths records ↔ ∃ r ∈ records, r.path = a := by
  constructor
  · intro ha
    obtain ⟨r, hr, rfl⟩ := List.mem_map.mp ha
    exact ⟨r, (List.mem_filter.mp hr).1, rfl⟩
  · rintro ⟨r, hr, rfl⟩
    exact h.mem_predicted hr

theorem exists_placed_iff (h : IsFrontier records opened) {way : List Branch} :
    (∃ r, (way, r) ∈ placed records) ↔ ⟨way⟩ ∈ predictedPaths records := by
  rw [h.mem_predictedPaths_iff]
  constructor
  · rintro ⟨r, hr⟩
    obtain ⟨hmem, rfl⟩ := mem_placed.mp hr
    exact ⟨r, hmem, rfl⟩
  · rintro ⟨r, hr, hpath⟩
    exact ⟨r, mem_placed.mpr ⟨hr, congrArg Address.branches hpath⟩⟩

theorem rooted (h : IsFrontier records opened) : Rooted (placed records) := by
  intro way side r hr
  have hchild : (⟨way⟩ : Address).child side ∈ predictedPaths records :=
    h.exists_placed_iff.mp ⟨r, hr⟩
  exact h.exists_placed_iff.mpr (h.isTree.above hchild)

/-- The records can be put together. -/
theorem exists_ofRecords (h : IsFrontier records opened) :
    ∃ tree, RecordTree.ofRecords records = some tree := by
  obtain ⟨r, hr⟩ := h.exists_placed_iff.mpr h.isTree.root
  exact Option.ne_none_iff_exists'.mp (RecordTree.ofPlaced_ne_none hr)

/-- The parts of the tree of some records are at their paths. -/
theorem mem_ways_iff (h : IsFrontier records opened) {tree : RecordTree}
    (htree : RecordTree.ofRecords records = some tree) {way : List Branch} :
    way ∈ tree.ways ↔ ⟨way⟩ ∈ predictedPaths records := by
  rw [RecordTree.mem_ways_iff, RecordTree.at?_ofPlaced_ne_none_iff h.rooted htree]
  exact h.exists_placed_iff

/-- When some records are built, one node is noted for each path. -/
theorem build (h : IsFrontier records opened) (s : Store) :
    ∃ s' surface, SurfaceTree.build s records = some (s', surface) ∧
      (surface.nodes.map (·.1)).Pairwise (fun a b => compare a b = .lt) ∧
        ∀ a, a ∈ surface.nodes.map (·.1) ↔ ∃ r ∈ records, r.path = a := by
  obtain ⟨tree, htree⟩ := h.exists_ofRecords
  refine ⟨_, _, by rw [SurfaceTree.build, htree]; rfl, ?_, fun a => ?_⟩
  · rw [Store.map_fst_nodes_build]
    exact List.pairwise_map.mpr tree.pairwise_ways
  · rw [Store.map_fst_nodes_build, ← h.mem_predictedPaths_iff]
    constructor
    · intro ha
      obtain ⟨way, hway, rfl⟩ := List.mem_map.mp ha
      exact (h.mem_ways_iff htree).mp hway
    · exact fun ha => List.mem_map.mpr ⟨a.branches, (h.mem_ways_iff htree).mpr ha, rfl⟩

/-- When no leaf is open, all leaves are read. -/
theorem eq_nil_iff (h : IsFrontier records opened) :
    opened = [] ↔ ∀ a : Address, a.IsLeafOf (predictedPaths records) → a ∈ readPaths records := by
  simp only [List.eq_nil_iff_forall_not_mem, h.mem_opened_iff, not_and_not_right]

end IsFrontier

namespace Parse

variable {π : Type} {q : Parse π}

theorem isComplete_iff (q : Parse π) :
    q.isComplete = true ↔ q.queue.toList = [] ∧ q.input = [] := by
  rw [isComplete, Bool.and_eq_true, StableQueue.isEmpty, List.isEmpty_iff, List.isEmpty_iff,
    StableQueue.toList, List.map_eq_nil_iff]

theorem hasFrontier (h : IsFrontier q.records (q.queue.toList.map (·.path))) : q.HasFrontier where
  isFrontier := h
  isComplete_iff := by rw [isComplete_iff, ← h.eq_nil_iff, List.map_eq_nil_iff]
  build := h.build

end Parse

namespace BeamParser

variable {π : Type} [Probability π]

/-- Of every parse that is on the beam or among the results after some steps the recorded paths are
those of a binary tree, whose leaves are read or open, and building the records makes one node for
each path. -/
theorem hasFrontier_of_mem_held (entries : List (String × List Feature)) (p : BeamParser π)
    (hp : p.lexicon = .ofEntries entries) (words : List String) (start : String)
    (ts : Nat → DerivationTree) (n : Nat) {q : Parse π}
    (hq : q ∈ ((p.start words start).1.after ts n).held) : q.HasFrontier := by
  have hlex : p.lexicon.WellFormed := hp ▸ Lexicon.wellFormed_ofEntries entries
  obtain ⟨root, es, -, hes⟩ := exists_comesAbout_of_mem_held p words start ts n hq
  exact Parse.hasFrontier (hes.isFrontier hlex rfl)

/-- After four steps of the parser on a question a parse is held. -/
theorem hasFrontier_question :
    ∃ q ∈ ((({ lexicon := .ofEntries questionEntries, settings := { minProbability := 0 } } :
      BeamParser Rat).start ["what", "saw"] "C").1.after (fun _ => {}) 4).held, q.HasFrontier := by
  obtain ⟨q, hq⟩ := List.exists_mem_of_length_pos
    (show 0 < ((({ lexicon := .ofEntries questionEntries, settings := { minProbability := 0 } } :
      BeamParser Rat).start ["what", "saw"] "C").1.after (fun _ => {}) 4).held.length
      by decide +kernel)
  exact ⟨q, hq,
    hasFrontier_of_mem_held questionEntries _ rfl ["what", "saw"] "C" (fun _ => {}) 4 hq⟩

end BeamParser
end MinimalistGrammar
