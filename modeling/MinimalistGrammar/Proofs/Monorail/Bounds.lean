import Mathlib.Data.List.Perm.Subperm
import MinimalistGrammar.Proofs.Monorail.Discipline

/-!
# How often a sentence merges

Words are read as long as there are some, and nodes are raised as long as one can be. Each node that
is raised uses up a selector, a licensee or an adjunct on the leaf of a word, and no merge adds a
feature. So there are at most as many raised nodes as there are such features, even together with
the words that check something when they are merged. The way to the next node that may be raised
leads to older nodes only.

Each merge is one state, the child of the one before.

## Main definitions

* `Store.WalksDown` — the way down the left edge to the node that is picked.
* `Store.probesSince` — how many features have been added that find a category.
* `internalMerges`, `externalChecks` — the nodes that are raised, and the words that check
  something.
* `DerivationTree.Chains` — some states are one chain below each other.
* `ShowsStep` — what a state shows behind other states of its sentence.

## Main results

* `Store.Confines.walksDown_nextEdge` — the next node is found by going to older ones.
* `DerivationTree.Chains.addStep` — one state more.
* `MonorailParser.exists_bounds_parse` — **how many states a sentence has.**
-/

namespace MinimalistGrammar

namespace Store

variable {start s s' : Store} {used : IdentSet .feature} {made : List (FeatureId × FeatureId)}
  {edges : IdentSet .constituent} {onEdge : ConstituentId → Prop} {id : ConstituentId}

/-! ### Down the left edge -/

/-- The way down the left edge of a tree, from a node to its left part as long as that has been on
the edge. It ends beside the first left part that has not, or at a node without two parts. Every
step leads to an older node. -/
inductive WalksDown (s : Store) (onEdge : ConstituentId → Prop) :
    ConstituentId → Option ConstituentId → Prop
  | stop {id left right : ConstituentId} (hparts : s.parts? id = some [left, right])
      (hnew : ¬onEdge left) (hlt : right.index < id.index) : WalksDown s onEdge id (some right)
  | down {id left right : ConstituentId} {picked : Option ConstituentId}
      (hparts : s.parts? id = some [left, right]) (hold : onEdge left) (hlt : left.index < id.index)
      (hdown : WalksDown s onEdge left picked) : WalksDown s onEdge id picked
  | bottom {id : ConstituentId} (hparts : ∀ left right, s.parts? id ≠ some [left, right]) :
      WalksDown s onEdge id none

/-- The next node is found by going to older ones. -/
theorem Confines.walksDown_nextEdge (h : start.Confines s')
    (hparts : ∀ id, s'.parts? id = s.parts? id) (hedges : ∀ x, edges.contains x = true ↔ onEdge x)
    (hid : start.Added s' (.constituent id)) : s'.WalksDown onEdge id (s.nextEdge edges id).1 := by
  have hpart {id left right : ConstituentId}
      (hpart : (s.constituent? id).map (·.parts) = some [left, right]) :
          s'.parts? id = some [left, right] := by
    rw [hparts, parts?_eq, hpart]
  fun_induction s.nextEdge edges id with
  | case1 id left right heq hedge hlt ih =>
    have hleft := (h.parts hid (hpart heq) (List.mem_cons_self ..)).1
    exact .down (hpart heq) ((hedges left).mp hedge) hlt (ih hleft)
  | case2 id left right heq hedge hlt =>
    exact absurd (h.parts hid (hpart heq) (List.mem_cons_self ..)).2 hlt
  | case3 id left right heq hedge =>
    have hright := h.parts hid (hpart heq) (List.mem_cons_of_mem _ (List.mem_singleton_self right))
    exact .stop (hpart heq) ((hedges left).not.mp hedge) hright.2
  | case4 id hne =>
    refine .bottom fun left right heq => hne left right ?_
    rw [← parts?_eq, ← hparts, heq]

/-- The node that is picked has been on the edge then. -/
theorem contains_nextEdge (s : Store) (edges : IdentSet .constituent) (id x : ConstituentId) :
    (s.nextEdge edges id).2.contains x = true ↔
      edges.contains x = true ∨ x ∈ (s.nextEdge edges id).1.toList := by
  fun_induction s.nextEdge edges id with
  | case1 id left right heq hedge hlt ih => exact ih
  | case2 id left right heq hedge hlt => simp
  | case3 id left right heq hedge =>
    rw [Std.TreeSet.contains_insert, Bool.or_eq_true, beq_iff_eq, Std.LawfulEqCmp.compare_eq_iff_eq,
      or_comm, Option.toList_some, List.mem_singleton, @eq_comm _ right]
  | case4 id _ => simp

theorem parts?_addLeaf (s : Store) (label : String) (features : List Feature) :
    (s.addLeaf label features).1.parts? (s.addLeaf label features).2 = some [] := by
  have hid : (s.addLeaf label features).2 = ⟨s.nextConstituent⟩ := rfl
  rw [parts?, body?, outline?_addLeaf, if_pos hid]
  rfl

theorem features_land (s : Store) (node top : ConstituentId) :
    (s.land node top).features = s.features := rfl

/-! ### Features that find a category -/

/-- How many features have been added since the store `start` that find a category. -/
def probesSince (s start : Store) : Nat :=
  (s.featuresSince start).countP fun fid => (s.value? fid).any (·.sign.findsCategory)

theorem probesSince_self (s : Store) : s.probesSince s = 0 := by
  rw [probesSince, featuresSince, Nat.sub_self]
  rfl

theorem probesSince_congr (hnext : s'.nextFeature = s.nextFeature)
    (hvalue : ∀ fid, s'.value? fid = s.value? fid) :
    s'.probesSince start = s.probesSince start := by
  rw [probesSince, featuresSince, hnext, probesSince, featuresSince]
  simp only [hvalue]

theorem Coincides.probesSince_eq (h : s.Coincides s') :
    s'.probesSince start = s.probesSince start :=
  probesSince_congr h.features fun fid => congrArg (Option.map _) (h.feature? fid)

/-- The features of a leaf are added to the others. -/
theorem featuresSince_addLeaf_perm (hle : start.nextFeature ≤ s.nextFeature) (label : String)
    (features : List Feature) : ((s.addLeaf label features).1.featuresSince start).Perm
      (s.featuresSince start ++ (s.addLeaf label features).1.featuresAt
        (s.addLeaf label features).2) := by
  have hids : (s.addLeaf label features).1.featuresAt (s.addLeaf label features).2 =
      ((s.addNode { label }).1.addFeatures ⟨s.nextConstituent⟩ features).2 := by
    have hid : (s.addLeaf label features).2 = ⟨s.nextConstituent⟩ := rfl
    rw [featuresAt, outline?_addLeaf, if_pos hid, Option.elim_some]
  have hnew {fid : FeatureId} :
      fid ∈ (s.addLeaf label features).1.featuresAt (s.addLeaf label features).2 ↔
      s.Added (s.addLeaf label features).1 (.feature fid) := by
    rw [hids, mem_addFeatures_iff]
    exact and_congr_left' Nat.not_lt.symm
  have hgrows := s.retains_addLeaf label features
  -- both lists are without doubles, so it is enough that they have the same members
  refine (List.perm_ext_iff_of_nodup ((s.addLeaf label features).1.nodup_featuresSince start)
    ?_).mpr fun fid => ?_
  · refine List.nodup_append.mpr ⟨s.nodup_featuresSince start, ?_, ?_⟩
    · rw [hids]
      exact ((s.addNode { label }).1.addFeatures_occurrences ⟨s.nextConstituent⟩ features).2.1
    · rintro fid hold fid' hfid' rfl
      exact (hnew.mp hfid').1 (mem_featuresSince_iff.mp hold).2
  · rw [List.mem_append, hnew, mem_featuresSince_iff, mem_featuresSince_iff]
    constructor
    · intro hadded
      by_cases hold : s.Issued (.feature fid)
      · exact Or.inl ⟨hadded.1, hold⟩
      · exact Or.inr ⟨hold, hadded.2⟩
    · rintro (hold | hfid)
      · exact hold.mono hgrows.nextConstituent hgrows.nextFeature
      · exact ⟨fun hstart => hfid.1 (Nat.lt_of_lt_of_le hstart hle), hfid.2⟩

theorem probesSince_addLeaf (hle : start.nextFeature ≤ s.nextFeature) (label : String)
    (features : List Feature) : (s.addLeaf label features).1.probesSince start =
      s.probesSince start + features.countP (·.sign.findsCategory) := by
  have hcount : ((s.addLeaf label features).1.featuresAt (s.addLeaf label features).2).countP
      (fun fid => ((s.addLeaf label features).1.value? fid).any (·.sign.findsCategory)) =
        features.countP (·.sign.findsCategory) := by
    have hvalues := congrArg (List.countP (Option.any (·.sign.findsCategory)))
      (s.hasFeatures_addLeaf label features).values
    rwa [List.countP_map, List.countP_map] at hvalues
  rw [probesSince, (featuresSince_addLeaf_perm hle label features).countP_eq,
    List.countP_append, hcount, probesSince]
  congr 1
  refine List.countP_congr fun fid hfid => ?_
  rw [(s.retains_addLeaf label features).value? (mem_featuresSince_iff.mp hfid).2]

/-- A silent leaf has a category only. -/
theorem probesSince_addBottom (hle : start.nextFeature ≤ s.nextFeature) :
    (s.addLeaf epsilon [.categorial bottomCategory]).1.probesSince start = s.probesSince start := by
  have hnone : [Feature.categorial bottomCategory].countP (·.sign.findsCategory) = 0 := rfl
  rw [probesSince_addLeaf hle, hnone, Nat.add_zero]

/-- There are no more checks than features that find a category. -/
theorem Tracks.length_le (h : start.Tracks s used made) : made.length ≤ s.probesSince start := by
  rw [probesSince, List.countP_eq_length_filter, ← List.length_map (f := (·.1))]
  refine (List.subperm_of_subset h.once fun fid hfid => ?_).length_le
  obtain ⟨c, hc, rfl⟩ := List.mem_map.mp hfid
  obtain ⟨hadded, -, f, -, hf, -, -, hsign, -⟩ := h.found hc
  refine List.mem_filter.mpr ⟨mem_featuresSince_iff.mpr hadded, ?_⟩
  rw [hf]
  exact findsCategory_iff.mpr hsign

end Store

/-! ### Merges that check something -/

variable {t t' : DerivationTree} {start : Store} {before es : List Shown} {e : Shown}

/-- How many nodes are raised. -/
def internalMerges (es : List Shown) : Nat := es.countP (·.state.type = .internalMerge)

/-- How many words check something when they are merged. -/
def externalChecks (start : Store) (es : List Shown) : Nat :=
  es.zipIdx.countP fun x =>
    x.1.state.type = .externalMerge ∧ x.1.newChecks start (checksShown start (es.take x.2)) ≠ []

theorem externalChecks_concat (start : Store) (es : List Shown) (e : Shown) :
    externalChecks start (es ++ [e]) = externalChecks start es +
      if e.state.type = .externalMerge ∧ e.newChecks start (checksShown start es) ≠
        [] then 1 else 0 := by
  rw [externalChecks, List.zipIdx_append, List.countP_append, externalChecks]
  congr 1
  · refine List.countP_congr fun x hx => ?_
    have hle : x.2 ≤ es.length := by
      have hlt := List.snd_lt_of_mem_zipIdx hx
      omega
    rw [List.take_append_of_le_length hle]
  · simp

/-- A node that is raised uses up a feature. -/
theorem ShowsChecks.exists_probe (h : ShowsChecks start before e)
    (htype : e.state.type = .internalMerge) :
    ∃ probe goal, e.newChecks start (checksShown start before) = [(probe, goal)] ∧
      probe ∉ (checksShown start before).map (·.1) := by
  obtain ⟨top, left, right, -, hmerged, hraised⟩ := h.merges
  rcases hmerged.checks with ⟨hnil, -⟩ | ⟨probe, goal, hnew, hcheck⟩
  · have hlength := (hraised htype).1
    rw [hnil] at hlength
    exact absurd hlength (by decide)
  · refine ⟨probe, goal, hnew, fun hmem => hcheck.probe_open ?_⟩
    obtain ⟨c, hc, heq⟩ := List.mem_map.mp hmem
    exact ⟨c, hc, Or.inl heq⟩

/-- There are no more merges that check something than checks. -/
theorem internalMerges_add_externalChecks_le
    (h : ∀ before e, before ++ [e] <+: es → ShowsChecks start before e) :
    internalMerges es + externalChecks start es ≤ (checksShown start es).length := by
  induction es using List.reverseRecOn with
  | nil => exact Nat.le_refl 0
  | append_singleton es e ih =>
    obtain ⟨hold, -, -, top, left, right, -, hmerged, hraised⟩ := forall_behind_concat_iff.mp h
    have hle := ih hold
    have hinternal : internalMerges (es ++ [e]) =
        internalMerges es + if e.state.type = .internalMerge then 1 else 0 := by
      rw [internalMerges, List.countP_append, internalMerges]
      simp
    have hnew : (if e.state.type = .internalMerge then 1 else 0) +
        (if e.state.type = .externalMerge ∧ e.newChecks start (checksShown start es) ≠
          [] then 1 else 0) ≤ (e.newChecks start (checksShown start es)).length := by
      by_cases htype : e.state.type = .internalMerge
      · rw [if_pos htype, if_neg (by simp [htype]), (hraised htype).1]
      · rw [if_neg htype]
        split
        · next hchecks => exact List.length_pos_of_ne_nil hchecks.2
        · exact Nat.zero_le _
    rw [hinternal, externalChecks_concat, checksShown_concat, List.length_append]
    omega

namespace DerivationTree

/-! ### Chains of states -/

/-- The tree `t'` is the tree `t` with some states, each of them but the first one the only child of
the one before. -/
structure Chains (t t' : DerivationTree) (es : List Shown) : Prop where
  nextId : t'.nextId = t.nextId + es.length
  state {i : Nat} {e : Shown} : es[i]? = some e →
    e.state.id = ⟨t.nextId + i⟩ ∧ t'.state? ⟨t.nextId + i⟩ = some e.state
  parent {i : Nat} {e : Shown} : es[i]? = some e →
    e.state.parent = if i = 0 then none else some ⟨t.nextId + (i - 1)⟩
  children {i : Nat} : i < es.length → t'.children[(⟨t.nextId + i⟩ : StateId)]? =
    some (if i + 1 < es.length then [⟨t.nextId + (i + 1)⟩] else [])

theorem chains_nil (t : DerivationTree) : t.Chains t [] where
  nextId := rfl
  state h := absurd h (by simp)
  parent h := absurd h (by simp)
  children h := absurd h (Nat.not_lt_zero _)

theorem getElem?_concat_cases {α : Type} {l : List α} {a b : α} {i : Nat}
    (h : (l ++ [a])[i]? = some b) : l[i]? = some b ∨ i = l.length ∧ b = a := by
  rw [List.getElem?_append] at h
  split at h
  · exact Or.inl h
  · obtain ⟨hi, heq⟩ := List.getElem?_eq_some_iff.mp h
    rw [List.length_singleton] at hi
    exact Or.inr ⟨by omega, by rw [← heq, List.getElem_singleton]⟩

theorem Chains.ne_next (h : t.Chains t' es) {i : Nat} (hi : i < es.length) :
    (⟨t.nextId + i⟩ : StateId) ≠ ⟨t'.nextId⟩ := by
  rw [h.nextId, ne_eq, Ident.mk.injEq]
  omega

namespace Chains

variable {s : Store} {step : Step} {parent : Option StateId} (h : t.Chains t' es)
  (hparent : parent = es.getLast?.map (·.state.id))

include h hparent

/-- The parent of the next state is the last one. -/
theorem filter_contains_eq : parent.filter t'.contains =
    if es.length = 0 then none else some ⟨t.nextId + (es.length - 1)⟩ := by
  rw [hparent, List.getLast?_eq_getElem?]
  cases hlast : es[es.length - 1]? with
  | none =>
    have hle := List.getElem?_eq_none_iff.mp hlast
    rw [if_pos (by omega)]
    rfl
  | some e =>
    obtain ⟨hid, hstate⟩ := h.state hlast
    obtain ⟨hlt, -⟩ := List.getElem?_eq_some_iff.mp hlast
    rw [if_neg (by omega), Option.map_some, hid]
    exact Option.filter_some_pos (contains_iff.mpr ⟨_, hstate⟩)

/-- The last state gets the new one as its child, which has none. -/
theorem children_addStep {i : Nat} (hi : i < es.length + 1) :
    ({ t' with store := s }.addStep step parent).1.children[(⟨t.nextId + i⟩ : StateId)]? =
      some (if i + 1 < es.length + 1 then [⟨t.nextId + (i + 1)⟩] else []) := by
  have hfilter := h.filter_contains_eq hparent
  have hnew : parent.filter t'.contains ≠ some ⟨t'.nextId⟩ := by
    rw [hfilter, h.nextId]
    split
    · simp
    · simp only [ne_eq, Option.some.injEq, Ident.mk.injEq]
      omega
  have hchildren :
      ({ t' with store := s }.addStep step parent).1.children[(⟨t.nextId + i⟩ : StateId)]? =
      if ⟨t.nextId + i⟩ = (⟨t'.nextId⟩ : StateId) then some []
      else (t'.children[(⟨t.nextId + i⟩ : StateId)]?).map fun l =>
        if parent.filter t'.contains = some ⟨t.nextId + i⟩ then l ++ [⟨t'.nextId⟩] else l :=
    getElem?_children_addStep step { t' with store := s } hnew ⟨t.nextId + i⟩
  rw [hchildren]
  rcases Nat.lt_or_eq_of_le (Nat.le_of_lt_succ hi) with hlt | rfl
  · have hlast : parent.filter t'.contains = some ⟨t.nextId + i⟩ ↔ i + 1 = es.length := by
      rw [hfilter, if_neg (Nat.ne_of_gt (Nat.zero_lt_of_lt hlt)), Option.some.injEq, Ident.mk.injEq]
      omega
    rw [if_neg (h.ne_next hlt), h.children hlt, Option.map_some, if_pos (Nat.succ_lt_succ hlt)]
    by_cases heq : i + 1 = es.length
    · rw [if_pos (hlast.mpr heq), if_neg (by omega), h.nextId, heq]
      rfl
    · rw [if_neg (hlast.not.mpr heq), if_pos (by omega)]
  · rw [h.nextId, if_pos rfl, if_neg (Nat.lt_irrefl _)]

/-- A state is added below the last one. -/
theorem addStep :
    t.Chains ({ t' with store := s }.addStep step parent).1
      (es ++ [t'.newEntry s step parent]) := by
  have hlength : (es ++ [t'.newEntry s step parent]).length = es.length + 1 := List.length_append ..
  refine ⟨?_, fun {i e} he => ?_, fun {i e} he => ?_, fun {i} hi => ?_⟩
  · rw [hlength, ← Nat.add_assoc, ← h.nextId]
    rfl
  · rcases getElem?_concat_cases he with hold | ⟨rfl, rfl⟩
    · obtain ⟨hid, hstate⟩ := h.state hold
      refine ⟨hid, ?_⟩
      rw [state?_addStep_of_ne (h.ne_next (List.getElem?_eq_some_iff.mp hold).1), hstate]
    · rw [← h.nextId]
      exact ⟨rfl, t'.state?_newEntry s step parent⟩
  · rcases getElem?_concat_cases he with hold | ⟨rfl, rfl⟩
    · exact h.parent hold
    · exact h.filter_contains_eq hparent
  · rw [hlength] at hi ⊢
    exact h.children_addStep hparent hi

end Chains

end DerivationTree

/-! ### What states show -/

/-- The features of a word. One that is not known has none. -/
def MonorailParser.featuresOf (p : MonorailParser) (word : String) : List Feature :=
  (p.words.get? word).getD []

/-- What a state shows that comes behind other states of its sentence. -/
structure ShowsStep (p : MonorailParser) (start : Store) (before : List Shown)
    (e : Shown) : Prop where
  /-- The node that may be raised next is found by going to older ones. -/
  walk : ∃ top picked, e.state.roots = [top] ∧ e.edgeNodes = picked.toList ∧
    e.store.WalksDown (fun x => ∃ e' ∈ before, x ∈ e'.edgeNodes) top picked
  /-- A node that is raised uses up a feature, which has not been used up before, and adds none. -/
  raise : e.state.type = .internalMerge → ∃ last ∈ before.getLast?,
    e.store.features.keys = last.store.features.keys ∧ ∃ probe goal,
      e.newChecks start (checksShown start before) = [(probe, goal)] ∧
        probe ∉ (checksShown start before).map (·.1)
  /-- A word is a leaf with its features. -/
  word : e.state.type = .externalMerge → ∃ top leaf below, e.state.roots = [top] ∧
    e.store.parts? top = some [leaf, below] ∧ e.store.parts? leaf = some [] ∧
    e.store.HasFeatures leaf (p.featuresOf e.state.message)

namespace Sentence

variable {s s' : Sentence} {raising : Option ConstituentId} {top : ConstituentId}

/-- The next node is found, and has been on the edge then. -/
theorem walks_settle (s : Sentence) (top : ConstituentId) (message : String) (type : StateType)
    (hedges : ∀ x, s.edges.contains x = true ↔ ∃ e ∈ es, x ∈ e.edgeNodes)
    (hconfines : start.Confines (s.settle top message type).1.store)
    (htop : start.Added (s.settle top message type).1.store (.constituent top)) :
    (∀ x, (s.settle top message type).1.edges.contains x = true ↔
      ∃ e ∈ es ++ [s.shownAt top message type], x ∈ e.edgeNodes) ∧
    ∃ top' picked, (s.shownAt top message type).state.roots = [top'] ∧
      (s.shownAt top message type).edgeNodes = picked.toList ∧
      (s.shownAt top message type).store.WalksDown (fun x => ∃ e' ∈ es,
        x ∈ e'.edgeNodes) top' picked := by
  have hedge := s.edgeNodes_shownAt top message type
  constructor
  · intro x
    have hnext : (s.settle top message type).1.edges = (s.store.nextEdge s.edges top).2 := rfl
    have hpicked : (s.settle top message type).2 = (s.store.nextEdge s.edges top).1 := rfl
    rw [hnext, s.store.contains_nextEdge, hedges, ← hpicked, ← hedge]
    simp only [List.mem_append, List.mem_singleton, or_and_right, exists_or, exists_eq_left]
  · refine ⟨top, (s.settle top message type).2, rfl, hedge, ?_⟩
    refine hconfines.walksDown_nextEdge (fun id => ?_) hedges htop
    exact congrArg (Option.map (·.2)) (Store.body?_congr id (s.store.outline?_raisingGroup _ id))

/-- A word is a leaf with its features. -/
theorem IsTracked.exists_leaf (h : s.IsTracked start raising es) {word : String}
    {features : List Feature} (hmerge : s.mergeWord word features = (s', top)) :
    ∃ leaf below, s'.store.parts? top = some [leaf, below] ∧
      top.index < s'.store.nextConstituent ∧ s'.store.parts? leaf = some [] ∧
      s'.store.HasFeatures leaf features := by
  obtain ⟨store, below, hstore, heq, hmerged⟩ := h.exists_mergeWord hmerge
  have hleaf := s.store.hasFeatures_addLeaf word features
  have hgrows : (s.store.addLeaf word features).1.Retains store := by
    rcases hstore with rfl | rfl
    · exact .refl _
    · exact Store.retains_addLeaf ..
  have hretains :=
    hgrows.trans (store.retains_mergeOnTop s.used (s.store.addLeaf word features).2 below)
  rw [← heq] at hretains
  exact ⟨(s.store.addLeaf word features).2, below, (hmerged.isMerged (.refl _)).parts,
    hmerged.added_top.2, (hretains.parts? hleaf.node).trans (s.store.parts?_addLeaf word features),
    hleaf.retains hretains⟩

end Sentence

namespace MonorailParser

open Sentence

variable {p : MonorailParser} {read : List String} {s : Sentence} {raising : Option ConstituentId}

/-- The states show the words that have been read, and how many nodes have been raised. -/
theorem Reaches.wordsRead_eq (h : p.Reaches t read s raising es) :
    wordsRead es = read ∧ es.length = read.length + internalMerges es := by
  have hword (s : Sentence) (top : ConstituentId) (word : String) :
      wordsRead [s.shownAt top word .externalMerge] = [word] ∧
        internalMerges [s.shownAt top word .externalMerge] = 0 := ⟨rfl, rfl⟩
  have hraise (s : Sentence) (top : ConstituentId) (message : String) :
      wordsRead [s.shownAt top message .internalMerge] = [] ∧
        internalMerges [s.shownAt top message .internalMerge] = 1 := ⟨rfl, rfl⟩
  have hmerges (es es' : List Shown) :
      internalMerges (es ++ es') = internalMerges es + internalMerges es' :=
    List.countP_append
  induction h with
  | start => exact ⟨rfl, rfl⟩
  | said _ _ _ ih => exact ih
  | word _ _ word _ ih =>
    rw [wordsRead_append, hmerges, (hword ..).1, (hword ..).2, ih.1, List.length_append,
      List.length_append, ih.2]
    refine ⟨rfl, ?_⟩
    simp only [List.length_singleton]
    omega
  | raise _ _ _ _ ih =>
    rw [wordsRead_append, hmerges, (hraise ..).1, (hraise ..).2, ih.1, List.length_append, ih.2,
      List.append_nil]
    exact ⟨rfl, by simp only [List.length_singleton]; omega⟩

/-- The states are one chain. -/
theorem Reaches.chains (h : p.Reaches t read s raising es) :
    t.Chains s.tree es ∧ s.last = es.getLast?.map (·.state.id) := by
  have hsettle {s s' : Sentence} {es : List Shown} {top : ConstituentId} {message : String}
      {type : StateType}
      (hs : s' = { s with tree := { s.tree with store := s'.store }, used := s'.used })
      (ih : t.Chains s.tree es ∧ s.last = es.getLast?.map (·.state.id)) :
      t.Chains (s'.settle top message type).1.tree (es ++ [s'.shownAt top message type]) ∧
        (s'.settle top message type).1.last = (es ++ [s'.shownAt top message type]).getLast?.map
        (·.state.id) := by
    rw [List.getLast?_concat]
    rw [hs]
    exact ⟨ih.1.addStep ih.2, rfl⟩
  induction h with
  | start => exact ⟨t.chains_nil, rfl⟩
  | said _ _ _ ih => exact ih
  | word _ _ _ hmerge ih => exact hsettle (eq_of_mergeWord hmerge) ih
  | raise _ _ _ hmerge ih => exact hsettle (eq_of_mergeAgain hmerge) ih

/-- The features that find a category are those of the words. -/
theorem Reaches.probesSince_eq (h : p.Reaches t read s raising es) : s.store.probesSince t.store =
    (read.flatMap p.featuresOf).countP (·.sign.findsCategory) := by
  have hsettle (s : Sentence) (top : ConstituentId) (message : String) (type : StateType) :
      (s.settle top message type).1.store.probesSince t.store = s.store.probesSince t.store :=
    (s.store.coincides_raisingGroup (s.settle top message type).2).probesSince_eq
  have hmerge (s : Store) (used : IdentSet .feature) (left right : ConstituentId) :
      (s.mergeOnTop used left right).1.probesSince t.store = s.probesSince t.store :=
    Store.probesSince_congr (s.next_mergeOnTop used left right).2
      (s.value?_mergeOnTop used left right)
  induction h with
  | start => exact t.store.probesSince_self
  | said _ _ _ ih => exact ih
  | @word _ s _ _ _ _ h _ word hword ih =>
    obtain ⟨store, below, hstore, heq, -⟩ := h.isTracked.exists_mergeWord hword
    have hle := h.isTracked.tracks.nextFeature
    have hleaf := Store.probesSince_addLeaf hle word (p.featuresOf word)
    have hbelow : store.probesSince t.store =
        (s.store.addLeaf word (p.featuresOf word)).1.probesSince t.store := by
      rcases hstore with rfl | rfl
      · rfl
      · have hgrows := s.store.retains_addLeaf word (p.featuresOf word)
        exact Store.probesSince_addBottom (Nat.le_trans hle hgrows.nextFeature)
    rw [hsettle, heq, hmerge, hbelow, hleaf, ih, List.flatMap_append, List.flatMap_singleton,
      List.countP_append]
  | raise h _ _ hraise ih =>
    obtain ⟨hstore, -, -⟩ := store_of_mergeAgain hraise
    rw [hsettle, hstore, (Store.coincides_land ..).probesSince_eq, hmerge, ih]

/-- Some words are read, all of them unless those who watch say stop before. -/
theorem exists_wordsRead_parse (p : MonorailParser) (words : List String) (t : DerivationTree) :
    ∃ k ≤ words.length, (∀ i < k, p.report.stops (p.report.asked + i) = false) ∧
      (k < words.length → p.report.stops (p.report.asked + k) = true) ∧
      wordsRead ((p.parse words t).1.report.since p.report) = words.take k := by
  have hstart : ({ report := p.report, tree := t } : Sentence).IsPronounced t p.report 0 [] [] :=
    { report := .refl _
      states := Or.inl
      pronounced := forall_behind_nil
      spans := Store.spans_nil _
      stays := fun hroot => absurd hroot (by simp)
      begun := by simp }
  obtain ⟨k, hk, n, nodes, es, hend, hread, -, hgo, hcancel⟩ :=
    p.exists_isPronounced_readWords hstart 0 words
  rw [List.nil_append] at hend hread
  have hshown (s : Sentence) : (announce s).report.shown = s.report.shown := by
    rw [announce]
    split <;> rfl
  have hsince : (p.parse words t).1.report.since p.report = es :=
    Report.since_eq ((congrArg Array.toList (hshown _)).trans hend.report.shown)
  rw [hsince]
  exact ⟨k, hk, hgo, hcancel, hread⟩

/-- Every state shows one step. -/
theorem Reaches.showsStep (h : p.Reaches t read s raising es) :
    (∀ x, s.edges.contains x = true ↔ ∃ e ∈ es, x ∈ e.edgeNodes) ∧
      ∀ before e, before ++ [e] <+: es → ShowsStep p t.store before e := by
  have hne : ¬StateType.externalMerge = .internalMerge := by decide
  induction h with
  | start =>
    refine ⟨fun x => ?_, forall_behind_nil⟩
    simp
  | said _ _ _ ih => exact ih
  | @word read s s' raising es top h hrest word hword ih =>
    have hnext := (h.word hrest word hword).isTracked
    have hedges : s'.edges = s.edges := congrArg (·.edges) (eq_of_mergeWord hword)
    obtain ⟨hcontains, hwalk⟩ :=
      walks_settle s' top word .externalMerge (hedges ▸ ih.1) hnext.confines (hnext.root rfl)
    refine ⟨hcontains,
      forall_behind_concat_iff.mpr ⟨ih.2, hwalk, fun htype => absurd htype hne, fun _ => ?_⟩⟩
    -- the group of the state shown changes no node
    obtain ⟨leaf, below, hparts, htop, hleaf, hfeatures⟩ := h.isTracked.exists_leaf hword
    have hshown : s'.store.Retains (s'.shownAt top word .externalMerge).store :=
      s'.store.retains_raisingGroup _
    exact ⟨top, leaf, below, rfl, (hshown.parts? htop).trans hparts,
      (hshown.parts? hfeatures.node).trans hleaf, hfeatures.retains hshown⟩
  | @raise read s s' es node root top pair h hroot hpair hraise ih =>
    have hnext := (h.raise hroot hpair hraise).isTracked
    have hedges : s'.edges = s.edges := congrArg (·.edges) (eq_of_mergeAgain hraise)
    obtain ⟨hcontains, hwalk⟩ :=
      walks_settle s' top (raiseMessage s.store pair) .internalMerge (hedges ▸ ih.1) hnext.confines
        (hnext.root rfl)
    refine ⟨hcontains,
      forall_behind_concat_iff.mpr ⟨ih.2, hwalk, fun htype => ?_,
        fun htype => absurd htype.symm hne⟩⟩
    have hshown := hnext.shows es _ (List.prefix_refl _)
    obtain ⟨last, hlast, -⟩ := hshown.raises.mp htype
    refine ⟨last, hlast, ?_, hshown.exists_probe htype⟩
    rw [(h.isTracked.last hlast).1]
    refine (congrArg Std.TreeMap.keys (features_raisingGroup s'.store _)).trans ?_
    rw [(store_of_mergeAgain hraise).1, Store.features_land]
    exact s.store.keys_features_mergeOnTop s.used node root

/-- **How many states a sentence has.** Words are read, all of them unless those who watch say stop
before. Each word is a state, and so is each node that is raised, every state the child of the one
before. A raised node uses up a selector, a licensee or an adjunct and adds no feature, none of
these is used twice, and the way to the next node leads to older ones. So the nodes that are raised
and the words that check something are no more than there are selectors, licensees and adjuncts on
the leaves of the words. -/
theorem exists_bounds_parse (p : MonorailParser) (words : List String) (t : DerivationTree) :
    let es := (p.parse words t).1.report.since p.report
    let t' := (p.parse words t).2.1
    ∃ k ≤ words.length,
      (∀ i < k, p.report.stops (p.report.asked + i) = false) ∧
      (k < words.length → p.report.stops (p.report.asked + k) = true) ∧
      wordsRead es = words.take k ∧
      es.length = k + internalMerges es ∧
      internalMerges es + externalChecks t.store es ≤
        ((words.take k).flatMap p.featuresOf).countP (·.sign.findsCategory) ∧
      ((checksShown t.store es).map (·.1)).Nodup ∧
      (∀ before e, before ++ [e] <+: es → ShowsStep p t.store before e) ∧
      (∀ i e, es[i]? = some e → e.state.id = ⟨t.nextId + i⟩ ∧ t'.state? e.state.id = some e.state ∧
        e.state.parent = (if i = 0 then none else some ⟨t.nextId + (i - 1)⟩) ∧
        t'.childrenOf e.state.id = if i + 1 < es.length then [⟨t.nextId + (i + 1)⟩] else []) ∧
      ∀ id x, t'.state? id = some x → t.state? id = some x ∨ ∃ e ∈ es, e.state = x := by
  intro es t'
  obtain ⟨j, -, s, raising, hend, -, heq⟩ := p.exists_reaches_parse words t
  have htree : t' = s.tree := congrArg Prod.fst heq
  obtain ⟨k, hk, hgo, hcancel, hread⟩ := p.exists_wordsRead_parse words t
  obtain ⟨hread', hlength⟩ := hend.wordsRead_eq
  obtain ⟨hchains, -⟩ := hend.chains
  rw [← hread', hread, List.length_take, Nat.min_eq_left hk] at hlength
  refine ⟨k, hk, hgo, hcancel, hread, hlength, ?_, hend.isTracked.tracks.once, hend.showsStep.2,
    fun i e he => ?_, fun id x hx => ?_⟩
  · calc internalMerges es + externalChecks t.store es
      _ ≤ (checksShown t.store es).length :=
        internalMerges_add_externalChecks_le hend.isTracked.shows
      _ ≤ s.store.probesSince t.store := hend.isTracked.tracks.length_le
      _ = ((words.take k).flatMap p.featuresOf).countP (·.sign.findsCategory) := by
        rw [hend.probesSince_eq, ← hread', hread]
  · obtain ⟨hid, hstate⟩ := hchains.state he
    rw [DerivationTree.childrenOf_eq, htree, hid, hstate,
      hchains.children (List.getElem?_eq_some_iff.mp he).1, Option.getD_some]
    exact ⟨rfl, rfl, hchains.parent he, rfl⟩
  · rw [htree] at hx
    exact hend.states hx

end MonorailParser

end MinimalistGrammar
