import MinimalistGrammar.Proofs.Monorail.Pronunciation
import MinimalistGrammar.Proofs.Tree.Layout

/-!
# Which nodes may be raised

After every merge the monorail parser goes down the left edge of the tree and picks the right part
of the first node whose left part has not been on the edge. Below a new word this is the tree so
far, which has not been picked before. But a raised node has been on the edge itself. The way leads
through it, and ends where it ended when the raised node was the root of the tree.

So every node that is picked after a node was raised has been picked before, and the nodes are
different exactly if none is ever raised.

## Main definitions

* `Store.LeadsDown` — the way down the left edge and the node at its end.
* `Shown.edgeNodes` — the nodes that a state shows to be picked.
* `ShowsEdge` — what a state shows behind other states of its sentence.
* `Sentence.Climbs` — what is known of a sentence between two merges.
* `Sentence.shownAt` — the state that is shown of a merge.
* `Sentence.IsMergedTo` — what a merge makes of a sentence before it is logged.

## Main results

* `Store.LeadsDown.nextEdge` — the node that is picked.
* `Sentence.Climbs.settle` — a merge is logged, whatever was merged.
* `Sentence.Climbs.raiseOnce`, `Sentence.Climbs.addWord` — one merge more, and one word more.
* `MonorailParser.nodup_edgeNodes_iff` — **the nodes are different exactly if none is raised.**
-/

namespace MinimalistGrammar

namespace Store

variable {s s' : Store} {used : IdentSet .feature} {edges edges' : IdentSet .constituent}
  {leaves leaves' : List ConstituentId} {id left right node root : ConstituentId}
  {features : List Feature}

/-! ### What merging retains -/

theorem retains_addLeaf (s : Store) (label : String) (features : List Feature) :
    s.Retains (s.addLeaf label features).1 := by
  obtain ⟨-, -, -, hfeature, -, hnodes⟩ :=
    (s.addNode { label }).1.addFeatures_spec ⟨s.nextConstituent⟩ features
  obtain ⟨-, -, hvalues⟩ :=
    (s.addNode { label }).1.addFeatures_occurrences ⟨s.nextConstituent⟩ features
  have hother {id : ConstituentId} (hid : id.index < s.nextConstituent) :
      (s.addLeaf label features).1.outline? id = s.outline? id := by
    rw [outline?_addLeaf, if_neg (ne_next_of_lt hid)]
  exact {
    nextConstituent := by
      rw [next_addLeaf]
      exact Nat.le_succ _
    nextFeature := hfeature
    body? := fun {id} hid => body?_congr id (hother hid)
    head? := fun {id} hid => by
      have hadd := constituent?_addNode s id { label }
      rw [if_neg (ne_next_of_lt hid)] at hadd
      rw [head?, head?, ← hadd, ← hnodes]
      exact head?_modifyConstituent _ _ _ fun _ => rfl
    featuresAt := fun hid => featuresAt_congr (hother hid)
    value? := fun {fid} hfid => congrArg (Option.map FeatureOccurrence.feature) (hvalues fid hfid) }

theorem hasFeatures_addLeaf (s : Store) (label : String) (features : List Feature) :
    (s.addLeaf label features).1.HasFeatures (s.addLeaf label features).2 features := by
  obtain ⟨-, hissued, -, -, -, -⟩ :=
    (s.addNode { label }).1.addFeatures_spec ⟨s.nextConstituent⟩ features
  obtain ⟨hvalues, -, -⟩ :=
    (s.addNode { label }).1.addFeatures_occurrences ⟨s.nextConstituent⟩ features
  have hfeatures : (s.addLeaf label features).1.featuresAt (s.addLeaf label features).2 =
      ((s.addNode { label }).1.addFeatures ⟨s.nextConstituent⟩ features).2 := by
    have hid : (s.addLeaf label features).2 = ⟨s.nextConstituent⟩ := rfl
    rw [featuresAt, outline?_addLeaf, if_pos hid, Option.elim_some]
  refine ⟨?_, fun hfid => (hissued _ (hfeatures ▸ hfid)).2, ?_⟩
  · rw [next_addLeaf]
    exact Nat.lt_succ_self _
  · rw [hfeatures]
    have hmap := congrArg (List.map (Option.map FeatureOccurrence.feature)) hvalues
    rw [List.map_map, List.map_map] at hmap
    exact hmap

theorem retains_mergeOnTop (s : Store) (used : IdentSet .feature) (left right : ConstituentId) :
    s.Retains (s.mergeOnTop used left right).1 := by
  obtain ⟨hnode, hfeature⟩ := s.next_mergeOnTop used left right
  obtain ⟨label, features, houtline⟩ := s.exists_forall_outline?_mergeOnTop used left right
  have hother {id : ConstituentId} (hid : id.index < s.nextConstituent) :
      (s.mergeOnTop used left right).1.outline? id = s.outline? id := by
    rw [houtline, if_neg (ne_next_of_lt hid)]
  exact {
    nextConstituent := by
      rw [hnode]
      exact Nat.le_succ _
    nextFeature := Nat.le_of_eq hfeature.symm
    body? := fun {id} hid => body?_congr id (hother hid)
    head? := fun {id} hid => by
      obtain ⟨head, label, features, -, -, heq, -⟩ := s.exists_mergeOnTop used left right
      rw [heq, head?_setHead, if_neg (ne_next_of_lt hid), head?, head?, constituent?_addNode,
        (s.next_checked used left right).1, if_neg (ne_next_of_lt hid)]
      rcases s.checked_cases used left right with hnone | ⟨pair, -, hpair⟩
      · rw [hnone]
      · rw [hpair]
        rfl
    featuresAt := fun hid => featuresAt_congr (hother hid)
    value? := fun {fid} _ => s.map_feature_feature?_mergeOnTop used left right fid }

theorem retains_land (s : Store) (node top : ConstituentId) : s.Retains (s.land node top) where
  nextConstituent := Nat.le_refl _
  nextFeature := Nat.le_refl _
  body? {id} _ := by
    rw [body?, outline?_land, body?]
    split
    · cases s.outline? id <;> rfl
    · rfl
  head? _ := head?_modifyConstituent _ _ _ fun _ => rfl
  featuresAt {id} _ := by
    rw [featuresAt, outline?_land, featuresAt]
    split
    · cases s.outline? id <;> rfl
    · rfl
  value? _ := rfl

theorem retains_raisingGroup (s : Store) (raising : Option ConstituentId) :
    s.Retains (Sentence.raisingGroup s raising).1 := by
  obtain ⟨hnode, hfeature⟩ := s.next_raisingGroup raising
  exact {
    nextConstituent := Nat.le_of_eq hnode.symm
    nextFeature := Nat.le_of_eq hfeature.symm
    body? := fun {id} _ => body?_congr id (s.outline?_raisingGroup raising id)
    head? := fun {id} _ => by
      rw [head?, constituent?_of_linked? (s.linked?_raisingGroup raising (.constituent id)), head?]
    featuresAt := fun _ => featuresAt_congr (s.outline?_raisingGroup raising _)
    value? := fun {fid} _ => by cases raising <;> rfl }

/-! ### Down the left edge -/

/-- The parts of a node. -/
def parts? (s : Store) (id : ConstituentId) : Option (List ConstituentId) := (s.body? id).map (·.2)

theorem parts?_eq (s : Store) (id : ConstituentId) :
    s.parts? id = (s.constituent? id).map (·.parts) := by
  rw [parts?, body?, outline?]
  cases s.constituent? id <;> rfl

theorem Retains.parts? (h : s.Retains s') (hid : id.index < s.nextConstituent) :
    s'.parts? id = s.parts? id := by
  rw [Store.parts?, h.body? hid, Store.parts?]

theorem bind_head?_parts (s : Store) (id : ConstituentId) :
    ((s.outline? id).bind fun o => o.parts.head?) = (s.parts? id).bind List.head? := by
  rw [parts?, body?]
  cases s.outline? id <;> rfl

theorem parts?_mergeOnTop (s : Store) (used : IdentSet .feature) (left right : ConstituentId) :
    (s.mergeOnTop used left right).1.parts? ⟨s.nextConstituent⟩ = some [left, right] := by
  obtain ⟨o, ho, hparts⟩ := s.exists_outline?_mergeOnTop used left right
  rw [parts?, body?, ho, Option.map_some, Option.map_some, hparts]

/-- The way down the left edge from a node ends at another one, the right part of a node whose left
part is the leaf of a word. On the way there are only nodes that have been on the edge. -/
inductive LeadsDown (s : Store) (leaves : List ConstituentId) (edges : IdentSet .constituent) :
    ConstituentId → ConstituentId → Prop
  | word {id left right : ConstituentId} (hid : id.index < s.nextConstituent)
      (hparts : s.parts? id = some [left, right]) (hleft : left ∈ leaves)
      (hlt : right.index < id.index) : LeadsDown s leaves edges id right
  | phrase {id left right node : ConstituentId} (hid : id.index < s.nextConstituent)
      (hparts : s.parts? id = some [left, right]) (hleft : edges.contains left = true)
      (hlt : left.index < id.index) (hdown : LeadsDown s leaves edges left node) :
      LeadsDown s leaves edges id node

namespace LeadsDown

theorem issued (h : s.LeadsDown leaves edges id node) : id.index < s.nextConstituent := by
  cases h with
  | word hid => exact hid
  | phrase hid => exact hid

/-- The way ends at an older node. -/
theorem lt (h : s.LeadsDown leaves edges id node) : node.index < id.index := by
  induction h with
  | word _ _ _ hlt => exact hlt
  | phrase _ _ _ hlt _ ih => exact Nat.lt_trans ih hlt

/-- The way stays as it is. -/
theorem mono (h : s.LeadsDown leaves edges id node) (hs : s.Retains s')
    (hleaves : ∀ x ∈ leaves, x ∈ leaves')
    (hedges : ∀ x, edges.contains x = true → edges'.contains x = true) :
    s'.LeadsDown leaves' edges' id node := by
  induction h with
  | word hid hparts hleft hlt =>
    exact .word (Nat.lt_of_lt_of_le hid hs.nextConstituent) ((hs.parts? hid).trans hparts)
      (hleaves _ hleft) hlt
  | phrase hid hparts hleft hlt _ ih =>
    exact .phrase (Nat.lt_of_lt_of_le hid hs.nextConstituent) ((hs.parts? hid).trans hparts)
      (hedges _ hleft) hlt ih

/-- The node at the end of the way is picked, since no leaf of a word has been on the edge. -/
theorem nextEdge (h : s.LeadsDown leaves edges id node)
    (hleaves : ∀ x ∈ leaves, edges.contains x = false) :
    s.nextEdge edges id = (some node, edges.insert node) := by
  induction h with
  | word _ hparts hleft =>
    rw [parts?_eq] at hparts
    rw [Store.nextEdge, hparts]
    simp only [hleaves _ hleft, Bool.false_eq_true, if_false]
  | phrase _ hparts hleft hlt _ ih =>
    rw [parts?_eq] at hparts
    rw [Store.nextEdge, hparts]
    simp only [hleft, if_true, hlt]
    exact ih

end LeadsDown

/-- A node without a feature that finds a category checks nothing. -/
theorem HasFeatures.checkingPair?_eq_none (h : s.HasFeatures left features)
    (hfeatures : ∀ f ∈ features, f.sign.findsCategory = false) (used : IdentSet .feature)
    (right : ConstituentId) : s.checkingPair? used left right = none := by
  refine Option.eq_none_iff_forall_ne_some.mpr fun pair hpair => ?_
  obtain ⟨goal, -, heq⟩ := List.exists_of_findSome?_eq_some hpair
  obtain ⟨probe, hprobe, -⟩ := Option.map_eq_some_iff.mp heq
  have hfinds : probe.2.sign.findsCategory = true := by
    have hfound := List.find?_some hprobe
    simp only [Bool.and_eq_true] at hfound
    exact hfound.2
  obtain ⟨fid, hfid, hval⟩ := List.mem_filterMap.mp (List.mem_of_find?_eq_some hprobe)
  obtain ⟨occurrence, hocc, rfl⟩ := Option.map_eq_some_iff.mp hval
  have hmem : fid ∈ s.featuresAt left := by
    rw [featuresAt, outline?]
    cases hc : s.constituent? left with
    | none => simp [hc] at hfid
    | some c =>
      rw [hc] at hfid
      exact (List.mem_filter.mp hfid).1
  have hvalue : some occurrence.feature ∈ (s.featuresAt left).map s.value? :=
    List.mem_map.mpr ⟨fid, hmem, by rw [value?, hocc, Option.map_some]⟩
  rw [h.values] at hvalue
  obtain ⟨f, hf, heq⟩ := List.mem_map.mp hvalue
  obtain rfl := Option.some.inj heq
  rw [hfeatures _ hf] at hfinds
  exact absurd hfinds (by decide)

end Store

/-! ### What states show -/

/-- The nodes that a state shows in its group of those that may be raised next. -/
def Shown.edgeNodes (e : Shown) : List ConstituentId :=
  ((e.state.groups.get? "raising").bind e.store.group?).elim [] (·.members)

/-- What a state shows that comes behind other states of its sentence. -/
inductive ShowsEdge (before : List Shown) (e : Shown) : Prop
  /-- Below a new word the root of the tree so far is picked, or a silent leaf. It is new. -/
  | word {node : ConstituentId} (htype : e.state.type = .externalMerge)
      (hedge : e.edgeNodes = [node]) (hroot : ∀ last ∈ before.getLast?, last.state.roots = [node])
      (hnew : ∀ e' ∈ before, node ∉ e'.edgeNodes)
  /-- The node that the last state has picked is raised. It was the root of an earlier state, and
  what that state has picked is picked again. -/
  | phrase {last e' : Shown} {node : ConstituentId} (htype : e.state.type = .internalMerge)
      (hlast : last ∈ before.getLast?) (hraised : e.raising?.map (·.1) = some node)
      (hpicked : last.edgeNodes = [node]) (hmem : e' ∈ before) (hroot : e'.state.roots = [node])
      (hagain : e.edgeNodes = e'.edgeNodes)

/-- What all states of a sentence show. -/
def ShowsEdges (es : List Shown) : Prop := ∀ before e, before ++ [e] <+: es → ShowsEdge before e

theorem showsEdges_nil : ShowsEdges [] := forall_behind_nil

theorem ShowsEdges.concat {es : List Shown} {e : Shown} (h : ShowsEdges es) (he : ShowsEdge es e) :
    ShowsEdges (es ++ [e]) :=
  forall_behind_concat_iff.mpr ⟨h, he⟩

namespace ShowsEdges

variable {es : List Shown} {e : Shown}

theorem of_concat (h : ShowsEdges (es ++ [e])) : ShowsEdges es ∧ ShowsEdge es e :=
  forall_behind_concat_iff.mp h

/-- Every state shows one node to be picked. -/
theorem exists_edgeNodes (h : ShowsEdges es) (he : e ∈ es) : ∃ node, e.edgeNodes = [node] := by
  induction es using List.reverseRecOn generalizing e with
  | nil => exact absurd he List.not_mem_nil
  | append_singleton es last ih =>
    obtain ⟨hes, hlast⟩ := h.of_concat
    rcases List.mem_append.mp he with he | he
    · exact ih hes he
    · obtain rfl := List.mem_singleton.mp he
      cases hlast with
      | word _ hedge => exact ⟨_, hedge⟩
      | phrase _ _ _ _ hmem _ hagain => exact hagain ▸ ih hes hmem

/-- The nodes that are picked are different exactly if none is raised. -/
theorem nodup_iff (h : ShowsEdges es) :
    (es.flatMap Shown.edgeNodes).Nodup ↔ ∀ e ∈ es, e.state.type = .externalMerge := by
  induction es using List.reverseRecOn with
  | nil => simp
  | append_singleton es last ih =>
    obtain ⟨hes, hlast⟩ := h.of_concat
    rw [List.flatMap_append, List.flatMap_singleton, List.forall_mem_append,
      List.forall_mem_singleton, ← ih hes]
    cases hlast with
    | word htype hedge _ hnew =>
      rw [hedge, htype, List.nodup_append]
      refine ⟨fun hnodup => ⟨hnodup.1, rfl⟩, fun hall => ⟨hall.1, List.nodup_singleton _, ?_⟩⟩
      rintro a ha b hb rfl
      obtain ⟨e', he', hmem⟩ := List.mem_flatMap.mp ha
      rw [List.mem_singleton.mp hb] at hmem
      exact hnew e' he' hmem
    | phrase htype _ _ _ hmem _ hagain =>
      -- the node is there already
      obtain ⟨node, hnode⟩ := hes.exists_edgeNodes hmem
      rw [hagain, hnode, htype]
      refine iff_of_false (fun hnodup => ?_) fun hall => absurd hall.2 (by decide)
      have hthere : node ∈ es.flatMap Shown.edgeNodes :=
        List.mem_flatMap.mpr ⟨_, hmem, by rw [hnode]; exact List.mem_singleton_self _⟩
      exact (List.nodup_append.mp hnodup).2.2 node hthere node (List.mem_singleton_self _) rfl

end ShowsEdges

namespace Sentence

variable {s s' : Sentence} {r : Report} {bottom : ConstituentId} {leaves : List ConstituentId}
  {es : List Shown}

/-- What is known of the tree of a sentence that was begun with the report `r`: the silent leaf, the
leaves of the words, and the states shown. -/
structure Climbs (r : Report) (s : Sentence) (bottom : ConstituentId) (leaves : List ConstituentId)
    (es : List Shown) : Prop where
  shown : s.report.shown.toList = r.shown.toList ++ es
  shows : ShowsEdges es
  root : s.root.toList = es.getLast?.elim [] (·.state.roots)
  silent : es ≠ [] → s.store.HasFeatures bottom [.categorial bottomCategory] ∧ bottom ∉ leaves
  leaf {x : ConstituentId} : x ∈ leaves →
    x.index < s.store.nextConstituent ∧ s.edges.contains x = false
  edge {x : ConstituentId} : s.edges.contains x = true → x.index < s.store.nextConstituent
  /-- From the root of a state the way leads down to the node that it has picked, the silent leaf or
  the root of a state. -/
  entry {e : Shown} : e ∈ es → ∃ root node, e.state.roots = [root] ∧ root ∉ leaves ∧
    e.edgeNodes = [node] ∧ s.store.LeadsDown leaves s.edges root node ∧
    s.edges.contains node = true ∧ (node = bottom ∨ ∃ e' ∈ es, e'.state.roots = [node]) ∧
    ∀ top ∈ s.root, root.index ≤ top.index

/-- The state that is shown when a merged node is made the root. -/
def shownAt (s : Sentence) (root : ConstituentId) (message : String) (type : StateType) : Shown :=
  let (store, groups) := raisingGroup s.store (s.store.nextEdge s.edges root).1
  s.tree.newEntry store { roots := [root], message, type, groups } s.last

/-- The nodes that a state shows to be picked are the one that is picked, if there is one. -/
theorem edgeNodes_shownAt (s : Sentence) (root : ConstituentId) (message : String)
    (type : StateType) :
    (s.shownAt root message type).edgeNodes = (s.settle root message type).2.toList := by
  have hraising : (s.settle root message type).2 = (s.store.nextEdge s.edges root).1 := rfl
  have hgroups : (s.shownAt root message type).state.groups =
      (raisingGroup s.store (s.store.nextEdge s.edges root).1).2 := rfl
  have hstore : (s.shownAt root message type).store =
      (raisingGroup s.store (s.store.nextEdge s.edges root).1).1 := rfl
  rw [Shown.edgeNodes, hgroups, hstore, hraising]
  cases (s.store.nextEdge s.edges root).1 with
  | none => rfl
  | some node =>
    have hname : (raisingGroup s.store (some node)).2.get? "raising" = some ⟨s.store.nextGroup⟩ :=
      Dict.get?_insert_self
    have hgroup : (raisingGroup s.store (some node)).1.group? ⟨s.store.nextGroup⟩ =
        some { name := "raising", members := [node], color := some raisingColor } :=
      (IdentMap.getElem?_insert ..).trans (if_pos rfl)
    rw [hname, Option.bind_some, hgroup]
    rfl

/-- A merge that is settled is shown. -/
theorem shown_settle (s : Sentence) (root : ConstituentId) (message : String) (type : StateType) :
    (s.settle root message type).1.report.shown.toList =
      s.report.shown.toList ++ [s.shownAt root message type] := by
  have hreport : (s.settle root message type).1.report =
      (s.report.log .debug message).present (s.settle root message type).1.tree := rfl
  have htree : (s.settle root message type).1.tree = ({ s.tree with
      store := (raisingGroup s.store (s.store.nextEdge s.edges root).1).1 }.addStep
        { roots := [root], message, type
          groups := (raisingGroup s.store (s.store.nextEdge s.edges root).1).2 } s.last).1 := rfl
  rw [hreport, htree, DerivationTree.shown_present_addStep, Array.toList_push]
  rfl

/-- The state for a merge shows the root, and the node that is picked. -/
theorem exists_shown_settle (s : Sentence) (root : ConstituentId) (message : String)
    (type : StateType) {node : ConstituentId}
    (hnode : (s.store.nextEdge s.edges root).1 = some node) :
    ∃ e : Shown, (s.settle root message type).1.report.shown.toList = s.report.shown.toList ++ [e] ∧
      e.state.roots = [root] ∧ e.state.type = type ∧ e.edgeNodes = [node] ∧
      e.store = (raisingGroup s.store (some node)).1 := by
  refine ⟨s.shownAt root message type, s.shown_settle root message type, rfl, rfl, ?_, ?_⟩
  · exact (s.edgeNodes_shownAt root message type).trans (congrArg Option.toList hnode)
  · exact congrArg (fun raising => (raisingGroup s.store raising).1) hnode

/-- When a merged node is made the root, the node on the edge is picked and marked. -/
theorem settle_of_nextEdge {node root : ConstituentId}
    (hnext : s.store.nextEdge s.edges root = (some node, s.edges.insert node)) (message : String)
    (type : StateType) :
    (s.settle root message type).2 = some node ∧
      (s.settle root message type).1.store = (raisingGroup s.store (some node)).1 ∧
      ∀ x, (s.settle root message type).1.edges.contains x = true ↔
        x = node ∨ s.edges.contains x = true := by
  have hedges : (s.settle root message type).1.edges = s.edges.insert node :=
    congrArg Prod.snd hnext
  refine ⟨congrArg Prod.fst hnext, ?_, fun x => ?_⟩
  · show (raisingGroup s.store (s.store.nextEdge s.edges root).1).1 = _
    rw [hnext]
  · rw [hedges, Std.TreeSet.contains_insert, Bool.or_eq_true, beq_iff_eq,
      Std.LawfulEqCmp.compare_eq_iff_eq, eq_comm]

/-- A merge has made the sentence `s'` of the sentence `s`: there may be new leaves, and there is
the new node `top`, from which the way leads down to another one. The silent leaf is `bottom`. -/
structure IsMergedTo (s s' : Sentence) (leaves leaves' : List ConstituentId)
    (bottom top node : ConstituentId) : Prop where
  shown : s'.report.shown = s.report.shown
  edges : s'.edges = s.edges
  retains : s.store.Retains s'.store
  fresh : s.store.nextConstituent ≤ top.index
  keeps {x : ConstituentId} : x ∈ leaves → x ∈ leaves'
  leaf {x : ConstituentId} : x ∈ leaves' →
    x ∈ leaves ∨ s.store.nextConstituent ≤ x.index ∧ x.index < top.index
  silent : s'.store.HasFeatures bottom [.categorial bottomCategory] ∧ bottom ∉ leaves'
  down : s'.store.LeadsDown leaves' s.edges top node

namespace Climbs

variable {bottom' top node root : ConstituentId} {leaves' : List ConstituentId}

/-- No leaf of a word has been on the edge, be it new or not. -/
theorem contains_edges_of_leaf (h : s.Climbs r bottom leaves es)
    (hmerged : s.IsMergedTo s' leaves leaves' bottom' top node) {x : ConstituentId}
    (hx : x ∈ leaves') : s.edges.contains x = false := by
  rcases hmerged.leaf hx with hold | ⟨hnew, -⟩
  · exact (h.leaf hold).2
  · exact Bool.eq_false_iff.mpr fun hcontains => Nat.not_lt.mpr hnew (h.edge hcontains)

/-- The roots of states are no leaves of words, not of new ones either. -/
theorem root_notMem (h : s.Climbs r bottom leaves es)
    (hmerged : s.IsMergedTo s' leaves leaves' bottom' top node) {e : Shown} (he : e ∈ es)
    (hroot : e.state.roots = [root]) : root ∉ leaves' := by
  obtain ⟨root', node', hroot', hnot, -, hdown, -⟩ := h.entry he
  obtain rfl : root' = root := by simpa [hroot'] using hroot
  intro hmem
  rcases hmerged.leaf hmem with hold | ⟨hnew, -⟩
  · exact hnot hold
  · exact Nat.not_lt.mpr hnew hdown.issued

/-- The way from the root of a state is still there when a new root has been settled. -/
theorem entry_of_mem (h : s.Climbs r bottom leaves es)
    (hmerged : s.IsMergedTo s' leaves leaves' bottom' top node)
    (hbottom : es ≠ [] → bottom' = bottom) {s'' : Sentence} (hretains : s'.store.Retains s''.store)
    (hedges : ∀ x, s.edges.contains x = true → s''.edges.contains x = true)
    (hroot : s''.root = some top) {e : Shown} (he : e ∈ es) (last : Shown) :
    ∃ root node, e.state.roots = [root] ∧ root ∉ leaves' ∧ e.edgeNodes = [node] ∧
      s''.store.LeadsDown leaves' s''.edges root node ∧ s''.edges.contains node = true ∧
      (node = bottom' ∨ ∃ e' ∈ es ++ [last], e'.state.roots = [node]) ∧
      ∀ a ∈ s''.root, root.index ≤ a.index := by
  obtain ⟨root, node', hroots, -, hedge, hdown, hon, hwhere, -⟩ := h.entry he
  refine ⟨root, node', hroots, h.root_notMem hmerged he hroots, hedge, ?_, hedges _ hon, ?_, ?_⟩
  · exact hdown.mono (hmerged.retains.trans hretains) (fun _ => hmerged.keeps) hedges
  · rcases hwhere with rfl | ⟨e', he', heq⟩
    · exact Or.inl (hbottom (List.ne_nil_of_mem he)).symm
    · exact Or.inr ⟨e', List.mem_append_left _ he', heq⟩
  · intro a ha
    obtain rfl := Option.some.inj (hroot.symm.trans ha)
    exact Nat.le_trans (Nat.le_of_lt hdown.issued) hmerged.fresh

/-- A merge is logged, and the node on the edge is picked. -/
theorem settle (h : s.Climbs r bottom leaves es)
    (hmerged : s.IsMergedTo s' leaves leaves' bottom' top node)
    (hbottom : es ≠ [] → bottom' = bottom)
    (hnode : node = bottom' ∨ ∃ e ∈ es, e.state.roots = [node]) (message : String)
    (type : StateType)
    (hshows : ∀ e : Shown, e.state.roots = [top] → e.state.type = type → e.edgeNodes = [node] →
      e.store = (raisingGroup s'.store (some node)).1 → ShowsEdge es e) :
    ∃ e, (s'.settle top message type).1.Climbs r bottom' leaves' (es ++ [e]) ∧
      (s'.settle top message type).2 = some node ∧ e.edgeNodes = [node] ∧
        e.state.roots = [top] := by
  have hnext := hmerged.down.nextEdge fun x hx => h.contains_edges_of_leaf hmerged hx
  rw [← hmerged.edges] at hnext
  obtain ⟨e, hshown, hroots, htype, hedge, hgroup⟩ :=
    s'.exists_shown_settle top message type (congrArg Prod.fst hnext)
  obtain ⟨hpicked, hafter, hcontains⟩ := settle_of_nextEdge hnext message type
  rw [hmerged.edges] at hcontains
  have hgrows : s'.store.Retains (s'.settle top message type).1.store := by
    rw [hafter]
    exact s'.store.retains_raisingGroup (some node)
  have hissued := Nat.le_trans hmerged.retains.nextConstituent hgrows.nextConstituent
  have hdown : (s'.settle top message type).1.store.LeadsDown leaves'
      (s'.settle top message type).1.edges top node :=
    hmerged.down.mono hgrows (fun _ hx => hx) fun x hx => (hcontains x).mpr (Or.inr hx)
  have hnot : node ∉ leaves' := by
    rcases hnode with rfl | ⟨e', he', hroot⟩
    · exact hmerged.silent.2
    · exact h.root_notMem hmerged he' hroot
  refine ⟨e,
    ⟨?shown, h.shows.concat (hshows e hroots htype hedge hgroup), ?root, ?silent, ?leaf, ?edge,
      ?entry⟩, hpicked, hedge, hroots⟩
  case shown => rw [hshown, hmerged.shown, h.shown, List.append_assoc]
  case root =>
    rw [List.getLast?_concat, Option.elim_some, hroots]
    rfl
  case silent => exact fun _ => ⟨hmerged.silent.1.retains hgrows, hmerged.silent.2⟩
  case leaf =>
    intro x hx
    refine ⟨?_, Bool.eq_false_iff.mpr fun hx' => ?_⟩
    · rcases hmerged.leaf hx with hold | ⟨-, hlt⟩
      · exact Nat.lt_of_lt_of_le (h.leaf hold).1 hissued
      · exact Nat.lt_trans hlt hdown.issued
    · rcases (hcontains x).mp hx' with rfl | hold
      · exact hnot hx
      · exact absurd (h.contains_edges_of_leaf hmerged hx) (by simp [hold])
  case edge =>
    intro x hx
    rcases (hcontains x).mp hx with rfl | hold
    · exact Nat.lt_trans hdown.lt hdown.issued
    · exact Nat.lt_of_lt_of_le (h.edge hold) hissued
  case entry =>
    intro e' he'
    rcases List.mem_append.mp he' with hold | hnew
    · exact h.entry_of_mem hmerged hbottom hgrows (fun x hx => (hcontains x).mpr (Or.inr hx))
        rfl hold e
    · -- the new state has the new root
      obtain rfl := List.mem_singleton.mp hnew
      refine ⟨top, node, hroots, fun hmem => ?_, hedge, hdown,
        (hcontains node).mpr (Or.inl rfl), ?_, ?_⟩
      · rcases hmerged.leaf hmem with hold | ⟨-, hlt⟩
        · exact Nat.not_lt.mpr hmerged.fresh (h.leaf hold).1
        · exact Nat.lt_irrefl _ hlt
      · exact hnode.imp_right fun ⟨e'', he'', heq⟩ => ⟨e'', List.mem_append_left _ he'', heq⟩
      · intro a ha
        obtain rfl : top = a := Option.some.inj ha
        exact Nat.le_refl _

/-- A raised node is merged on top. What is picked then has been picked before. -/
theorem raiseOnce (h : s.Climbs r bottom leaves es) {node root : ConstituentId} {last : Shown}
    {pair : FeatureId × FeatureId} (hlast : last ∈ es.getLast?) (hnode : last.edgeNodes = [node])
    (hpair : s.store.checkingPair? s.used node root = some pair) :
    ∃ e next, (s.raiseOnce node root pair).1.Climbs r bottom leaves (es ++ [e]) ∧
      (s.raiseOnce node root pair).2 = some next ∧ e.edgeNodes = [next] := by
  have hmem : last ∈ es := List.mem_of_getLast? hlast
  obtain ⟨root', node', hroots, -, hedge, -, hon, hwhere, -⟩ := h.entry hmem
  obtain rfl : node' = node := by simpa [hedge] using hnode
  -- the silent leaf checks nothing, so the node was the root of a state
  have hbottom : node' ≠ bottom := by
    rintro rfl
    have hnone := (h.silent (List.ne_nil_of_mem hmem)).1.checkingPair?_eq_none
      (fun f hf => by rw [List.mem_singleton.mp hf]; rfl) s.used root
    rw [hpair] at hnone
    exact absurd hnone (by simp)
  obtain ⟨e', he', hroots'⟩ := hwhere.resolve_left hbottom
  obtain ⟨node, next, hroot', -, hagain, hdown, -, hnext, -⟩ := h.entry he'
  obtain rfl : node = node' := by simpa [hroot'] using hroots'
  obtain ⟨s', htree, hreport, hedges, hraise⟩ := s.exists_raiseOnce node root pair
  have hstore : s'.store =
      (s.store.mergeOnTop s.used node root).1.land node ⟨s.store.nextConstituent⟩ := by
    rw [store, htree]
  have hmerge := s.store.retains_mergeOnTop s.used node root
  have hland := (s.store.mergeOnTop s.used node root).1.retains_land node ⟨s.store.nextConstituent⟩
  rw [← hstore] at hland
  have htop :
      s.store.nextConstituent < (s.store.mergeOnTop s.used node root).1.nextConstituent := by
    rw [(s.store.next_mergeOnTop s.used node root).1]
    exact Nat.lt_succ_self _
  have hparts : s'.store.parts? ⟨s.store.nextConstituent⟩ = some [node, root] :=
    (hland.parts? htop).trans (s.store.parts?_mergeOnTop s.used node root)
  have hdown' : s'.store.LeadsDown leaves s.edges ⟨s.store.nextConstituent⟩ next :=
    .phrase (Nat.lt_of_lt_of_le htop hland.nextConstituent) hparts hon hdown.issued
      (hdown.mono (hmerge.trans hland) (fun x hx => hx) fun x hx => hx)
  obtain ⟨hsilent, hleaf⟩ := h.silent (List.ne_nil_of_mem hmem)
  have hmerged : s.IsMergedTo s' leaves leaves bottom ⟨s.store.nextConstituent⟩ next :=
    { shown := congrArg Report.shown hreport
      edges := hedges
      retains := hmerge.trans hland
      fresh := Nat.le_refl _
      keeps := id
      leaf := Or.inl
      silent := ⟨hsilent.retains (hmerge.trans hland), hleaf⟩
      down := hdown' }
  obtain ⟨e, hclimbs, hpicked, hedge', -⟩ := h.settle hmerged (fun _ => rfl) hnext
    (raiseMessage s.store pair) .internalMerge fun e hroots htype hedge' hstore' => by
      refine .phrase htype hlast ?_ hnode he' hroots' (hedge'.trans hagain.symm)
      rw [Shown.raising?, if_pos htype, hroots, hstore', List.head?_cons, Option.bind_some,
        Store.outline?_raisingGroup, Store.bind_head?_parts, hparts]
      rfl
  rw [hraise]
  exact ⟨e, next, hclimbs, hpicked, hedge'⟩

/-- The node on the edge is raised as long as it can check a feature of the root. -/
theorem raise (h : s.Climbs r bottom leaves es) {raising root : Option ConstituentId}
    {last : Shown} (hlast : last ∈ es.getLast?) (hraising : last.edgeNodes = raising.toList) :
    ∃ es', (s.raise raising root).Climbs r bottom leaves (es ++ es') := by
  fun_induction s.raise raising root generalizing es last with
  | case1 s node root hnone => exact ⟨[], by rwa [List.append_nil]⟩
  | case2 s node root pair hpair =>
    rename_i next ih
    obtain ⟨e, node', hnext, hnode', hedge⟩ := h.raiseOnce hlast hraising hpair
    obtain ⟨es', hrest⟩ := ih hnext (List.getLast?_concat ..) (by rw [hedge, hnode']; rfl)
    exact ⟨e :: es', by rwa [List.append_assoc] at hrest⟩
  | case3 s raising root _ => exact ⟨[], by rwa [List.append_nil]⟩

/-- Below a new word there is the root of the last state, or a silent leaf that is added. No state
has picked it. -/
theorem exists_below (h : s.Climbs r bottom leaves es) {store : Store} {leaf : ConstituentId}
    (hgrows : s.store.Retains store) (hleaf : s.store.nextConstituent ≤ leaf.index)
    (hissued : leaf.index < store.nextConstituent) :
    ∃ store' below bottom', (s.withStore store).below = (s.withStore store', below) ∧
      store.Retains store' ∧ below.index < store'.nextConstituent ∧
      (store'.HasFeatures bottom' [.categorial bottomCategory] ∧ bottom' ∉ leaf :: leaves ∧
        (es ≠ [] → bottom' = bottom)) ∧
      (below = bottom' ∨ ∃ e ∈ es, e.state.roots = [below]) ∧
      (∀ last ∈ es.getLast?, last.state.roots = [below]) ∧ ∀ e ∈ es, below ∉ e.edgeNodes := by
  have hroot := h.root
  rw [below]
  cases hlast : es.getLast? with
  | some last =>
    have hmem : last ∈ es := List.mem_of_getLast? hlast
    obtain ⟨root, node, hroots, -, -, hdown, -⟩ := h.entry hmem
    rw [hlast, Option.elim_some, hroots] at hroot
    have hroot' : s.root = some root := by
      cases hs : s.root <;> simp_all
    obtain ⟨hsilent, hbottom⟩ := h.silent (List.ne_nil_of_mem hmem)
    refine ⟨store, root, bottom, by simp only [withStore, hroot'], .refl store,
      Nat.lt_of_lt_of_le hdown.issued hgrows.nextConstituent,
      ⟨hsilent.retains hgrows, ?_, fun _ => rfl⟩, Or.inr ⟨last, hmem, hroots⟩, ?_, ?_⟩
    · refine List.not_mem_cons_of_ne_of_not_mem ?_ hbottom
      rintro rfl
      exact Nat.not_lt.mpr hleaf hsilent.node
    · intro _ hlast'
      rw [← Option.some.inj hlast', hroots]
    · -- what a state has picked is older than its root
      intro e he hpicked
      obtain ⟨root', node', -, -, hedge, hdown', -, -, hle⟩ := h.entry he
      rw [hedge, List.mem_singleton] at hpicked
      subst hpicked
      exact Nat.not_lt.mpr (hle root hroot') hdown'.lt
  | none =>
    obtain rfl : es = [] := List.getLast?_eq_none_iff.mp hlast
    have hroot' : s.root = none := by
      cases hs : s.root <;> simp_all
    refine ⟨(store.addLeaf epsilon [.categorial bottomCategory]).1, ⟨store.nextConstituent⟩,
      ⟨store.nextConstituent⟩, ?_, store.retains_addLeaf .., ?_,
      ⟨store.hasFeatures_addLeaf .., ?_, fun hne => absurd rfl hne⟩, Or.inl rfl, by simp, by simp⟩
    · simp only [withStore, hroot']
      rfl
    · rw [Store.next_addLeaf]
      exact Nat.lt_succ_self _
    · refine List.not_mem_cons_of_ne_of_not_mem ?_ fun hmem => ?_
      · rintro rfl
        exact Nat.lt_irrefl _ hissued
      · exact Nat.not_lt.mpr hgrows.nextConstituent (h.leaf hmem).1

/-- A word is merged on top, and what can be raised is raised. -/
theorem addWord (h : s.Climbs r bottom leaves es) (word : String)
    (features : Option (List Feature)) :
    ∃ bottom' leaves' es', (s.addWord word features).Climbs r bottom' leaves' (es ++ es') := by
  -- the warning about an unknown word leaves the tree as it is
  generalize hsaid : (if features.isNone then s.log .warn ("unknown word " ++ word) else s) = s₁
  have h₁ : s₁.Climbs r bottom leaves es := by
    rw [← hsaid]
    split
    · exact { h with }
    · exact h
  generalize hleaf : (s₁.store.addLeaf word (features.getD [])).2 = leaf
  have hnew : leaf.index = s₁.store.nextConstituent := by rw [← hleaf]; rfl
  have hissued : leaf.index < (s₁.store.addLeaf word (features.getD [])).1.nextConstituent := by
    rw [Store.next_addLeaf, hnew]
    exact Nat.lt_succ_self _
  have hgrows := s₁.store.retains_addLeaf word (features.getD [])
  obtain ⟨store, below, bottom', hbelow, hgrows', hissued', hsilent, hwhere, hlast, hpicked⟩ :=
    h₁.exists_below hgrows (Nat.le_of_eq hnew.symm) hissued
  obtain ⟨s₂, htree, hreport, hedges, haddWord⟩ := exists_addWord hsaid hbelow
  rw [hleaf] at htree
  have hstore : s₂.store = (store.mergeOnTop s₁.used leaf below).1 := by
    rw [Sentence.store, htree]
  have hmerge := store.retains_mergeOnTop s₁.used leaf below
  rw [← hstore] at hmerge
  have hdown : s₂.store.LeadsDown (leaf :: leaves) s₁.edges ⟨store.nextConstituent⟩ below := by
    refine .word ?_ ?_ (List.mem_cons_self ..) hissued'
    · rw [hstore, (store.next_mergeOnTop s₁.used leaf below).1]
      exact Nat.lt_succ_self _
    · rw [hstore]
      exact store.parts?_mergeOnTop s₁.used leaf below
  have hmerged : s₁.IsMergedTo s₂ leaves (leaf :: leaves) bottom' ⟨store.nextConstituent⟩ below :=
    { shown := congrArg Report.shown hreport
      edges := hedges
      retains := (hgrows.trans hgrows').trans hmerge
      fresh := (hgrows.trans hgrows').nextConstituent
      keeps := List.mem_cons_of_mem _
      leaf := fun {x} hx => by
        rcases List.mem_cons.mp hx with rfl | hx
        · exact Or.inr ⟨Nat.le_of_eq hnew.symm, Nat.lt_of_lt_of_le hissued hgrows'.nextConstituent⟩
        · exact Or.inl hx
      silent := ⟨hsilent.1.retains hmerge, hsilent.2.1⟩
      down := hdown }
  obtain ⟨e, hclimbs, hpicked', hedge, -⟩ :=
    h₁.settle hmerged hsilent.2.2 hwhere word .externalMerge
    fun e _ htype hedge _ => .word htype hedge hlast hpicked
  -- the merge is one state, and every raising after it is one more
  obtain ⟨es', hrest⟩ := hclimbs.raise (List.getLast?_concat ..)
    (hedge.trans (congrArg Option.toList hpicked').symm)
  rw [haddWord]
  exact ⟨bottom', leaf :: leaves, e :: es', by rwa [List.append_assoc] at hrest⟩

end Climbs

end Sentence

namespace MonorailParser

open Sentence

variable {s : Sentence} {r : Report} {bottom : ConstituentId} {leaves : List ConstituentId}
  {es : List Shown}

theorem exists_climbs_readWords (p : MonorailParser) (h : s.Climbs r bottom leaves es) (n : Nat)
    (words : List String) :
    ∃ bottom' leaves' es', (p.readWords s n words).Climbs r bottom' leaves' (es ++ es') := by
  induction words generalizing s n bottom leaves es with
  | nil => exact ⟨bottom, leaves, [], by rwa [List.append_nil]⟩
  | cons word words ih =>
    have hasked : ({ s with report := s.report.ask.2 } : Sentence).Climbs r bottom leaves es :=
      { h with }
    rw [readWords]
    simp only
    split
    · exact ⟨bottom, leaves, [], by rw [List.append_nil]; exact { hasked with }⟩
    · obtain ⟨bottom₁, leaves₁, es₁, hword⟩ := hasked.addWord word (p.words.get? word)
      obtain ⟨bottom₂, leaves₂, es₂, hrest⟩ := ih hword (n + 1)
      exact ⟨bottom₂, leaves₂, es₁ ++ es₂, by rwa [List.append_assoc] at hrest⟩

/-- **The nodes are different exactly if none is raised.** Every state that a sentence adds is
shown, and shows one node to be picked. Below a new word this is the root of the state before, or a
silent leaf at the first word, and no state has picked it. If a node is raised, it is the one that
the state before has picked, it was the root of an earlier state, and what that state has picked is
picked again. -/
theorem nodup_edgeNodes_iff (p : MonorailParser) (words : List String) (t : DerivationTree) :
    (∀ id x, (p.parse words t).2.1.state? id = some x →
      t.state? id = some x ∨ ∃ e ∈ (p.parse words t).1.report.since p.report, e.state = x) ∧
    ShowsEdges ((p.parse words t).1.report.since p.report) ∧
    ((((p.parse words t).1.report.since p.report).flatMap Shown.edgeNodes).Nodup ↔
      ∀ e ∈ (p.parse words t).1.report.since p.report, e.state.type = .externalMerge) := by
  have hstart : ({ report := p.report, tree := t } : Sentence).Climbs p.report ⟨0⟩ [] [] :=
    { shown := (List.append_nil _).symm
      shows := showsEdges_nil
      root := rfl
      silent := fun hne => absurd rfl hne
      leaf := fun hx => absurd hx List.not_mem_nil
      edge := fun hx => absurd hx (by simp)
      entry := fun he => absurd he List.not_mem_nil }
  obtain ⟨bottom, leaves, es, hend⟩ := p.exists_climbs_readWords hstart 0 words
  have hpronounced :
      ({ report := p.report, tree := t } : Sentence).IsPronounced t p.report 0 [] [] :=
    { report := .refl _
      states := Or.inl
      pronounced := fun before e hbefore => absurd hbefore.length_le (by simp)
      spans := Store.spans_nil _
      stays := fun hroot => absurd hroot (by simp)
      begun := by simp }
  obtain ⟨k, -, n, nodes, es', hend', -⟩ := p.exists_isPronounced_readWords hpronounced 0 words
  rw [List.nil_append] at hend hend'
  have hshown (s : Sentence) : (announce s).report.shown = s.report.shown := by
    rw [announce]
    split <;> rfl
  have hsince : (p.parse words t).1.report.since p.report = es :=
    Report.since_eq ((congrArg Array.toList (hshown _)).trans hend.shown)
  obtain rfl : es' = es :=
    List.append_cancel_left (hend'.report.shown.symm.trans hend.shown)
  have htree :
      (p.parse words t).2.1 = (p.readWords { report := p.report, tree := t } 0 words).tree :=
    tree_announce _
  rw [hsince, htree]
  exact ⟨fun id x hx => hend'.states hx, hend.shows, hend.shows.nodup_iff⟩

/-- A parser whose first word, when the second one has been merged, is raised to check it. -/
def movingUp : MonorailParser where
  words :=
    Dict.ofList [("a", [.licensee "B", .categorial "A"]), ("b", [.selector "A", .categorial "B"])]

/-- The silent leaf 1 is picked below the first word. Below the second word the tree 2 of the first
one is picked, and raised. Then the way leads through it to the silent leaf again. -/
theorem nodup_edgeNodes_iff_movingUp :
    let es := (movingUp.parse ["a", "b"] {}).1.report.since movingUp.report
    es.flatMap Shown.edgeNodes = [⟨1⟩, ⟨2⟩, ⟨1⟩] ∧ ¬∀ e ∈ es, e.state.type = .externalMerge := by
  intro es
  have hnodes : es.flatMap Shown.edgeNodes = [⟨1⟩, ⟨2⟩, ⟨1⟩] := by decide +kernel
  refine ⟨hnodes, ?_⟩
  rw [← (movingUp.nodup_edgeNodes_iff ["a", "b"] {}).2.2, hnodes]
  decide

end MonorailParser

end MinimalistGrammar
