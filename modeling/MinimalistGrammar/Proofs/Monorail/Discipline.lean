import Mathlib.Data.List.Nodup
import MinimalistGrammar.Proofs.Monorail.Checks
import MinimalistGrammar.Proofs.Monorail.Stages

/-!
# The discipline of checking

Which checks have been made can be read off the states that are shown: each state shows the links
that its merge has set, and the earlier ones. So the discipline of checking is a property of the
states. A link leads from a selector, a licensee or an adjunct to a category of its name. A probe
makes one check, and a category that a selector or a licensee has found is not checked again. A node
is raised exactly if it has something to check, and makes one check then.

## Main definitions

* `Store.featuresSince`, `Store.linksSince` — the features that have been added, and their links.
* `Shown.newChecks`, `checksShown` — the checks that one state shows, and all states.
* `Shown.MayRaise` — the node that a state has picked has something to check at its root.
* `ShowsChecks` — what a state shows behind other states of its sentence.
* `Sentence.IsTracked` — what is known of a sentence between two merges.
* `Sentence.MergedFrom` — what a merge has changed of it.

## Main results

* `Shown.newChecks_eq` — a state shows the check that has been made.
* `Sentence.IsTracked.mergeWord`, `Sentence.IsTracked.mergeAgain` — the two kinds of merges.
* `MonorailParser.showsChecks_parse` — **every state of a sentence keeps the discipline.**
-/

namespace MinimalistGrammar

namespace Store

variable {start s : Store} {edges : IdentSet .constituent} {id node : ConstituentId}
  {a b : FeatureId}

/-- The features that have been added since the store `start`. -/
def featuresSince (s start : Store) : List FeatureId :=
  (List.range' start.nextFeature (s.nextFeature - start.nextFeature)).map Ident.mk

theorem mem_featuresSince_iff : a ∈ s.featuresSince start ↔ start.Added s (.feature a) := by
  have hadded : start.Added s (.feature a) ↔
      ¬a.index < start.nextFeature ∧ a.index < s.nextFeature := Iff.rfl
  rw [featuresSince, List.mem_map, hadded]
  constructor
  · rintro ⟨i, hi, rfl⟩
    have hrange := List.mem_range'_1.mp hi
    dsimp only
    omega
  · intro hrange
    exact ⟨a.index, List.mem_range'_1.mpr (by omega), rfl⟩

theorem nodup_featuresSince (s start : Store) : (s.featuresSince start).Nodup :=
  List.Nodup.map (fun _ _ => Ident.mk.inj) List.nodup_range'

/-- The links to goals of the features that have been added since the store `start`. -/
def linksSince (s start : Store) : List (FeatureId × FeatureId) :=
  (s.featuresSince start).filterMap fun fid => (s.checks? fid).map fun goal => (fid, goal)

theorem mem_linksSince_iff :
    (a, b) ∈ s.linksSince start ↔ start.Added s (.feature a) ∧ s.checks? a = some b := by
  rw [linksSince, List.mem_filterMap]
  constructor
  · rintro ⟨fid, hfid, heq⟩
    obtain ⟨goal, hgoal, heq⟩ := Option.map_eq_some_iff.mp heq
    obtain ⟨rfl, rfl⟩ := Prod.mk.inj heq
    exact ⟨mem_featuresSince_iff.mp hfid, hgoal⟩
  · rintro ⟨hadded, hchecks⟩
    exact ⟨a, mem_featuresSince_iff.mpr hadded, by rw [hchecks, Option.map_some]⟩

theorem nodup_linksSince (s start : Store) : (s.linksSince start).Nodup := by
  refine (s.nodup_featuresSince start).filterMap fun fid fid' c hc hc' => ?_
  obtain ⟨goal, -, hgoal⟩ := Option.map_eq_some_iff.mp hc
  obtain ⟨goal', -, hgoal'⟩ := Option.map_eq_some_iff.mp hc'
  exact (Prod.mk.inj (hgoal.trans hgoal'.symm)).1

/-- A node that may be raised has been added if the root has been. -/
theorem Confines.added_of_nextEdge (h : start.Confines s) (hid : start.Added s (.constituent id))
    (hnode : (s.nextEdge edges id).1 = some node) : start.Added s (.constituent node) := by
  have hparts {id part : ConstituentId} {parts : List ConstituentId}
      (hid : start.Added s (.constituent id))
      (hparts : (s.constituent? id).map (·.parts) = some parts) (hpart : part ∈ parts) :
      start.Added s (.constituent part) :=
    (h.parts hid ((s.parts?_eq id).trans hparts) hpart).1
  fun_induction s.nextEdge edges id with
  | case1 id left right heq hedge hlt ih => exact ih (hparts hid heq (List.mem_cons_self ..)) hnode
  | case2 id left right heq hedge hlt => exact absurd hnode (by simp)
  | case3 id left right heq hedge =>
    rw [← Option.some.inj hnode]
    exact hparts hid heq (List.mem_cons_of_mem _ (List.mem_singleton_self _))
  | case4 id _ => exact absurd hnode (by simp)

end Store

/-! ### What states show -/

variable {start : Store} {made : List (FeatureId × FeatureId)} {before es : List Shown} {e : Shown}

/-- The checks that a state shows for the first time, when some have been made before. -/
def Shown.newChecks (e : Shown) (start : Store) (made : List (FeatureId × FeatureId)) :
    List (FeatureId × FeatureId) :=
  (e.store.linksSince start).filter (· ∉ made)

/-- A state shows the check that has been made. -/
theorem Shown.newChecks_eq {pair : Option (FeatureId × FeatureId)}
    (h : start.ChecksOnce e.store (made ++ pair.toList)) :
    e.newChecks start made = pair.toList := by
  have hmem {c : FeatureId × FeatureId} : c ∈ e.newChecks start made ↔ c ∈ pair.toList := by
    rw [newChecks, List.mem_filter, Store.mem_linksSince_iff, ← h.linked, List.mem_append,
      decide_eq_true_eq]
    refine ⟨fun hc => hc.1.resolve_left hc.2, fun hc => ⟨Or.inr hc, fun hold => ?_⟩⟩
    -- a new check is of another probe
    have hnodup := h.once
    rw [List.map_append, List.nodup_append] at hnodup
    exact hnodup.2.2 c.1 (List.mem_map_of_mem hold) c.1 (List.mem_map_of_mem hc) rfl
  have hnodup : (e.newChecks start made).Nodup := (e.store.nodup_linksSince start).filter _
  cases pair with
  | none =>
    exact List.eq_nil_iff_forall_not_mem.mpr fun c hc => absurd (hmem.mp hc) List.not_mem_nil
  | some c =>
    refine List.perm_singleton.mp
      ((List.perm_ext_iff_of_nodup hnodup (List.nodup_singleton c)).mpr ?_)
    exact fun c' => hmem

/-- The checks that some states show, in order. -/
def checksShown (start : Store) (es : List Shown) : List (FeatureId × FeatureId) :=
  es.foldl (fun made e => made ++ e.newChecks start made) []

@[simp] theorem checksShown_nil (start : Store) : checksShown start [] = [] := rfl

theorem checksShown_concat (start : Store) (es : List Shown) (e : Shown) :
    checksShown start (es ++ [e]) = checksShown start es ++ e.newChecks start
      (checksShown start es) := by
  rw [checksShown, List.foldl_append]
  rfl

/-- The node that a state has picked has a feature that may check one of the root. -/
def Shown.MayRaise (e : Shown) (made : List (FeatureId × FeatureId)) : Prop :=
  ∃ node ∈ e.edgeNodes, ∃ root ∈ e.state.roots, ∃ probe goal, e.store.MayCheck made node root
    probe goal

/-- What a state shows that comes behind other states of its sentence. -/
structure ShowsChecks (start : Store) (before : List Shown) (e : Shown) : Prop where
  /-- The links are those of the checks that have been shown. -/
  checks : start.ChecksOnce e.store (checksShown start (before ++ [e]))
  /-- A node is raised exactly if the one that has been picked has something to check. -/
  raises : e.state.type = .internalMerge ↔
    ∃ last ∈ before.getLast?, last.MayRaise (checksShown start before)
  /-- The root has been merged of two nodes. If one of them has been raised, it is the one that has
  been picked, and a check has been made. -/
  merges : ∃ top left right, e.state.roots = [top] ∧
    e.store.IsMerged (checksShown start before) (e.newChecks start (checksShown start before))
      top left right ∧
    (e.state.type = .internalMerge → (e.newChecks start (checksShown start before)).length = 1 ∧
      ∃ last ∈ before.getLast?, last.edgeNodes = [left] ∧ last.state.roots = [right])

namespace Sentence

variable {s s' : Sentence} {raising : Option ConstituentId}
  {left right top node root : ConstituentId}

/-! ### From one state to the next -/

/-- What is known of a sentence between two merges: the set of used features agrees with the checks
that have been shown, and the last state shows the store, the node that has been picked and the
root. -/
structure IsTracked (start : Store) (s : Sentence) (raising : Option ConstituentId)
    (es : List Shown) :
    Prop where
  confines : start.Confines s.store
  tracks : start.Tracks s.store s.used (checksShown start es)
  root {root : ConstituentId} : s.root = some root → start.Added s.store (.constituent root)
  picked {node : ConstituentId} : raising = some node → start.Added s.store (.constituent node)
  last {e : Shown} : e ∈ es.getLast? →
    e.store = s.store ∧ e.edgeNodes = raising.toList ∧ e.state.roots = s.root.toList
  begun : es = [] → raising = none
  shows : ∀ before e, before ++ [e] <+: es → ShowsChecks start before e

theorem isTracked_start (report : Report) (t : DerivationTree) :
    ({ report, tree := t } : Sentence).IsTracked t.store none [] where
  confines := .refl t.store
  tracks := .refl t.store
  root h := absurd h (by simp)
  picked h := absurd h (by simp)
  last h := absurd h (by simp)
  begun _ := rfl
  shows := forall_behind_nil

/-- Nothing can be raised exactly if the last state has nothing to raise. -/
theorem IsTracked.isAtRest_iff (h : s.IsTracked start raising es) :
    s.IsAtRest raising ↔ ¬∃ last ∈ es.getLast?, last.MayRaise (checksShown start es) := by
  constructor
  · rintro hrest ⟨last, hlast, node, hnode, root, hroot, probe, goal, hcheck⟩
    obtain ⟨hstore, hedges, hroots⟩ := h.last hlast
    rw [hedges, Option.mem_toList] at hnode
    rw [hroots, Option.mem_toList] at hroot
    rw [hstore] at hcheck
    exact h.tracks.checkingPair?_eq_none_iff.mp (hrest node hnode root hroot) probe goal hcheck
  · intro hnone node hnode root hroot
    cases hlast : es.getLast? with
    | none =>
      have hraising := h.begun (List.getLast?_eq_none_iff.mp hlast)
      rw [hraising] at hnode
      exact absurd hnode (by simp)
    | some last =>
      obtain ⟨hstore, hedges, hroots⟩ := h.last hlast
      refine h.tracks.checkingPair?_eq_none_iff.mpr fun probe goal hcheck => hnone ⟨last, hlast, ?_⟩
      refine ⟨node, ?_, root, ?_, probe, goal, hstore ▸ hcheck⟩
      · rw [hedges, Option.mem_toList]
        exact hnode
      · rw [hroots, Option.mem_toList]
        exact hroot

/-- The sentence `s'` has come from a merge of two nodes of a store. The left one may have landed at
the new node. -/
structure MergedFrom (s' : Sentence) (start store : Store) (used : IdentSet .feature)
    (made : List (FeatureId × FeatureId)) (left right top : ConstituentId) : Prop where
  confines : start.Confines store
  tracks : start.Tracks store used made
  added_left : start.Added store (.constituent left)
  added_right : start.Added store (.constituent right)
  store_eq : s'.store = (store.mergeOnTop used left right).1 ∨
    s'.store = (store.mergeOnTop used left right).1.land left top
  used_eq : s'.used = (store.mergeOnTop used left right).2.1
  top_eq : top = ⟨store.nextConstituent⟩

namespace MergedFrom

variable {store : Store} {used : IdentSet .feature}

/-- The landing does not count. -/
theorem coincides (h : s'.MergedFrom start store used made left right top) :
    (store.mergeOnTop used left right).1.Coincides s'.store := by
  rcases h.store_eq with heq | heq
  · rw [heq]
    exact .refl _
  · rw [heq]
    exact Store.coincides_land ..

/-- The check of the merge, if there is one, has been made. -/
theorem tracked (h : s'.MergedFrom start store used made left right top) : start.Confines s'.store ∧
    start.Tracks s'.store s'.used (made ++ (store.checkingPair? used left right).toList) := by
  refine ⟨(h.confines.mergeOnTop h.tracks h.added_left h.added_right).congr h.coincides, ?_⟩
  rw [h.used_eq]
  exact (h.tracks.mergeOnTop h.confines h.added_left h.added_right).congr
    h.coincides.nextConstituent h.coincides.features h.coincides.feature?

theorem lt_next (h : s'.MergedFrom start store used made left right top) :
    top.index < (store.mergeOnTop used left right).1.nextConstituent := by
  rw [h.top_eq, (store.next_mergeOnTop used left right).1]
  exact Nat.lt_succ_self _

theorem added_top (h : s'.MergedFrom start store used made left right top) :
    start.Added s'.store (.constituent top) := by
  refine ⟨?_, Nat.lt_of_lt_of_le h.lt_next h.coincides.nextConstituent⟩
  rw [h.top_eq]
  exact Nat.not_lt.mpr h.confines.nextConstituent

/-- The node on top is seen in every store that differs in what does not count. -/
theorem isMerged (h : s'.MergedFrom start store used made left right top) {shown : Store}
    (hshown : s'.store.Coincides shown) :
    shown.IsMerged made (store.checkingPair? used left right).toList top left right := by
  have hmerge := (store.retains_mergeOnTop used left right).nextConstituent
  have hmerged := h.tracks.isMerged_mergeOnTop h.confines h.added_left h.added_right
  rw [← h.top_eq] at hmerged
  exact hmerged.congr (h.coincides.trans hshown) h.lt_next
    (Nat.lt_of_lt_of_le h.added_left.2 hmerge) (Nat.lt_of_lt_of_le h.added_right.2 hmerge)

end MergedFrom

/-- A merge is shown, and the next node is picked. -/
theorem IsTracked.settle (h : s.IsTracked start raising es) {store : Store}
    (hmerged : s'.MergedFrom start store s.used (checksShown start es) left right top)
    (message : String) (type : StateType)
    (hraises : type = .internalMerge ↔ ∃ last ∈ es.getLast?, last.MayRaise (checksShown start es))
    (hraised : type = .internalMerge → (store.checkingPair? s.used left right).isSome ∧
      ∃ last ∈ es.getLast?, last.edgeNodes = [left] ∧ last.state.roots = [right]) :
    (s'.settle top message type).1.IsTracked start (s'.settle top message type).2
      (es ++ [s'.shownAt top message type]) := by
  obtain ⟨hconfines, htracks⟩ := hmerged.tracked
  have hgroup : s'.store.Coincides (s'.settle top message type).1.store :=
    s'.store.coincides_raisingGroup (s'.store.nextEdge s'.edges top).1
  have hshown : (s'.shownAt top message type).store = (s'.settle top message type).1.store := rfl
  have hadded {id : ConstituentId} (hid : start.Added s'.store (.constituent id)) :
      start.Added (s'.settle top message type).1.store (.constituent id) :=
    hid.mono hgroup.nextConstituent hgroup.nextFeature
  have htracks' : start.Tracks (s'.settle top message type).1.store s'.used
      (checksShown start es ++ (store.checkingPair? s.used left right).toList) :=
    htracks.congr hgroup.nextConstituent hgroup.features hgroup.feature?
  -- the checks that are new in the state shown are those of the merge
  have hnew : (s'.shownAt top message type).newChecks start (checksShown start es) =
      (store.checkingPair? s.used left right).toList :=
    Shown.newChecks_eq (hshown ▸ htracks'.checksOnce)
  have hchecks : checksShown start (es ++ [s'.shownAt top message type]) =
      checksShown start es ++ (store.checkingPair? s.used left right).toList := by
    rw [checksShown_concat, hnew]
  refine ⟨hconfines.congr hgroup, hchecks ▸ htracks', fun {root} hroot => ?root,
    fun {node} hnode => ?picked, fun {e} he => ?last, fun hnil => absurd hnil (by simp),
    forall_behind_concat_iff.mpr ⟨h.shows, ?shows⟩⟩
  case root =>
    rw [← Option.some.inj hroot]
    exact hadded hmerged.added_top
  case picked => exact hadded (hconfines.added_of_nextEdge hmerged.added_top hnode)
  case last =>
    rw [List.getLast?_concat] at he
    obtain rfl := Option.some.inj he
    exact ⟨rfl, s'.edgeNodes_shownAt top message type, rfl⟩
  case shows =>
    refine ⟨?_, hraises, top, left, right, rfl, ?_, fun htype => ?_⟩
    · rw [hchecks, hshown]
      exact htracks'.checksOnce
    · rw [hnew, hshown]
      exact hmerged.isMerged hgroup
    · obtain ⟨hpair, hlast⟩ := hraised htype
      obtain ⟨pair, hpair⟩ := Option.isSome_iff_exists.mp hpair
      rw [hnew, hpair]
      exact ⟨rfl, hlast⟩

/-- The leaf of a word is merged on top of the root so far, or of a silent leaf that is added. -/
theorem IsTracked.exists_mergeWord (h : s.IsTracked start raising es) {word : String}
    {features : List Feature} (hmerge : s.mergeWord word features = (s', top)) : ∃ store below,
    (store = (s.store.addLeaf word features).1 ∨
      store = ((s.store.addLeaf word features).1.addLeaf epsilon [.categorial bottomCategory]).1) ∧
    s'.store = (store.mergeOnTop s.used (s.store.addLeaf word features).2 below).1 ∧
    s'.MergedFrom start store s.used (checksShown start es) (s.store.addLeaf word features).2 below
      top := by
  obtain ⟨hconfines, hleaf⟩ := h.confines.addLeaf h.tracks.nextFeature word features
  have htracks := h.tracks.addLeaf word features
  have hgrows := s.store.retains_addLeaf word features
  -- whatever is below, the word is merged with it when it has been added
  have hmerged {store : Store} {below : ConstituentId} (hconfines : start.Confines store)
      (htracks : start.Tracks store s.used (checksShown start es))
      (hleaf : start.Added store (.constituent (s.store.addLeaf word features).2))
      (hadded : start.Added store (.constituent below))
      (hbelow :
        (s.withStore (s.store.addLeaf word features).1).below = (s.withStore store, below)) :
      s'.store = (store.mergeOnTop s.used (s.store.addLeaf word features).2 below).1 ∧
      s'.MergedFrom start store s.used (checksShown start es)
        (s.store.addLeaf word features).2 below top := by
    have heq : (s.withStore store).merge (s.store.addLeaf word features).2 below = (s', top) := by
      rw [← hmerge, Sentence.mergeWord]
      simp only [hbelow]
    have hstore := (congrArg (·.1.store) heq).symm
    exact ⟨hstore, hconfines, htracks, hleaf, hadded, Or.inl hstore, (congrArg (·.1.used) heq).symm,
      (congrArg (·.2) heq).symm.trans (store.top_mergeOnTop ..)⟩
  cases hroot : s.root with
  | some root =>
    refine ⟨_, root, Or.inl rfl, hmerged hconfines htracks hleaf ?_ ?_⟩
    · exact (h.root hroot).mono hgrows.nextConstituent hgrows.nextFeature
    · rw [below]
      simp only [withStore, hroot]
  | none =>
    have hgrows' :=
      (s.store.addLeaf word features).1.retains_addLeaf epsilon [.categorial bottomCategory]
    obtain ⟨hconfines', hbottom⟩ :=
      hconfines.addLeaf htracks.nextFeature epsilon [.categorial bottomCategory]
    refine ⟨_, _, Or.inr rfl,
      hmerged hconfines' (htracks.addLeaf epsilon [.categorial bottomCategory])
      (hleaf.mono hgrows'.nextConstituent hgrows'.nextFeature) hbottom ?_⟩
    rw [below]
    simp only [withStore, hroot]
    rfl

/-- The leaf of a word is merged on top when nothing can be raised. -/
theorem IsTracked.mergeWord (h : s.IsTracked start raising es) (hrest : s.IsAtRest raising)
    (word : String) {features : List Feature} (hmerge : s.mergeWord word features = (s', top)) :
    (s'.settle top word .externalMerge).1.IsTracked start (s'.settle top word .externalMerge).2
      (es ++ [s'.shownAt top word .externalMerge]) := by
  obtain ⟨store, below, -, -, hmerged⟩ := h.exists_mergeWord hmerge
  refine h.settle hmerged word .externalMerge ?_ fun htype => absurd htype (by decide)
  exact iff_of_false (by decide) (h.isAtRest_iff.mp hrest)

/-- A node that is raised lands at the new one. -/
theorem store_of_mergeAgain (h : s.mergeAgain node root = (s', top)) :
    s'.store = (s.store.mergeOnTop s.used node root).1.land node top ∧
      s'.used = (s.store.mergeOnTop s.used node root).2.1 ∧ top = ⟨s.store.nextConstituent⟩ := by
  obtain ⟨rfl, rfl⟩ := Prod.mk.inj h
  exact ⟨rfl, rfl, s.store.top_mergeOnTop s.used node root⟩

/-- The node that has been picked is merged on top when it has something to check. -/
theorem IsTracked.mergeAgain (h : s.IsTracked start (some node) es) (hroot : s.root = some root)
    {pair : FeatureId × FeatureId} (hpair : s.store.checkingPair? s.used node root = some pair)
    (hmerge : s.mergeAgain node root = (s', top)) (message : String) :
    (s'.settle top message .internalMerge).1.IsTracked start
      (s'.settle top message .internalMerge).2 (es ++ [s'.shownAt top message .internalMerge]) := by
  have hraise : ¬s.IsAtRest (some node) := by
    intro hrest
    have hnone := hrest node rfl root hroot
    rw [hpair] at hnone
    exact absurd hnone (by simp)
  obtain ⟨last, hlast, hmay⟩ := not_not.mp (h.isAtRest_iff.not.mp hraise)
  obtain ⟨-, hedges, hroots⟩ := h.last hlast
  rw [hroot] at hroots
  obtain ⟨hstore, hused, htop⟩ := store_of_mergeAgain hmerge
  refine h.settle ⟨h.confines, h.tracks, h.picked rfl, h.root hroot, Or.inr hstore, hused,
    htop⟩ message .internalMerge (iff_of_true rfl ⟨last, hlast, hmay⟩) fun _ => ?_
  exact ⟨Option.isSome_iff_exists.mpr ⟨pair, hpair⟩, last, hlast, hedges, hroots⟩

end Sentence

namespace MonorailParser

open Sentence

variable {p : MonorailParser} {t : DerivationTree} {read : List String} {s : Sentence}
  {raising : Option ConstituentId}

theorem Reaches.isTracked (h : p.Reaches t read s raising es) : s.IsTracked t.store raising es := by
  induction h with
  | start => exact isTracked_start ..
  | said _ report _ ih => exact { ih with }
  | word _ hrest word hmerge ih => exact ih.mergeWord hrest word hmerge
  | raise _ hroot hpair hmerge ih => exact ih.mergeAgain hroot hpair hmerge _

/-- **Every state of a sentence keeps the discipline.** All states that are added are shown. The
links of each of them are those of the checks that have been shown so far. Each leads from a
selector, a licensee or an adjunct to a category of its name, and no feature finds two. A category
that is found again has only been found by adjuncts. A node is raised exactly if the one that has
been picked has a feature left that finds a category left at the root, and so none has in the end.
Then one check is made. A merged node has the features of its head that are not used up, each of
them once. -/
theorem showsChecks_parse (p : MonorailParser) (words : List String) (t : DerivationTree) :
    (∀ id x, (p.parse words t).2.1.state? id = some x →
      t.state? id = some x ∨ ∃ e ∈ (p.parse words t).1.report.since p.report, e.state = x) ∧
    (∀ before e, before ++ [e] <+: (p.parse words t).1.report.since p.report →
      ShowsChecks t.store before e) ∧
    ¬∃ last ∈ ((p.parse words t).1.report.since p.report).getLast?,
      last.MayRaise (checksShown t.store ((p.parse words t).1.report.since p.report)) := by
  obtain ⟨k, -, s, raising, hend, hrest, heq⟩ := p.exists_reaches_parse words t
  have htracked := hend.isTracked
  refine ⟨fun id x hx => ?_, htracked.shows, htracked.isAtRest_iff.mp hrest⟩
  rw [heq] at hx
  exact hend.states hx

/-- A parser with a noun, an adjunct of nouns and a verb that selects one. -/
def adjoining : MonorailParser where
  words := Dict.ofList [("noun", [.categorial "N"]), ("adjunct", [.adjunct "N"]),
    ("verb", [.selector "N", .categorial "V"])]

/-- Two adjuncts find the category of the noun, and the verb consumes it. The third adjunct finds
nothing. -/
example :
    checksShown {}
      ((adjoining.parse ["noun", "adjunct", "adjunct", "verb", "adjunct"] {}).1.report.since {}) =
      [(⟨2⟩, ⟨0⟩), (⟨3⟩, ⟨0⟩), (⟨4⟩, ⟨0⟩)] := by
  decide +kernel

end MonorailParser

end MinimalistGrammar
