import MinimalistGrammar.Proofs.Monorail.Run
import MinimalistGrammar.Proofs.Tree.Pronunciation

/-!
# The monorail parser pronounces every word once

Every word is one leaf of the tree of a sentence. A merge puts a new node above two others, and a
node that is raised is no longer pronounced where it was. So every node but the root is pronounced
below exactly one other node, however often phrases are raised, and in every tree that is shown the
words read so far are pronounced once.

## Main definitions

* `wordsRead` — the words that some states show to be read.
* `ArePronounced` — each state pronounces each word read so far once.
* `Sentence.IsPronounced` — what holds of a sentence between two words.

## Main results

* `Sentence.IsPronounced.raiseOnce`, `Sentence.IsPronounced.addWord` — one merge more, and one word
  more.
* `MonorailParser.exists_pronounced_parse` — a whole sentence.
-/

namespace MinimalistGrammar

variable {t : DerivationTree} {r r' : Report} {n : Nat} {es es' : List Shown}
  {nodes : List ConstituentId} {root node : ConstituentId}

/-! ### Reports -/

/-- The words that some states show to be read. -/
def wordsRead (es : List Shown) : List String :=
  (es.filter (·.state.type = .externalMerge)).map (·.state.message)

theorem wordsRead_append (es es' : List Shown) :
    wordsRead (es ++ es') = wordsRead es ++ wordsRead es' := by
  rw [wordsRead, List.filter_append, List.map_append, wordsRead, wordsRead]

/-- What each of some states shows behind the ones before it, and the next state behind all of
them. -/
theorem forall_behind_concat_iff {P : List Shown → Shown → Prop} {last : Shown} :
    (∀ before e, before ++ [e] <+: es ++ [last] → P before e) ↔
      (∀ before e, before ++ [e] <+: es → P before e) ∧ P es last := by
  constructor
  · intro h
    exact ⟨fun before e hbefore => h before e (hbefore.trans (List.prefix_append ..)),
      h es last (List.prefix_refl _)⟩
  · rintro ⟨hold, hlast⟩ before e hbefore
    rcases List.prefix_concat_iff.mp hbefore with heq | hbefore
    · obtain ⟨rfl, rfl⟩ := List.append_singleton_inj.mp heq
      exact hlast
    · exact hold before e hbefore

theorem forall_behind_nil {P : List Shown → Shown → Prop} (before : List Shown) (e : Shown)
    (hbefore : before ++ [e] <+: []) : P before e :=
  absurd hbefore.length_le (by simp)

/-- Each of some states shows one tree, in which each of the words read so far is pronounced
once. -/
def ArePronounced (es : List Shown) : Prop :=
  ∀ before e, before ++ [e] <+: es → ∃ root, e.state.roots = [root] ∧
    (e.store.linearize root).Perm ((wordsRead (before ++ [e])).flatMap tokens)

/-- A report goes on from an earlier one: some states have been shown since then, and those who
watch have been asked `n` times. -/
structure Report.GoesOn (r r' : Report) (n : Nat) (es : List Shown) : Prop where
  shown : r'.shown.toList = r.shown.toList ++ es
  stops : r'.stops = r.stops
  asked : r'.asked = r.asked + n

namespace Report.GoesOn

theorem refl (r : Report) : r.GoesOn r 0 [] := ⟨(List.append_nil _).symm, rfl, rfl⟩

theorem log (h : r.GoesOn r' n es) (level : Level) (text : String) :
    r.GoesOn (r'.log level text) n es :=
  ⟨h.shown, h.stops, h.asked⟩

theorem ask (h : r.GoesOn r' n es) : r.GoesOn r'.ask.2 (n + 1) es :=
  ⟨h.shown, h.stops, congrArg (· + 1) h.asked⟩

/-- A new state is shown. -/
theorem present (h : r.GoesOn r' n es) (s : Store) (step : Step) (parent : Option StateId) :
    r.GoesOn (r'.present ({ t with store := s }.addStep step parent).1) n
      (es ++ [t.newEntry s step parent]) where
  shown := by
    rw [DerivationTree.shown_present_addStep, Array.toList_push, h.shown, List.append_assoc]
  stops := by
    rw [← h.stops, Report.present]
    split <;> rfl
  asked := by
    rw [← h.asked, Report.present]
    split <;> rfl

end Report.GoesOn

namespace Store

variable {s : Store} {words : List String}

/-- The node on the edge of a tree is a part of an older node of the tree. -/
theorem Spans.older_of_nextEdge {roots : List ConstituentId} (h : s.Spans nodes roots words)
    {edges : IdentSet .constituent} {id : ConstituentId} (hid : id ∈ nodes)
    (hnode : (s.nextEdge edges id).1 = some node) : node ∈ nodes ∧ node.index < id.index := by
  have holder {id part : ConstituentId} {parts : List ConstituentId} (hid : id ∈ nodes)
      (hparts : (s.constituent? id).map (·.parts) = some parts) (hpart : part ∈ parts) :
      part ∈ nodes ∧ part.index < id.index := by
    obtain ⟨c, hc, rfl⟩ := Option.map_eq_some_iff.mp hparts
    exact h.older hid (outline?_eq hc) hpart
  fun_induction s.nextEdge edges id with
  | case1 id left right hparts hedge hlt ih =>
    obtain ⟨hmem, hlt'⟩ := ih (holder hid hparts (List.mem_cons_self ..)).1 hnode
    exact ⟨hmem, Nat.lt_trans hlt' hlt⟩
  | case2 id left right hparts hedge hlt => exact absurd hnode (by simp)
  | case3 id left right hparts hedge =>
    rw [← Option.some.inj hnode]
    exact holder hid hparts (List.mem_cons_of_mem _ (List.mem_singleton_self _))
  | case4 id _ => exact absurd hnode (by simp)

/-- A merge adds the node on top. -/
theorem exists_forall_outline?_mergeOnTop (s : Store) (used : IdentSet .feature)
    (left right : ConstituentId) : ∃ label features, ∀ id,
    (s.mergeOnTop used left right).1.outline? id =
      if id = ⟨s.nextConstituent⟩ then some ⟨label, [left, right], features,
        none⟩ else s.outline? id := by
  obtain ⟨head, label, features, -, -, heq, -⟩ := s.exists_mergeOnTop used left right
  refine ⟨label, features, ?_⟩
  intro id
  rw [heq, outline?_setHead, outline?_addNode, (s.next_checked used left right).1]
  rcases s.checked_cases used left right with hnone | ⟨pair, -, hpair⟩
  · rw [hnone]
    rfl
  · rw [hpair]
    rfl

/-- A merge of two roots makes one tree of them. -/
theorem Spans.mergeOnTop {left right : ConstituentId} (h : s.Spans nodes [left, right] words)
    (hleft : s.landing? left = none) (hright : s.landing? right = none) (used : IdentSet .feature) :
    (s.mergeOnTop used left right).1.Spans (⟨s.nextConstituent⟩ :: nodes)
      [⟨s.nextConstituent⟩] words ∧
      (s.mergeOnTop used left right).1.landing? ⟨s.nextConstituent⟩ = none := by
  obtain ⟨label, features, houtline⟩ := s.exists_forall_outline?_mergeOnTop used left right
  refine ⟨?_, by rw [landing?, houtline, if_pos rfl]; rfl⟩
  refine h.add (o := ⟨label, [left, right], features, none⟩) rfl ?_ houtline fun part hpart =>
    Or.inl ?_
  · rw [(s.next_mergeOnTop used left right).1]
    exact Nat.lt_succ_self _
  · rcases List.mem_pair.mp hpart with rfl | rfl
    · exact hleft
    · exact hright

/-- A node of a tree that is merged on top of it and lands there leaves one tree. -/
theorem Spans.raise (h : s.Spans nodes [root] words) (hroot : s.landing? root = none)
    (hnode : node ∈ nodes) (hne : node ≠ root) (used : IdentSet .feature) :
    ((s.mergeOnTop used node root).1.land node ⟨s.nextConstituent⟩).Spans
        (⟨s.nextConstituent⟩ :: nodes) [⟨s.nextConstituent⟩] words ∧
      ((s.mergeOnTop used node root).1.land node ⟨s.nextConstituent⟩).landing? ⟨s.nextConstituent⟩ =
        none := by
  have hnew : (⟨s.nextConstituent⟩ : ConstituentId) ∉ nodes :=
    fun hmem => Nat.lt_irrefl _ (h.issued hmem)
  have hnew_ne : (⟨s.nextConstituent⟩ : ConstituentId) ≠ node := fun heq => hnew (heq ▸ hnode)
  obtain ⟨label, features, houtline⟩ := s.exists_forall_outline?_mergeOnTop used node root
  refine ⟨?_, by rw [landing?_land, if_neg hnew_ne, landing?, houtline, if_pos rfl]; rfl⟩
  -- the store is the same if the node lands first and is merged afterwards
  have hland : (s.land node ⟨s.nextConstituent⟩).Spans nodes [node, root] words :=
    h.land hnode (by simpa using hne) hnew
  apply hland.add (o := ⟨label, [node, root], features, none⟩) rfl
  · show s.nextConstituent < (s.mergeOnTop used node root).1.nextConstituent
    rw [(s.next_mergeOnTop used node root).1]
    exact Nat.lt_succ_self _
  · intro id
    rw [outline?_land, outline?_land, houtline]
    by_cases hid : id = ⟨s.nextConstituent⟩
    · rw [if_pos hid, if_neg (by rw [hid]; exact hnew_ne), if_pos hid]
    · rw [if_neg hid, if_neg hid]
  · intro part hpart
    obtain ⟨o, ho⟩ := h.known hnode
    rcases List.mem_pair.mp hpart with rfl | rfl
    · exact Or.inr (by rw [landing?_land, if_pos rfl, ho]; rfl)
    · exact Or.inl (by rw [landing?_land, if_neg (Ne.symm hne), hroot])

theorem next_addLeaf (s : Store) (label : String) (features : List Feature) :
    (s.addLeaf label features).1.nextConstituent = s.nextConstituent + 1 :=
  ((s.addNode { label }).1.addFeatures_spec ⟨s.nextConstituent⟩ features).2.2.2.2.1

/-- A leaf is a tree of its own. -/
theorem Spans.addLeaf {roots : List ConstituentId} (h : s.Spans nodes roots words) (label : String)
    (features : List Feature) :
    (s.addLeaf label features).1.Spans ((s.addLeaf label features).2 :: nodes)
      ((s.addLeaf label features).2 :: roots) (tokens label ++ words) := by
  refine h.add rfl ?_ (s.outline?_addLeaf label features) fun part hpart => absurd hpart
    List.not_mem_nil
  rw [next_addLeaf]
  exact Nat.lt_succ_self _

/-- A leaf has not landed, and nothing else lands when it is added. -/
theorem landing?_addLeaf (s : Store) (label : String) (features : List Feature)
    (id : ConstituentId) :
    (s.addLeaf label features).1.landing? id =
      if id = ⟨s.nextConstituent⟩ then none else s.landing? id := by
  rw [landing?, outline?_addLeaf, landing?]
  split <;> rfl

theorem Spans.raisingGroup {roots : List ConstituentId} (h : s.Spans nodes roots words)
    (raising : Option ConstituentId) :
    (Sentence.raisingGroup s raising).1.Spans nodes roots words :=
  h.congr (Nat.le_of_eq (s.next_raisingGroup raising).1.symm) fun id _ =>
    s.outline?_raisingGroup raising id

end Store

namespace Sentence

variable {s : Sentence}

/-! ### What a sentence has told -/

/-- What has been told of a sentence that was begun with the tree `t` and the report `r`, those who
watch having been asked `n` times: every state that was added is shown, and pronounces each word
read so far once. -/
structure Tells (t : DerivationTree) (r : Report) (s : Sentence) (n : Nat)
    (es : List Shown) : Prop where
  report : r.GoesOn s.report n es
  states {id : StateId} {x : SyntaxState} : s.tree.state? id = some x →
    t.state? id = some x ∨ ∃ e ∈ es, e.state = x
  pronounced : ArePronounced es

/-- A sentence whose tree consists of some nodes, each of them but the root pronounced below exactly
one other node, and whose leaves are the words read so far. -/
structure IsPronounced (t : DerivationTree) (r : Report) (s : Sentence) (n : Nat)
    (nodes : List ConstituentId) (es : List Shown) : Prop extends s.Tells t r n es where
  spans : s.store.Spans nodes s.root.toList ((wordsRead es).flatMap tokens)
  stays {root : ConstituentId} : s.root = some root → s.store.landing? root = none
  begun : s.root = none ↔ es = []

/-- Changing the store tells nothing. -/
theorem Tells.congr {s' : Sentence} (h : s.Tells t r n es) {store : Store}
    (htree : s'.tree = { s.tree with store := store }) (hreport : s'.report = s.report) :
    s'.Tells t r n es where
  report := hreport ▸ h.report
  states hx := h.states (by rwa [htree] at hx)
  pronounced := h.pronounced

/-- The state that is added for a merge. -/
theorem exists_settle (s : Sentence) (root : ConstituentId) (message : String) (type : StateType) :
    ∃ step : Step, step.roots = [root] ∧ step.message = message ∧ step.type = type ∧
      (s.settle root message type).1.tree = ({ s.tree with
        store := (raisingGroup s.store (s.settle root message type).2).1 }.addStep step s.last).1 ∧
      (s.settle root message type).1.report =
        (s.report.log .debug message).present (s.settle root message type).1.tree :=
  ⟨_, rfl, rfl, rfl, rfl, rfl⟩

/-- A tree in which each word is pronounced once is shown. -/
theorem Tells.settle (h : s.Tells t r n es) {root : ConstituentId} (message : String)
    (type : StateType) {words : List String}
    (hwords : words = wordsRead es ++ if type = .externalMerge then [message] else [])
    (hspans : s.store.Spans nodes [root] (words.flatMap tokens))
    (hstays : s.store.landing? root = none) :
    ∃ e, (s.settle root message type).1.IsPronounced t r n nodes (es ++ [e]) ∧
      wordsRead (es ++ [e]) = words ∧ ∀ node, (s.settle root message type).2 = some node →
        node ∈ nodes ∧ node ∉ (s.settle root message type).1.root.toList := by
  obtain ⟨step, hroots, hmessage, htype, htree, hreport⟩ := s.exists_settle root message type
  have hshown := hspans.raisingGroup (s.settle root message type).2
  have hstore : (s.settle root message type).1.store =
      (raisingGroup s.store (s.settle root message type).2).1 := congrArg DerivationTree.store htree
  generalize he :
      s.tree.newEntry (raisingGroup s.store (s.settle root message type).2).1 step s.last = e
  have hstate : e.state.toStep = step := by rw [← he]; rfl
  have hentry : e.store = (raisingGroup s.store (s.settle root message type).2).1 := by
    rw [← he]; rfl
  -- a state that shows a word merged reads this word, and every other state reads nothing
  have hread : wordsRead (es ++ [e]) = words := by
    rw [wordsRead_append, hwords, wordsRead, wordsRead, List.filter_singleton, hstate, htype]
    split
    · next hmerge => simp [hstate, hmessage, hmerge]
    · next hmerge => simp [hmerge]
  have htells : (s.settle root message type).1.Tells t r n (es ++ [e]) := by
    refine ⟨?_, ?_, ?_⟩
    · rw [hreport, htree, ← he]
      exact (h.report.log .debug message).present _ step s.last
    · intro id x hx
      rw [htree, DerivationTree.state?_addStep] at hx
      split at hx
      · exact Or.inr ⟨e, by simp, by rw [← he]; exact Option.some.inj hx⟩
      · rcases h.states hx with hold | ⟨e', he', heq⟩
        · exact Or.inl hold
        · exact Or.inr ⟨e', List.mem_append_left _ he', heq⟩
    · refine forall_behind_concat_iff.mpr ⟨h.pronounced, root, by rw [hstate, hroots], ?_⟩
      rw [hread, hentry]
      simpa using hshown.linearize_perm
  have hroot : (s.settle root message type).1.root = some root := rfl
  refine ⟨e, ⟨htells, ?_, ?_, ?_⟩, hread, ?_⟩
  · rw [hread, hstore]
    exact hshown
  · intro top htop
    obtain rfl := Option.some.inj htop
    rw [hstore, Store.landing?_congr (s.store.outline?_raisingGroup _ _), hstays]
  · simp [hroot]
  · intro node hnode
    -- what is picked is older than the root, so it is not the root itself
    obtain ⟨hmem, hlt⟩ :=
      hspans.older_of_nextEdge (hspans.mem_of_mem_roots (List.mem_singleton_self _)) hnode
    refine ⟨hmem, ?_⟩
    intro htop
    obtain rfl := List.mem_singleton.mp htop
    exact Nat.lt_irrefl _ hlt

/-! ### Merging -/

/-- A raised node is pronounced below the new root. -/
theorem IsPronounced.raiseOnce (h : s.IsPronounced t r n nodes es) {node root : ConstituentId}
    (hroot : s.root = some root) (hnode : node ∈ nodes ∧ node ∉ s.root.toList)
    (pair : FeatureId × FeatureId) :
    ∃ nodes' e, (s.raiseOnce node root pair).1.IsPronounced t r n nodes' (es ++ [e]) ∧
      wordsRead (es ++ [e]) = wordsRead es ∧
      ∀ next, (s.raiseOnce node root pair).2 = some next →
        next ∈ nodes' ∧ next ∉ (s.raiseOnce node root pair).1.root.toList := by
  have hspans := h.spans
  rw [hroot] at hspans
  obtain ⟨htop, hstays⟩ :=
    hspans.raise (h.stays hroot) hnode.1 (by simpa [hroot, eq_comm] using hnode.2) s.used
  obtain ⟨s', htree, hreport, -, hraise⟩ := s.exists_raiseOnce node root pair
  have hstore : s'.store =
      (s.store.mergeOnTop s.used node root).1.land node ⟨s.store.nextConstituent⟩ := by
    rw [store, htree]
  rw [← hstore] at htop hstays
  obtain ⟨e, hsettled, hread, hnext⟩ :=
    (h.congr htree hreport).settle (raiseMessage s.store pair) .internalMerge (by simp) htop hstays
  rw [hraise]
  exact ⟨_, e, hsettled, hread, hnext⟩

/-- Nodes are raised as long as they can check a feature of the root. -/
theorem IsPronounced.raise (h : s.IsPronounced t r n nodes es) {raising root : Option ConstituentId}
    (hroot : s.root = root)
    (hraising : ∀ node, raising = some node → node ∈ nodes ∧ node ∉ s.root.toList) :
    ∃ nodes' es', (s.raise raising root).IsPronounced t r n nodes' (es ++ es') ∧
      wordsRead (es ++ es') = wordsRead es := by
  fun_induction s.raise raising root generalizing nodes es with
  | case1 s node root hnone => exact ⟨nodes, [], by rwa [List.append_nil], by rw [List.append_nil]⟩
  | case2 s node root pair =>
    rename_i next ih
    obtain ⟨nodes', e, hnext, hread, hraising'⟩ := h.raiseOnce hroot (hraising node rfl) pair
    obtain ⟨nodes'', es', hrest, hread'⟩ := ih hnext rfl hraising'
    rw [List.append_assoc] at hrest hread'
    exact ⟨nodes'', e :: es', hrest, hread'.trans hread⟩
  | case3 s raising root _ => exact ⟨nodes, [], by rwa [List.append_nil], by rw [List.append_nil]⟩

/-- The node below a word is the root so far, or a leaf with no words. -/
theorem exists_below {s : Sentence} {leaf : ConstituentId} {words : List String}
    (hspans : s.store.Spans nodes (leaf :: s.root.toList) words)
    (hstays : ∀ id ∈ leaf :: s.root.toList, s.store.landing? id = none) :
    ∃ store below nodes', s.below = (s.withStore store, below) ∧
      store.Spans nodes' [leaf, below] words ∧
      store.landing? leaf = none ∧ store.landing? below = none := by
  rw [below]
  cases hroot : s.root with
  | some root =>
    rw [hroot] at hspans hstays
    exact ⟨s.store, root, nodes, rfl, hspans, hstays leaf (by simp), hstays root (by simp)⟩
  | none =>
    rw [hroot] at hspans hstays
    have hleaf := hspans.addLeaf epsilon [.categorial bottomCategory]
    have hlanding := s.store.landing?_addLeaf epsilon [.categorial bottomCategory]
    rw [tokens_of_isSilent (show isSilent epsilon = true by decide), List.nil_append] at hleaf
    refine ⟨(s.store.addLeaf epsilon [.categorial bottomCategory]).1,
      ⟨s.store.nextConstituent⟩, _, rfl, hleaf.perm (.swap ..) (.refl _), ?_, ?_⟩
    · rw [hlanding, hstays leaf (by simp), ite_self]
    · rw [hlanding, if_pos rfl]

/-- A word is pronounced once more. -/
theorem IsPronounced.addWord (h : s.IsPronounced t r n nodes es) (word : String)
    (features : Option (List Feature)) :
    ∃ nodes' es', (s.addWord word features).IsPronounced t r n nodes' (es ++ es') ∧
      wordsRead (es ++ es') = wordsRead es ++ [word] := by
  generalize hsaid : (if features.isNone then s.log .warn ("unknown word " ++ word) else s) = s₁
  have h₁ : s₁.IsPronounced t r n nodes es := by
    rw [← hsaid]
    split
    · exact { h with report := h.report.log .. }
    · exact h
  -- the leaf of the word and the tree so far are two trees
  have hleaf := h₁.spans.addLeaf word (features.getD [])
  have hlanding := s₁.store.landing?_addLeaf word (features.getD [])
  obtain ⟨store, below, nodes', hbelow, hspans, hleft, hright⟩ :=
    exists_below (s := s₁.withStore (s₁.store.addLeaf word (features.getD [])).1) hleaf
      fun id hid => by
      show (s₁.store.addLeaf word (features.getD [])).1.landing? id = none
      rw [hlanding]
      split
      · rfl
      · next hne =>
        exact h₁.stays (Option.mem_toList.mp ((List.mem_cons.mp hid).resolve_left hne))
  obtain ⟨htop, hstays⟩ := hspans.mergeOnTop hleft hright s₁.used
  obtain ⟨s₂, htree, hreport, -, haddWord⟩ := exists_addWord hsaid hbelow
  have hstore : s₂.store =
      (store.mergeOnTop s₁.used (s₁.store.addLeaf word (features.getD [])).2 below).1 := by
    rw [Sentence.store, htree]
  have hwords : (tokens word ++ (wordsRead es).flatMap tokens).Perm
      ((wordsRead es ++ [word]).flatMap tokens) := by
    rw [List.flatMap_append, List.flatMap_singleton]
    exact List.perm_append_comm
  rw [← hstore] at htop hstays
  obtain ⟨e, hsettled, hread, hraising⟩ :=
    (h₁.congr htree hreport).settle word .externalMerge (by simp)
      (htop.perm (.refl _) hwords) hstays
  obtain ⟨nodes'', es', hrest, hread'⟩ := hsettled.raise rfl hraising
  rw [List.append_assoc] at hrest hread'
  rw [haddWord]
  exact ⟨nodes'', e :: es', hrest, hread'.trans hread⟩

end Sentence

namespace MonorailParser

open Sentence

variable {s : Sentence}

/-- The words up to the first time that those who watch say stop are read. -/
theorem exists_isPronounced_readWords (p : MonorailParser) (h : s.IsPronounced t r n nodes es)
    (m : Nat) (words : List String) : ∃ k ≤ words.length, ∃ n' nodes' es',
      (p.readWords s m words).IsPronounced t r n' nodes' (es ++ es') ∧
      wordsRead (es ++ es') = wordsRead es ++ words.take k ∧ (k = 0 → es' = []) ∧
      (∀ i < k, r.stops (r.asked + n + i) = false) ∧
      (k < words.length → r.stops (r.asked + n + k) = true) := by
  induction words generalizing s n nodes es m with
  | nil =>
    refine ⟨0, Nat.le_refl _, n, nodes, [], ?_, by simp, fun _ => rfl, by simp, by simp⟩
    rwa [List.append_nil]
  | cons word words ih =>
    -- those who watch are asked before each word
    have hasked :
        ({ s with report := s.report.ask.2 } : Sentence).IsPronounced t r (n + 1) nodes es :=
      { h with report := h.report.ask }
    have hstop : s.report.ask.1 = r.stops (r.asked + n) := by
      rw [Report.ask, h.report.stops, h.report.asked]
    rw [readWords]
    simp only
    split
    · next htrue =>
      refine ⟨0, Nat.zero_le _, n + 1, nodes, [], ?_, by simp, fun _ => rfl, by simp, ?_⟩
      · rw [List.append_nil]
        exact { hasked with report := hasked.report.log .. }
      · intro _
        rw [Nat.add_zero, ← hstop, htrue]
    · next hfalse =>
      obtain ⟨nodes₁, es₁, hword, hread⟩ := hasked.addWord word (p.words.get? word)
      obtain ⟨k, hk, n', nodes', es₂, hrest, hread', -, hgo, hcancel⟩ := ih hword (m + 1)
      refine ⟨k + 1, Nat.succ_le_succ hk, n', nodes', es₁ ++ es₂,
        by rwa [List.append_assoc] at hrest, ?_,
        fun hzero => absurd hzero (Nat.succ_ne_zero k), ?_, ?_⟩
      · rw [← List.append_assoc, hread', hread, List.append_assoc]
        rfl
      · intro i hi
        cases i with
        | zero => rw [Nat.add_zero, ← hstop, Bool.eq_false_iff.mpr hfalse]
        | succ i =>
          rw [← hgo i (Nat.lt_of_succ_lt_succ hi)]
          exact congrArg r.stops (by omega)
      · intro hlt
        rw [← hcancel (Nat.lt_of_succ_lt_succ hlt)]
        exact congrArg r.stops (by omega)

/-- Some words of a sentence are read, all of them unless those who watch say stop before. Every
state that is added is shown, and pronounces each of the words read so far once, however often
phrases have been raised. So does the tree in the end, and there is one if a word has been read. -/
theorem exists_pronounced_parse (p : MonorailParser) (words : List String) (t : DerivationTree) :
    ∃ k ≤ words.length,
      (∀ i < k, p.report.stops (p.report.asked + i) = false) ∧
      (k < words.length → p.report.stops (p.report.asked + k) = true) ∧
      wordsRead ((p.parse words t).1.report.since p.report) = words.take k ∧
      ArePronounced ((p.parse words t).1.report.since p.report) ∧
      (∀ id x, (p.parse words t).2.1.state? id = some x →
        t.state? id = some x ∨ ∃ e ∈ (p.parse words t).1.report.since p.report, e.state = x) ∧
      ((p.parse words t).2.2 = none ↔ k = 0) ∧
      ∀ root, (p.parse words t).2.2 = some root →
        ((p.parse words t).2.1.store.linearize root).Perm ((words.take k).flatMap tokens) := by
  have hstart : ({ report := p.report, tree := t } : Sentence).IsPronounced t p.report 0 [] [] :=
    { report := .refl _
      states := Or.inl
      pronounced := fun before e hbefore => absurd hbefore.length_le (by simp)
      spans := Store.spans_nil _
      stays := fun hroot => absurd hroot (by simp)
      begun := by simp }
  obtain ⟨k, hk, n, nodes, es, hend, hread, hzero, hgo, hcancel⟩ :=
    p.exists_isPronounced_readWords hstart 0 words
  rw [List.nil_append] at hend hread
  have hshown (s : Sentence) : (announce s).report.shown = s.report.shown := by
    rw [announce]
    split <;> rfl
  have hroot (s : Sentence) : (announce s).root = s.root := by
    cases hsome : s.root <;> simp [announce, hsome, Sentence.log]
  have htree :
      (p.parse words t).2.1 = (p.readWords { report := p.report, tree := t } 0 words).tree :=
    tree_announce _
  have hsince : (p.parse words t).1.report.since p.report = es :=
    Report.since_eq ((congrArg Array.toList (hshown _)).trans hend.report.shown)
  have hreturned :
      (p.parse words t).2.2 = (p.readWords { report := p.report, tree := t } 0 words).root :=
    hroot _
  have hwords : wordsRead es = words.take k := hread
  rw [hsince, htree, hreturned]
  refine ⟨k, hk, hgo, hcancel, hwords, hend.pronounced, fun id x hx => hend.states hx,
    hend.begun.trans ⟨?_, hzero⟩, ?_⟩
  · intro hnil
    rw [hnil] at hwords
    have hlength := congrArg List.length hwords
    rw [List.length_take, Nat.min_eq_left hk] at hlength
    exact hlength.symm
  · intro root hsome
    have hspans := hend.spans
    rw [hsome, hwords] at hspans
    have hperm := hspans.linearize_perm
    rwa [Option.toList_some, List.flatMap_singleton] at hperm

end MonorailParser

end MinimalistGrammar
