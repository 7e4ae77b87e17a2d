import MinimalistGrammar.Proofs.Derivation.Edits
import MinimalistGrammar.Proofs.Derivation.Logged
import MinimalistGrammar.Proofs.Monorail.Merge

/-!
# What the monorail parser logs

The monorail parser logs every merge. A word is merged on top of the tree so far, and nothing lands.
A node that is raised lands below the new root.

## Main definitions

* `Sentence.IsUnderway` — what has been logged of a sentence.

## Main results

* `Sentence.IsUnderway.raiseOnce`, `Sentence.IsUnderway.addWord` — one merge more, and one word
  more.
* `MonorailParser.exists_logs_parse` — what is logged of a whole sentence.
-/

namespace MinimalistGrammar

variable {t : DerivationTree} {r : Report} {es : List Shown}

namespace Store

/-- The group of the node that may be raised next is not seen. -/
theorem linked?_raisingGroup (s : Store) (raising : Option ConstituentId) (l : Link) :
    (Sentence.raisingGroup s raising).1.linked? l = s.linked? l := by
  cases raising with
  | none => rfl
  | some node => cases l <;> rfl

theorem outline?_raisingGroup (s : Store) (raising : Option ConstituentId) (id : ConstituentId) :
    (Sentence.raisingGroup s raising).1.outline? id = s.outline? id := by
  rw [outline?, constituent?_of_linked? (s.linked?_raisingGroup raising _), outline?]

theorem next_raisingGroup (s : Store) (raising : Option ConstituentId) :
    (Sentence.raisingGroup s raising).1.nextConstituent = s.nextConstituent ∧
      (Sentence.raisingGroup s raising).1.nextFeature = s.nextFeature := by
  cases raising with
  | none => exact ⟨rfl, rfl⟩
  | some node => exact ⟨rfl, rfl⟩

theorem Added.raisingGroup {s s' : Store} {l : Link} (h : s.Added s' l)
    (raising : Option ConstituentId) : s.Added (Sentence.raisingGroup s' raising).1 l := by
  obtain ⟨hconstituent, hfeature⟩ := s'.next_raisingGroup raising
  exact h.mono (Nat.le_of_eq hconstituent.symm) (Nat.le_of_eq hfeature.symm)

theorem Separate.raisingGroup {s s' : Store} (h : s.Separate s') (raising : Option ConstituentId) :
    s.Separate (Sentence.raisingGroup s' raising).1 := by
  obtain ⟨hconstituent, hfeature⟩ := s'.next_raisingGroup raising
  refine h.change (Nat.le_of_eq hconstituent.symm) (Nat.le_of_eq hfeature.symm) fun l => ?_
  exact Or.inl (s'.linked?_raisingGroup raising l)

theorem lands_raisingGroup (s : Store) (raising : Option ConstituentId) :
    s.Lands (Sentence.raisingGroup s raising).1 [] := by
  cases raising with
  | none => exact .refl s
  | some node => exact .of_constituent? (Nat.le_refl _) (fun _ _ => rfl) fun _ => rfl

end Store

namespace Sentence

variable {s s' : Sentence}

/-! ### Merging -/

/-- A raised node is merged on top, where it lands. -/
theorem exists_raiseOnce (s : Sentence) (node root : ConstituentId) (pair : FeatureId × FeatureId) :
    ∃ s' : Sentence, s'.tree = { s.tree with
        store := (s.store.mergeOnTop s.used node root).1.land node ⟨s.store.nextConstituent⟩ } ∧
      s'.report = s.report ∧ s'.edges = s.edges ∧ s.raiseOnce node root pair =
        s'.settle ⟨s.store.nextConstituent⟩ (raiseMessage s.store pair) .internalMerge := by
  obtain ⟨head, label, features, -, -, -, hid⟩ := s.store.exists_mergeOnTop s.used node root
  refine ⟨{ s.withStore
    ((s.store.mergeOnTop s.used node root).1.land node ⟨s.store.nextConstituent⟩) with
    used := (s.store.mergeOnTop s.used node root).2.1 }, rfl, rfl, rfl, ?_⟩
  rw [← hid]
  rfl

/-- A word is said to be unknown if it is. Its leaf is merged on top of the tree so far, and what
can be raised is raised. -/
theorem exists_addWord {s s₁ : Sentence} {word : String} {features : Option (List Feature)}
    (hsaid : (if features.isNone then s.log .warn ("unknown word " ++ word) else s) = s₁)
    {store : Store} {below : ConstituentId}
    (hbelow : (s₁.withStore (s₁.store.addLeaf word (features.getD [])).1).below =
      (s₁.withStore store, below)) :
    ∃ s₂ : Sentence, s₂.tree = { s₁.tree with store := (store.mergeOnTop s₁.used
        (s₁.store.addLeaf word (features.getD [])).2 below).1 } ∧
      s₂.report = s₁.report ∧ s₂.edges = s₁.edges ∧ s.addWord word features =
        (s₂.settle ⟨store.nextConstituent⟩ word .externalMerge).1.raise
          (s₂.settle ⟨store.nextConstituent⟩ word .externalMerge).2
          (s₂.settle ⟨store.nextConstituent⟩ word .externalMerge).1.root := by
  obtain ⟨head, label, fs, -, -, -, hid⟩ :=
    store.exists_mergeOnTop s₁.used (s₁.store.addLeaf word (features.getD [])).2 below
  refine ⟨{ s₁.withStore
      (store.mergeOnTop s₁.used (s₁.store.addLeaf word (features.getD [])).2 below).1 with
      used := (store.mergeOnTop s₁.used (s₁.store.addLeaf word (features.getD [])).2 below).2.1 },
    rfl, rfl, rfl, ?_⟩
  rw [addWord, hsaid]
  simp only [hbelow]
  rw [← hid]
  rfl

/-! ### What is logged -/

/-- What has been logged of a sentence that was begun with the tree `t` and the report `r`. -/
structure IsUnderway (t : DerivationTree) (r : Report) (s : Sentence) (es : List Shown) : Prop where
  logs : t.Logs s.tree es
  shown : s.report.shown.toList = r.shown.toList ++ es
  root {root : ConstituentId} : s.root = some root → t.store.Added s.store (.constituent root)

/-- A merge is logged. Since the last one only the node has landed that it shows to be raised. -/
theorem IsUnderway.settle (h : s.IsUnderway t r es) (s' : Sentence)
    (htree : s'.tree = { s.tree with store := s'.store })
    (hreport : s'.report.shown = s.report.shown) (hseparate : t.store.Separate s'.store)
    {root : ConstituentId} (hroot : t.store.Added s'.store (.constituent root)) {type : StateType}
    (hlands : s.store.Lands s'.store (if type = .internalMerge then
      ((s'.store.outline? root).bind (·.parts.head?)).map fun node =>
        (node, root) else none).toList)
    (message : String) :
    ∃ e, (s'.settle root message type).1.IsUnderway t r (es ++ [e]) ∧
      ∀ node, (s'.settle root message type).2 = some node →
        t.store.Added (s'.settle root message type).1.store (.constituent node) := by
  generalize hraising : (s'.store.nextEdge s'.edges root).1 = raising
  generalize hstep :
      ({ roots := [root], message, type, groups := (raisingGroup s'.store raising).2 } :
    Step) = step
  have hsettle : (s'.settle root message type).1.tree =
      ({ s.tree with store := (raisingGroup s'.store raising).1 }.addStep step s'.last).1 := by
    rw [← hstep, ← hraising]
    show ({ s'.tree with store := _ }.addStep _ _).1 = _
    rw [htree]
    rfl
  have hstore : (s'.settle root message type).1.store = (raisingGroup s'.store raising).1 := by
    rw [store, hsettle]
    rfl
  have hroots : step.roots = [root] := by rw [← hstep]
  -- the group for what is raised next does not make anything land
  have hchain : ∀ e ∈ es.getLast?, e.store.Lands (raisingGroup s'.store raising).1
      (raisings [s.tree.newEntry (raisingGroup s'.store raising).1 step s'.last]) := by
    intro e he
    have hall := ((h.logs.last he).trans hlands).trans (s'.store.lands_raisingGroup raising)
    rw [raisings_singleton, DerivationTree.raising?_newEntry hroots,
      s'.store.outline?_raisingGroup raising, ← hstep]
    rwa [List.nil_append, List.append_nil] at hall
  have hlogs := h.logs.addStep (hseparate.raisingGroup raising) (fun a ha => ?_) hchain
  · rw [← hsettle] at hlogs
    refine ⟨_, ⟨hlogs, ?_, fun {a} ha => ?_⟩, fun node hnode => ?_⟩
    · have hpresent : (s'.settle root message type).1.report =
          (s'.report.log .debug message).present (s'.settle root message type).1.tree := rfl
      rw [hpresent, hsettle, DerivationTree.shown_present_addStep, Array.toList_push]
      show s'.report.shown.toList ++ _ = _
      rw [hreport, h.shown, List.append_assoc]
    · rw [hstore, ← Option.some.inj ha]
      exact hroot.raisingGroup raising
    · rw [hstore]
      exact (hseparate.added_of_nextEdge hroot hnode).raisingGroup raising
  · rw [hroots] at ha
    rw [List.mem_singleton.mp ha]
    exact (hroot.raisingGroup raising).2

/-- A node is raised. -/
theorem IsUnderway.raiseOnce (h : s.IsUnderway t r es) {node root : ConstituentId}
    (hnode : t.store.Added s.store (.constituent node))
    (hroot : t.store.Added s.store (.constituent root)) (pair : FeatureId × FeatureId) :
    ∃ e, (s.raiseOnce node root pair).1.IsUnderway t r (es ++ [e]) ∧
      ∀ next, (s.raiseOnce node root pair).2 = some next →
        t.store.Added (s.raiseOnce node root pair).1.store (.constituent next) := by
  have hseparate := h.logs.separate
  obtain ⟨hmerge, htop⟩ := hseparate.mergeOnTop hnode hroot s.used
  obtain ⟨hconstituent, hfeature⟩ := s.store.next_mergeOnTop s.used node root
  have hnode' : t.store.Added (s.store.mergeOnTop s.used node root).1 (.constituent node) :=
    hnode.mono (by rw [hconstituent]; exact Nat.le_succ _) (Nat.le_of_eq hfeature.symm)
  have hland : t.store.Separate ((s.store.mergeOnTop s.used node root).1.land node
      ⟨s.store.nextConstituent⟩) := by
    refine hmerge.modifyConstituent hnode' fun c hc => ?_
    obtain ⟨hfeatures, hparts, hmovers, hhead, hheads, -, hattributes⟩ :=
      Constituent.forall_links_iff.mp (hmerge.links_constituent hnode' hc)
    refine Constituent.forall_links_iff.mpr
      ⟨hfeatures, hparts, hmovers, hhead, hheads, fun a ha => ?_, hattributes⟩
    rw [List.mem_singleton.mp ha]
    exact htop
  obtain ⟨s', htree, hreport, -, hraise⟩ := s.exists_raiseOnce node root pair
  have hstore : s'.store =
      (s.store.mergeOnTop s.used node root).1.land node ⟨s.store.nextConstituent⟩ := by
    rw [store, htree]
  rw [hraise]
  rw [← hstore] at hland htree
  refine h.settle s' htree (congrArg Report.shown hreport) hland (by rw [hstore]; exact htop) ?_ _
  -- the raised node is the left part of the new root
  obtain ⟨o, ho, hparts⟩ := s.store.exists_outline?_mergeOnTop s.used node root
  have hleft :
      (((s.store.mergeOnTop s.used node root).1.land node ⟨s.store.nextConstituent⟩).outline?
        ⟨s.store.nextConstituent⟩).bind (·.parts.head?) = some node := by
    rw [Store.outline?_land, ho]
    split
    · simp [hparts]
    · simp [hparts]
  have hlands := (s.store.lands_mergeOnTop s.used node root).trans
    ((s.store.mergeOnTop s.used node root).1.lands_land node ⟨s.store.nextConstituent⟩)
  rw [if_pos rfl, hstore, hleft]
  exact hlands

/-- A node is raised as long as it can check a feature of the root. -/
theorem IsUnderway.raise (h : s.IsUnderway t r es) {raising root : Option ConstituentId}
    (hraising : ∀ a, raising = some a → t.store.Added s.store (.constituent a))
    (hroot : ∀ a, root = some a → t.store.Added s.store (.constituent a)) :
    ∃ es', (s.raise raising root).IsUnderway t r (es ++ es') := by
  fun_induction s.raise raising root generalizing es with
  | case1 s node root hnone => exact ⟨[], by rwa [List.append_nil]⟩
  | case2 s node root pair =>
    rename_i next ih
    obtain ⟨e, hnext, hraising'⟩ := h.raiseOnce (hraising node rfl) (hroot root rfl) pair
    obtain ⟨es', hrest⟩ := ih hnext hraising' fun a ha => hnext.root ha
    exact ⟨e :: es', by rwa [List.append_assoc] at hrest⟩
  | case3 s raising root _ => exact ⟨[], by rwa [List.append_nil]⟩

/-- What is said does not count. -/
theorem IsUnderway.withReport (h : s.IsUnderway t r es) {report : Report}
    (hreport : report.shown = s.report.shown) : ({ s with report } : Sentence).IsUnderway t r es :=
  ⟨h.logs, hreport ▸ h.shown, h.root⟩

/-- The node below a word is the root so far, or a silent leaf that is added. -/
theorem IsUnderway.exists_below (h : s.IsUnderway t r es) {store : Store}
    (hseparate : t.store.Separate store) (hgrows : s.store.Separate store) :
    ∃ store' below, (s.withStore store).below = (s.withStore store', below) ∧
      store.Separate store' ∧
      t.store.Separate store' ∧ t.store.Added store' (.constituent below) := by
  rw [below]
  cases hroot : s.root with
  | some root =>
    refine ⟨store, root, by simp only [withStore, hroot], .refl hgrows.toIsNumbered, hseparate, ?_⟩
    exact (h.root hroot).left hgrows
  | none =>
    obtain ⟨hleaf, hadded⟩ := hseparate.addLeaf epsilon [.categorial bottomCategory]
    obtain ⟨hleaf', -⟩ := (Store.Separate.refl hgrows.toIsNumbered).addLeaf epsilon
      [.categorial bottomCategory]
    refine ⟨_, _, ?_, hleaf', hleaf, hadded⟩
    simp only [withStore, hroot]
    rfl

/-- A word is merged on top, and what can be raised is raised. -/
theorem IsUnderway.addWord (h : s.IsUnderway t r es) (ht : t.store.IsClosed) (word : String)
    (features : Option (List Feature)) :
    ∃ es', (s.addWord word features).IsUnderway t r (es ++ es') := by
  generalize hsaid : (if features.isNone then s.log .warn ("unknown word " ++ word) else s) = s₁
  have h₁ : s₁.IsUnderway t r es := by
    rw [← hsaid]
    split
    · exact h.withReport rfl
    · exact h
  have hclosed : s₁.store.IsClosed := h₁.logs.separate.isClosed ht
  have hseparate₁ : t.store.Separate s₁.store := h₁.logs.separate
  obtain ⟨hleaf, hadded⟩ := hseparate₁.addLeaf word (features.getD [])
  obtain ⟨hgrows, -⟩ := (Store.Separate.refl hclosed.toIsNumbered).addLeaf word (features.getD [])
  obtain ⟨store, below, hbelow, hgrows', hseparate, hroot⟩ := h₁.exists_below hleaf hgrows
  -- leaves are added, so nothing has landed until the merge
  have hlands : s₁.store.Lands store [] := (hgrows.trans hgrows').lands hclosed
  obtain ⟨hmerge, htop⟩ := hseparate.mergeOnTop (hadded.left hgrows') hroot s₁.used
  obtain ⟨s₂, htree, hreport, -, haddWord⟩ := exists_addWord hsaid hbelow
  have hstore : s₂.store =
      (store.mergeOnTop s₁.used (s₁.store.addLeaf word (features.getD [])).2 below).1 := by
    rw [Sentence.store, htree]
  rw [← hstore] at htree
  obtain ⟨e, hsettled, hraising⟩ := h₁.settle s₂ htree (congrArg Report.shown hreport)
    (by rwa [hstore]) (by rwa [hstore]) (by
      rw [if_neg (show ¬StateType.externalMerge = .internalMerge by decide), hstore]
      exact hlands.trans (store.lands_mergeOnTop ..)) word
  rw [haddWord]
  obtain ⟨es', hrest⟩ := hsettled.raise hraising fun a ha => hsettled.root ha
  exact ⟨e :: es', by rwa [List.append_assoc] at hrest⟩

end Sentence

namespace MonorailParser

open Sentence

theorem exists_isUnderway_readWords (p : MonorailParser) {s : Sentence} (h : s.IsUnderway t r es)
    (ht : t.store.IsClosed) (n : Nat) (words : List String) :
    ∃ es', (p.readWords s n words).IsUnderway t r (es ++ es') := by
  induction words generalizing s n es with
  | nil => exact ⟨[], by rwa [List.append_nil]⟩
  | cons word words ih =>
    have hasked : ({ s with report := s.report.ask.2 } : Sentence).IsUnderway t r es :=
      h.withReport rfl
    rw [readWords]
    simp only
    split
    · exact ⟨[], by rw [List.append_nil]; exact hasked.withReport rfl⟩
    · obtain ⟨es₁, hword⟩ := hasked.addWord ht word (p.words.get? word)
      obtain ⟨es₂, hrest⟩ := ih hword (n + 1)
      exact ⟨es₁ ++ es₂, by rwa [List.append_assoc] at hrest⟩

/-- What is logged of a sentence. -/
theorem exists_logs_parse (p : MonorailParser) (words : List String) (ht : t.IsClosed) :
    ∃ es, t.Logs (p.parse words t).2.1 es ∧ (p.parse words t).1.report.since p.report = es := by
  have hstart : ({ report := p.report, tree := t } : Sentence).IsUnderway t p.report [] :=
    ⟨.refl ht, (List.append_nil _).symm, fun hroot => absurd hroot (by simp)⟩
  obtain ⟨es, hend⟩ := p.exists_isUnderway_readWords hstart ht.store 0 words
  refine ⟨es, ?_, ?_⟩
  · show t.Logs (announce _).tree es
    rw [tree_announce]
    exact hend.logs
  · have hshown (s : Sentence) : (announce s).report.shown = s.report.shown := by
      rw [announce]
      split
      · rfl
      · rfl
    exact Report.since_eq ((congrArg Array.toList (hshown _)).trans hend.shown)

end MonorailParser

end MinimalistGrammar
