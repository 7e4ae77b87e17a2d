import MinimalistGrammar.Proofs.Monorail.Edges

/-!
# The stages of a sentence

A sentence is built merge by merge. At each stage either the node that has been picked can check a
feature of the root and is raised, or the next word is merged on top. What holds at the beginning
and is kept by both kinds of merges holds at every stage, and so of every tree that the parser
returns.

## Main definitions

* `Sentence.mergeWord`, `Sentence.mergeAgain` — the two kinds of merges.
* `Sentence.IsAtRest` — nothing can be raised.
* `MonorailParser.Reaches` — the stages of a sentence, with the words read, the node picked and the
  states shown.

## Main results

* `MonorailParser.Reaches.exists_raise`, `MonorailParser.Reaches.exists_addWord` — from one word to
  the next.
* `MonorailParser.exists_reaches_parse` — **a whole sentence ends at a stage where nothing can be
  raised.**
-/

namespace MinimalistGrammar

variable {p : MonorailParser} {t : DerivationTree} {read : List String} {s s' : Sentence}
  {raising : Option ConstituentId} {es : List Shown}

namespace Sentence

/-! ### Merges -/

/-- The leaf of a word is merged on top of the tree so far. -/
def mergeWord (s : Sentence) (word : String) (features : List Feature) : Sentence × ConstituentId :=
  let (store, leaf) := s.store.addLeaf word features
  let (s, below) := (s.withStore store).below
  s.merge leaf below

/-- A node of the tree is merged on top of it, where it lands. -/
def mergeAgain (s : Sentence) (node root : ConstituentId) : Sentence × ConstituentId :=
  let (s, top) := s.merge node root
  (s.withStore (s.store.land node top), top)

/-- Merging changes the store and the features that are used up, and nothing else. -/
theorem eq_of_mergeWord {word : String} {features : List Feature} {top : ConstituentId}
    (h : s.mergeWord word features = (s', top)) :
    s' = { s with tree := { s.tree with store := s'.store }, used := s'.used } := by
  have hbelow (s : Sentence) : ∃ store below, s.below = (s.withStore store, below) := by
    rw [below]
    split
    · exact ⟨s.store, _, rfl⟩
    · exact ⟨_, _, rfl⟩
  obtain ⟨store, below, heq⟩ := hbelow (s.withStore (s.store.addLeaf word features).1)
  rw [mergeWord] at h
  simp only [heq] at h
  obtain rfl : _ = s' := congrArg (·.1) h
  rfl

theorem eq_of_mergeAgain {node root top : ConstituentId} (h : s.mergeAgain node root = (s', top)) :
    s' = { s with tree := { s.tree with store := s'.store }, used := s'.used } := by
  obtain rfl : _ = s' := congrArg (·.1) h
  rfl

/-- Nothing can be raised: the node that has been picked can check no feature of the root. -/
def IsAtRest (s : Sentence) (raising : Option ConstituentId) : Prop :=
  ∀ node ∈ raising, ∀ root ∈ s.root, s.store.checkingPair? s.used node root = none

end Sentence

namespace MonorailParser

open Sentence

/-! ### Stages -/

/-- The stages of a sentence that is parsed into the tree `t`: the words that have been read, what
has been built, the node that has been picked to be raised, and the states that have been shown. -/
inductive Reaches (p : MonorailParser) (t : DerivationTree) :
    List String → Sentence → Option ConstituentId → List Shown → Prop
  | start : Reaches p t [] { report := p.report, tree := t } none []
  /-- Something is said, or those who watch are asked. -/
  | said {read : List String} {s : Sentence} {raising : Option ConstituentId} {es : List Shown}
      (h : Reaches p t read s raising es) (report : Report)
      (hreport : report.shown = s.report.shown) :
      Reaches p t read { s with report } raising es
  /-- The next word is merged on top when nothing can be raised. -/
  | word {read : List String} {s s' : Sentence} {raising : Option ConstituentId} {es : List Shown}
      {top : ConstituentId} (h : Reaches p t read s raising es) (hrest : s.IsAtRest raising)
      (word : String) (hmerge : s.mergeWord word ((p.words.get? word).getD []) = (s', top)) :
      Reaches p t (read ++ [word]) (s'.settle top word .externalMerge).1
        (s'.settle top word .externalMerge).2 (es ++ [s'.shownAt top word .externalMerge])
  /-- The node that has been picked is raised when it can check a feature of the root. -/
  | raise {read : List String} {s s' : Sentence} {es : List Shown} {node root top : ConstituentId}
      {pair : FeatureId × FeatureId} (h : Reaches p t read s (some node) es)
      (hroot : s.root = some root) (hpair : s.store.checkingPair? s.used node root = some pair)
      (hmerge : s.mergeAgain node root = (s', top)) :
      Reaches p t read (s'.settle top (raiseMessage s.store pair) .internalMerge).1
        (s'.settle top (raiseMessage s.store pair) .internalMerge).2
        (es ++ [s'.shownAt top (raiseMessage s.store pair) .internalMerge])

theorem Reaches.shown (h : p.Reaches t read s raising es) :
    s.report.shown.toList = p.report.shown.toList ++ es := by
  induction h with
  | start => rw [List.append_nil]
  | said _ report hreport ih => rw [hreport, ih]
  | word _ _ word hmerge ih =>
    rw [shown_settle, eq_of_mergeWord hmerge, ih, List.append_assoc]
  | raise _ _ _ hmerge ih =>
    rw [shown_settle, eq_of_mergeAgain hmerge, ih, List.append_assoc]

/-- Every state that is added is shown. -/
theorem Reaches.states (h : p.Reaches t read s raising es) {id : StateId} {x : SyntaxState}
    (hx : s.tree.state? id = some x) : t.state? id = some x ∨ ∃ e ∈ es, e.state = x := by
  have hnext {s s' : Sentence} {es : List Shown} {top : ConstituentId} {message : String}
      {type : StateType} (hs : ∀ id, s'.tree.state? id = s.tree.state? id)
      (hx : (s'.settle top message type).1.tree.state? id = some x)
      (hold : s.tree.state? id = some x → t.state? id = some x ∨ ∃ e ∈ es, e.state = x) :
      t.state? id = some x ∨ ∃ e ∈ es ++ [s'.shownAt top message type], e.state = x := by
    have hstate : (s'.settle top message type).1.tree.state? id =
        if id = ⟨s'.tree.nextId⟩ then some (s'.shownAt top message type).state
        else s'.tree.state? id :=
      DerivationTree.state?_addStep ..
    rw [hstate, hs] at hx
    split at hx
    · exact Or.inr ⟨_, List.mem_append_right _ (List.mem_singleton_self _), Option.some.inj hx⟩
    · refine (hold hx).imp_right ?_
      rintro ⟨e, he, heq⟩
      exact ⟨e, List.mem_append_left _ he, heq⟩
  induction h with
  | start => exact Or.inl hx
  | said _ _ _ ih => exact ih hx
  | word _ _ _ hmerge ih => exact hnext (fun id => by rw [eq_of_mergeWord hmerge]; rfl) hx ih
  | raise _ _ _ hmerge ih => exact hnext (fun id => by rw [eq_of_mergeAgain hmerge]; rfl) hx ih

/-- Nodes are raised until nothing can be raised. -/
theorem Reaches.exists_raise (h : p.Reaches t read s raising es) {root : Option ConstituentId}
    (hroot : s.root = root) : ∃ raising' es',
      p.Reaches t read (s.raise raising root) raising' (es ++ es') ∧
        (s.raise raising root).IsAtRest raising' := by
  fun_induction s.raise raising root generalizing es with
  | case1 s node root hnone =>
    refine ⟨some node, [], by rwa [List.append_nil], fun node' hnode' root' hroot' => ?_⟩
    obtain rfl := Option.some.inj hnode'
    obtain rfl := Option.some.inj (hroot.symm.trans hroot')
    exact hnone
  | case2 s node root pair hpair =>
    rename_i next ih
    obtain ⟨raising', es', hnext, hrest⟩ := ih (h.raise hroot hpair rfl) rfl
    exact ⟨raising', _ :: es', by rwa [List.append_assoc] at hnext, hrest⟩
  | case3 s raising root hne =>
    refine ⟨raising, [], by rwa [List.append_nil], fun node hnode root' hroot' => ?_⟩
    exact absurd (hroot.symm.trans hroot') (hne node root' hnode)

/-- The next word is merged on top, and what can be raised is raised. -/
theorem Reaches.exists_addWord (h : p.Reaches t read s raising es) (hrest : s.IsAtRest raising)
    (word : String) : ∃ raising' es',
      p.Reaches t (read ++ [word]) (s.addWord word (p.words.get? word)) raising' (es ++ es') ∧
        (s.addWord word (p.words.get? word)).IsAtRest raising' := by
  generalize hsaid :
      (if (p.words.get? word).isNone then s.log .warn ("unknown word " ++ word) else s) = s₁
  have h₁ : p.Reaches t read s₁ raising es ∧ s₁.IsAtRest raising := by
    rw [← hsaid]
    split
    · exact ⟨h.said _ rfl, hrest⟩
    · exact ⟨h, hrest⟩
  obtain ⟨raising', es', hnext, hrest'⟩ := (h₁.1.word h₁.2 word rfl).exists_raise rfl
  have haddWord : s.addWord word (p.words.get? word) =
      ((s₁.mergeWord word ((p.words.get? word).getD [])).1.settle
        (s₁.mergeWord word ((p.words.get? word).getD [])).2 word .externalMerge).1.raise
        ((s₁.mergeWord word ((p.words.get? word).getD [])).1.settle
          (s₁.mergeWord word ((p.words.get? word).getD [])).2 word .externalMerge).2
        (some (s₁.mergeWord word ((p.words.get? word).getD [])).2) := by
    rw [addWord, hsaid]
    rfl
  rw [haddWord]
  exact ⟨raising', _ :: es', by rwa [List.append_assoc] at hnext, hrest'⟩

/-- Words are read as long as those who watch do not say stop. -/
theorem Reaches.exists_readWords (h : p.Reaches t read s raising es) (hrest : s.IsAtRest raising)
    (n : Nat) (words : List String) : ∃ k ≤ words.length, ∃ raising' es',
      p.Reaches t (read ++ words.take k) (p.readWords s n words) raising' (es ++ es') ∧
        (p.readWords s n words).IsAtRest raising' := by
  induction words generalizing read s raising es n with
  | nil => exact ⟨0, Nat.le_refl _, raising, [], by simpa [readWords] using h, hrest⟩
  | cons word words ih =>
    have hasked := h.said s.report.ask.2 rfl
    rw [readWords]
    simp only
    split
    · refine ⟨0, Nat.zero_le _, raising, [], ?_, hrest⟩
      rw [List.take_zero, List.append_nil, List.append_nil]
      exact hasked.said _ rfl
    · obtain ⟨raising₁, es₁, hword, hrest₁⟩ :=
        Reaches.exists_addWord (s := { s with report := s.report.ask.2 }) hasked hrest word
      obtain ⟨k, hk, raising₂, es₂, hend, hrest₂⟩ := ih hword hrest₁ (n + 1)
      refine ⟨k + 1, Nat.succ_le_succ hk, raising₂, es₁ ++ es₂, ?_, hrest₂⟩
      rwa [List.append_assoc, List.append_assoc] at hend

/-- **A whole sentence ends at a stage where nothing can be raised.** Some of the words have been
read, and the states that have been shown are those since the earlier report. -/
theorem exists_reaches_parse (p : MonorailParser) (words : List String) (t : DerivationTree) :
    ∃ k ≤ words.length, ∃ s raising,
      p.Reaches t (words.take k) s raising ((p.parse words t).1.report.since p.report) ∧
        s.IsAtRest raising ∧ (p.parse words t).2 = (s.tree, s.root) := by
  have hstart : ({ report := p.report, tree := t } : Sentence).IsAtRest none :=
    fun _ hnode => nomatch hnode
  obtain ⟨k, hk, raising, es, hend, hrest⟩ := Reaches.start.exists_readWords (p := p) hstart 0 words
  rw [List.nil_append, List.nil_append] at hend
  have hannounce (s : Sentence) : ∃ report, report.shown = s.report.shown ∧
      announce s = { s with report } := by
    rw [announce]
    split
    · exact ⟨s.report, rfl, rfl⟩
    · exact ⟨s.report.log .info _, rfl, rfl⟩
  obtain ⟨report, hreport, heq⟩ := hannounce (p.readWords { report := p.report, tree := t } 0 words)
  have hsaid := hend.said report hreport
  rw [← heq] at hsaid
  have hsince : (p.parse words t).1.report.since p.report = es := Report.since_eq hsaid.shown
  refine ⟨k, hk, announce (p.readWords { report := p.report, tree := t } 0 words), raising, ?_,
    ?_, rfl⟩
  · rw [hsince]
    exact hsaid
  · rw [heq]
    exact hrest

end MonorailParser

end MinimalistGrammar
