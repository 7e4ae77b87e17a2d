import MinimalistGrammar.Proofs.Beam.Entries
import MinimalistGrammar.Proofs.Beam.Paths
import MinimalistGrammar.Proofs.Tree.Layout
import Mathlib.Data.List.Nodup

/-!
# The rules that a tree shows

The records of a parse do not say by which rules it has come about. Yet the tree that is built of
them shows every merge as the rule makes it. What is recorded where a head was predicted is this
prediction, or a word that was read at it. In either case the first feature is the one by which the
head takes the other part, and the record is marked as a word just if the rule predicts a word.

## Main definitions

* `Rule.layout?` — how a merge is laid out by the rule.
* `Parse.predictions` — all predictions of a parse, from how it has come about.
* `Store.IsLaidOut` — a node and its parts are laid out as a rule says.
* `Parse.ShowsMerges` — the tree of a parse shows the rules of all merges.

## Main results

* `Category.ByRule.layout?_eq` — the rule is seen at the record of the head.
* `Parse.ComesAbout.agrees_of_path_eq` — what is recorded at the place of a prediction.
* `BeamParser.exists_showsMerges` — the trees of all parses of a run show the rules.
-/

namespace MinimalistGrammar

/-! ### Layouts -/

/-- The label and the parts of a node that is made by a rule, if the rule merges two phrases. A head
is on the left of its complement, and on the right of its specifier. -/
def Rule.layout? (selector selected : ConstituentId) : Rule → Option (String × List ConstituentId)
  | .merge1 | .merge3 => some (headLeft, [selector, selected])
  | .merge2 | .merge4 => some (headRight, [selected, selector])
  | .merge1b => some (adjunction, [selector, selected])
  | .move1 | .move2 | .scan => none

/-- There are nodes at an address and right below it on either side, and the first one is made of
the others as a rule says. The one on the left is its head. -/
def Store.IsLaidOut (s : Store) (t : SurfaceTree) (rule : Rule) (path : Address) : Prop :=
  ∃ id selector selected node, t.nodes.lookup path = some id ∧
    t.nodes.lookup path.left = some selector ∧
    t.nodes.lookup path.right = some selected ∧ s.constituent? id = some node ∧
      rule.layout? selector selected = some (node.label, node.parts) ∧
      node.head = some (.single selector)

/-- No address is noted twice, so a merge that is shown has the nodes at its addresses. -/
theorem Store.ShowsMerge.isLaidOut {s : Store} {t : SurfaceTree} {rule : Rule} {path : Address}
    {layout : ConstituentId → ConstituentId → String × List ConstituentId}
    (h : s.ShowsMerge t.nodes path layout)
    (hnodes : ∀ {x}, x ∈ t.nodes → t.nodes.lookup x.1 = some x.2)
    (hlayout : ∀ selector selected,
      rule.layout? selector selected = some (layout selector selected)) :
    s.IsLaidOut t rule path := by
  obtain ⟨id, selector, selected, hnode, hselector, hselected, -, hbody, hhead⟩ := h
  obtain ⟨node, hconstituent, hhead⟩ := Option.bind_eq_some_iff.mp hhead
  refine ⟨id, selector, selected, node, hnodes hnode, hnodes hselector, hnodes hselected,
    hconstituent, ?_, hhead⟩
  rw [body?, outline?_eq hconstituent, Option.map_some, Option.some.injEq] at hbody
  rw [hlayout, ← hbody]
  rfl

/-- A record is of a prediction, or of a word that was read at it. -/
structure NodeRecord.Agrees (r : NodeRecord) (c : Category) : Prop where
  features : r.features = c.features
  isLexical : c.frontier.Admits r.isLexical

theorem NodeRecord.agrees_predicted (c : Category) : (predicted c).Agrees c where
  features := rfl
  isLexical := by cases h : c.frontier <;> simp [predicted, h, Frontier.Admits]

namespace Category

variable {lex : Lexicon} {c : Category} {input : List String} {rule : Rule} {parts : List Category}

/-- The rule of a merge is seen at any record of the head. -/
theorem ByRule.layout?_eq (h : c.ByRule lex input (.predict rule parts))
    (hrule : rule.stateType = .externalMerge) :
    ∃ head other, parts = [head, other] ∧ head.path = c.path.left ∧ other.path = c.path.right ∧
      ∀ r : NodeRecord, r.Agrees head → ∀ selector selected,
        rule.layout? selector selected = some (r.layout selector selected) := by
  cases h with
  | merge1 | merge3 =>
    refine ⟨_, _, rfl, rfl, rfl, fun r hr selector selected => ?_⟩
    have hlexical : r.isLexical = true := hr.isLexical
    rw [NodeRecord.layout, hr.features, features_projecting, hlexical]
    rfl
  | merge2 | merge4 =>
    refine ⟨_, _, rfl, rfl, rfl, fun r hr selector selected => ?_⟩
    have hlexical : r.isLexical = false := hr.isLexical
    rw [NodeRecord.layout, hr.features, features_projecting, hlexical]
    rfl
  | merge1b =>
    refine ⟨_, _, rfl, rfl, rfl, fun r hr selector selected => ?_⟩
    rw [NodeRecord.layout, hr.features, features_projecting]
    rfl
  | move1 | move2 => exact absurd hrule (by decide)

end Category

/-! ### Predictions -/

theorem predictedPaths_records (lex : Lexicon) (e : Expansion) :
    predictedPaths (e.records lex) = e.parts.map (·.path) := by
  cases e with
  | scan leaf c tokens => rfl
  | predict rule parts =>
    rw [Expansion.records, predictedPaths, List.filter_eq_self.mpr, List.map_map]
    · rfl
    · intro r hr
      obtain ⟨part, -, rfl⟩ := List.mem_map.mp hr
      rfl

namespace Parse

variable {π : Type} [Probability π] {lex : Lexicon} {words : List String} {first c : Category}
  {es : List Expansion} {e : Expansion} {q : Parse π} {root : Nat} {start : String} {r : NodeRecord}
  {rule : Rule} {parts : List Category}

/-- What is predicted in the course of some expansions. -/
def predictions (first : Category) (es : List Expansion) : List Category :=
  first :: es.flatMap Expansion.parts

theorem predictions_append (first : Category) (es : List Expansion) (e : Expansion) :
    predictions first (es ++ [e]) = predictions first es ++ e.parts := by
  rw [predictions, List.flatMap_append, List.flatMap_singleton, predictions, List.cons_append]

theorem mem_predictions_of_mem_parts (he : e ∈ es) (hc : c ∈ e.parts) : c ∈ predictions first es :=
  List.mem_cons_of_mem _ (List.mem_flatMap.mpr ⟨e, he, hc⟩)

/-- One prediction is recorded for each path. -/
theorem ComesAbout.predictedPaths_eq (h : (initial words first).ComesAbout lex es q) :
    predictedPaths q.records = (predictions first es).map (·.path) := by
  have hnew :
      predictedPaths (es.flatMap (·.records lex)) = (es.flatMap Expansion.parts).map (·.path) := by
    rw [predictedPaths, List.filter_flatMap, List.map_flatMap, List.map_flatMap]
    exact congrArg List.flatten (List.map_congr_left fun e _ => predictedPaths_records lex e)
  rw [h.records_eq, IsFrontier.predictedPaths_append, hnew]
  rfl

section run

variable (hlex : lex.WellFormed) (hroot : lex.category? start = some root)
  (h : (initial words (BeamParser.startCategory root start)).ComesAbout lex es q)

include hlex hroot h

omit hlex hroot in
/-- What is open has been predicted. -/
theorem ComesAbout.mem_predictions_of_mem_queue (hc : c ∈ q.queue.toList) :
    c ∈ predictions (BeamParser.startCategory root start) es := by
  induction h generalizing c with
  | start => exact hc
  | log _ state ih => exact ih hc
  | expand _ hpop _ _ _ ih =>
    rw [predictions_append]
    rcases mem_queue_extend hpop hc with hc | hc
    · exact List.mem_append_right _ hc
    · exact List.mem_append_left _ (ih hc)

/-- What is expanded had been predicted before. -/
theorem ComesAbout.exists_expanded (he : e ∈ es) :
    ∃ c ∈ predictions (BeamParser.startCategory root start) es, c.IsAnchored lex ∧
      ∃ input, e ∈ c.expansions lex input := by
  induction h with
  | start => exact absurd he List.not_mem_nil
  | log _ state ih => exact ih he
  | @expand es q c queue e' h hpop he' share message ih =>
    rw [predictions_append]
    rcases List.mem_append.mp he with he | he
    · obtain ⟨c', hc', hexpanded⟩ := ih he
      exact ⟨c', List.mem_append_left _ hc', hexpanded⟩
    · rw [List.mem_singleton.mp he]
      have hc : c ∈ q.queue.toList := by
        rw [StableQueue.toList_eq_of_pop? hpop]
        exact List.mem_cons_self ..
      have hcoherent := (h.isCoherent hlex (isCoherent_initial hlex hroot words)).coherent
      exact ⟨c, List.mem_append_left _ (h.mem_predictions_of_mem_queue hc), hcoherent.anchored hc,
        q.input, he'⟩

/-- Every record is of some prediction, or of a word that was read at it. -/
theorem ComesAbout.exists_agrees (hr : r ∈ q.records) :
    ∃ c ∈ predictions (BeamParser.startCategory root start) es, r.path = c.path ∧ r.Agrees c := by
  rw [h.records_eq] at hr
  rcases List.mem_append.mp hr with hr | hr
  · rw [List.mem_singleton.mp hr]
    exact ⟨_, List.mem_cons_self .., rfl, NodeRecord.agrees_predicted _⟩
  · obtain ⟨e, he, hr⟩ := List.mem_flatMap.mp hr
    cases e with
    | predict rule parts =>
      obtain ⟨part, hpart, rfl⟩ := List.mem_map.mp hr
      exact ⟨part, mem_predictions_of_mem_parts he hpart, rfl, NodeRecord.agrees_predicted part⟩
    | scan leaf c' tokens =>
      rw [List.mem_singleton.mp hr]
      obtain ⟨c, hc, hanchored, input, hexpansion⟩ := h.exists_expanded hlex hroot he
      obtain ⟨target, hexpands⟩ := Category.exists_expands_of_mem hlex hanchored hexpansion
      -- a word is read only where the prediction admits words
      cases hexpands with
      | scan _ hadmits => exact ⟨_, hc, rfl, rfl, hadmits⟩

/-- What is recorded at the path of a prediction is the prediction, or a word that was read at
it. -/
theorem ComesAbout.agrees_of_path_eq (hc : c ∈ predictions (BeamParser.startCategory root start) es)
    (hr : r ∈ q.records) (hpath : r.path = c.path) : r.Agrees c := by
  obtain ⟨c', hc', hpath', hagrees⟩ := h.exists_agrees hlex hroot hr
  have hnodup := (h.isFrontier hlex rfl).nodup_predicted
  rw [h.predictedPaths_eq] at hnodup
  rwa [List.inj_on_of_nodup_map hnodup hc hc' (hpath.symm.trans hpath')]

end run

/-! ### Rebuilding the merges -/

/-- However a parse has come about, the tree that is built of its records shows every merge as the
rule makes it, at the path of the prediction to which the rule was applied. -/
structure ShowsMerges (lex : Lexicon) (first : Category) (es : List Expansion)
    (q : Parse π) : Prop where
  build (s : Store) : ∃ s' surface, SurfaceTree.build s q.records = some (s', surface) ∧
    ∀ rule parts, .predict rule parts ∈ es → rule.stateType = .externalMerge →
      ∃ c ∈ predictions first es, (∃ input, .predict rule parts ∈ c.expansions lex input) ∧
        parts.map (·.path) = [c.path.left, c.path.right] ∧ s'.IsLaidOut surface rule c.path

/-- The tree of whatever comes from the prediction of a start category shows the rules of its
merges. -/
theorem ComesAbout.showsMerges (hlex : lex.WellFormed) (hroot : lex.category? start = some root)
    (h : (initial words (BeamParser.startCategory root start)).ComesAbout lex es q) :
    q.ShowsMerges lex (BeamParser.startCategory root start) es := by
  have hfrontier := h.isFrontier hlex rfl
  obtain ⟨tree, htree⟩ := hfrontier.exists_ofRecords
  refine ⟨fun s => ⟨_, _, by rw [SurfaceTree.build, htree]; rfl, fun rule parts he hrule => ?_⟩⟩
  obtain ⟨c, hc, -, input, hexpansion⟩ := h.exists_expanded hlex hroot he
  obtain ⟨head, other, rfl, hhead, hother, hlayout⟩ :=
    (Category.byRule_of_mem hlex hexpansion).layout?_eq hrule
  refine ⟨c, hc, ⟨input, hexpansion⟩, ?_, ?_⟩
  · rw [List.map_cons, List.map_singleton, hhead, hother]
  · -- both parts are recorded, so the tree has a node for each of them
    have hat {part : Category} (hpart : part ∈ [head, other]) :
        tree.at? part.path.branches ≠ none :=
      (RecordTree.at?_ofPlaced_ne_none_iff hfrontier.rooted htree).mpr
        ⟨_, mem_placed.mpr ⟨h.predicted_mem_records rule _ he part hpart, rfl⟩⟩
    have hleft := hat (List.mem_cons_self ..)
    have hright := hat (List.mem_cons_of_mem _ (List.mem_singleton_self _))
    rw [hhead] at hleft
    rw [hother] at hright
    obtain ⟨r, left, right, hway, hpart⟩ := RecordTree.exists_binary_of_at? hleft hright
    obtain ⟨hrecord, hbranches⟩ := mem_placed.mp (RecordTree.mem_of_at?_ofPlaced htree hpart)
    have hpredicted : head ∈ predictions (BeamParser.startCategory root start) es :=
      mem_predictions_of_mem_parts he (List.mem_cons_self ..)
    have hagrees : left.record.Agrees head :=
      h.agrees_of_path_eq hlex hroot hpredicted hrecord
        ((congrArg Address.mk hbranches).trans hhead.symm)
    have hshows := Store.showsMerge_build (h.projects hlex hroot htree).1 hway s .root
    exact hshows.isLaidOut Store.lookup_nodes_build (hlayout left.record hagrees)

end Parse

namespace BeamParser

variable {π : Type} [Probability π]

/-- Of every parse that is on the beam or among the results after some steps, however it has come
about, the tree that is built shows each merge as the rule makes it. -/
theorem exists_showsMerges (entries : List (String × List Feature)) (p : BeamParser π)
    (hp : p.lexicon = .ofEntries entries) (words : List String) (start : String)
    (ts : Nat → DerivationTree) (n : Nat) {q : Parse π}
    (hq : q ∈ ((p.start words start).1.after ts n).held) :
    ∃ root, p.lexicon.category? start = some root ∧
      (∃ es, (Parse.initial words (startCategory root start)).ComesAbout p.lexicon es q) ∧
      ∀ es, (Parse.initial words (startCategory root start)).ComesAbout p.lexicon es q →
        q.ShowsMerges p.lexicon (startCategory root start) es := by
  have hlex : p.lexicon.WellFormed := hp ▸ Lexicon.wellFormed_ofEntries entries
  obtain ⟨root, es, hroot, hes⟩ := exists_comesAbout_of_mem_held p words start ts n hq
  exact ⟨root, hroot, ⟨es, hes⟩, fun es' hes' => hes'.showsMerges hlex hroot⟩

/-- After four steps of the parser on a question a parse is held. -/
theorem exists_showsMerges_question :
    ∃ q ∈ ((({ lexicon := .ofEntries questionEntries, settings := { minProbability := 0 } } :
      BeamParser Rat).start ["what", "saw"] "C").1.after (fun _ => {}) 4).held, ∃ root es,
        (Parse.initial ["what", "saw"] (startCategory root "C")).ComesAbout
          (.ofEntries questionEntries) es q ∧
          q.ShowsMerges (.ofEntries questionEntries) (startCategory root "C") es := by
  obtain ⟨q, hq⟩ := List.exists_mem_of_length_pos
    (show 0 < ((({ lexicon := .ofEntries questionEntries, settings := { minProbability := 0 } } :
      BeamParser Rat).start ["what", "saw"] "C").1.after (fun _ => {}) 4).held.length
      by decide +kernel)
  obtain ⟨root, -, ⟨es, hes⟩, hshows⟩ :=
    exists_showsMerges questionEntries _ rfl ["what", "saw"] "C" (fun _ => {}) 4 hq
  exact ⟨q, hq, root, es, hes, hshows es hes⟩

-- what was asked for is the complement of the verb, and has moved to the left of both
example :
    (questionRun.1.results.head?.bind fun q => (SurfaceTree.build {} q.records).map fun (s, t) =>
      t.nodes.map fun (a, id) => (a.text, s.body? id)) =
    some [("", some (headRight, [⟨1⟩, ⟨2⟩])), ("0", some (headLeft, [⟨0⟩, ⟨1⟩])),
      ("00", some ("saw", [])), ("01", some ("what", []))] := by decide +kernel

end BeamParser
end MinimalistGrammar
