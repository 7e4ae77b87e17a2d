import MinimalistGrammar.Proofs.Beam.Ownership
import MinimalistGrammar.Proofs.Tree.Careful

/-!
# Check links of the trees of a beam parser

Each step of a beam parser rebuilds the tree of a parse, complete or not, in a store that holds the
trees of other parses. No check replaces a link, and when states are removed, a feature goes only
together with what it is linked to. So whatever parsers have run on a derivation tree, and whenever
they were stopped, the links of its store are a matching of probes and goals.

## Main definitions

* `DerivationTree.Parsed` — beam parsers have run from their starts on a new tree.

## Main results

* `DerivationTree.Parsed.build?_eq` — every tree of a run is rebuilt without a link being replaced.
* `DerivationTree.matching_of_parsed` — the links are a matching.
-/

namespace MinimalistGrammar
namespace DerivationTree

/-! ### Runs from their starts -/

/-- Beam parsers of any kind, with lexicons of entries, have been started and have taken steps on a
new tree, in any order. States have been removed and the cursor has been moved in between. -/
inductive Parsed : DerivationTree → Prop
  | new : Parsed {}
  | beamStep {t : DerivationTree} {π : Type} [Probability π] (h : Parsed t)
      {entries : List (String × List Feature)} {p : BeamParser π}
      (hp : p.lexicon = .ofEntries entries) (words : List String) (start : String)
      (ts : Nat → DerivationTree) (n : Nat) :
      Parsed (((p.start words start).1.after ts n).step t).2.1
  | move {t t' : DerivationTree} (h : Parsed t) (hmove : t.Moves t') : Parsed t'
  | removeStates {t : DerivationTree} (h : Parsed t) (ids : List StateId) :
      Parsed (t.removeStates ids).1

/-- What a parser has become depends on the trees on which it has taken its steps. -/
theorem after_congr {π : Type} [Probability π] (p : BeamParser π) {ts ts' : Nat → DerivationTree}
    {n : Nat} (h : ∀ k < n, ts' k = ts k) : p.after ts' n = p.after ts n := by
  induction n with
  | zero => rfl
  | succ n ih =>
    rw [BeamParser.after, BeamParser.after, ih fun k hk => h k (Nat.lt_succ_of_lt hk),
      h n (Nat.lt_succ_self n)]

namespace Parsed

variable {π : Type} [Probability π] {t : DerivationTree} {entries : List (String × List Feature)}
  {p : BeamParser π} {q : Parse π} {tree : RecordTree}

/-- A run that goes on takes steps. -/
theorem stepTimes_after (h : t.Parsed) (hp : p.lexicon = .ofEntries entries) (words : List String)
    (start : String) (ts : Nat → DerivationTree) (n m : Nat) :
    (((p.start words start).1.after ts n).stepTimes t m).2.1.Parsed := by
  induction m generalizing t ts n with
  | zero => exact h
  | succ m ih =>
    -- the next step is taken on this tree
    have hsame : (p.start words start).1.after (Function.update ts n t) n =
        (p.start words start).1.after ts n :=
      after_congr _ fun k hk => Function.update_of_ne (Nat.ne_of_lt hk) ..
    have hnext := ih (h.beamStep hp words start ts n) (Function.update ts n t) (n + 1)
    rw [BeamParser.stepTimes]
    rw [BeamParser.after, hsame, Function.update_self] at hnext
    exact hnext

/-- A run takes steps from its start. -/
theorem stepTimes (h : t.Parsed) (hp : p.lexicon = .ofEntries entries) (words : List String)
    (start : String) (n : Nat) : ((p.start words start).1.stepTimes t n).2.1.Parsed :=
  h.stepTimes_after hp words start (fun _ => t) 0 n

omit [Probability π] in
theorem searched (h : t.Parsed) : t.Searched := by
  induction h with
  | new => exact .new
  | beamStep _ _ words start ts n ih => exact ih.beamStep _
  | move _ hmove ih => exact ih.move hmove
  | removeStates _ ids ih => exact ih.removeStates ids

end Parsed

/-! ### Matchings -/

section matched

variable {π : Type} {t : DerivationTree} {s : Store} {q : Parse π} {tree : RecordTree}

/-- The records of a parse that is held in a run make up a tree that projects. -/
theorem projects_of_mem_held [Probability π] {p : BeamParser π}
    {entries : List (String × List Feature)} (hp : p.lexicon = .ofEntries entries)
    {words : List String} {start : String} {ts : Nat → DerivationTree} {n : Nat}
    (hq : q ∈ ((p.start words start).1.after ts n).held)
    (htree : RecordTree.ofRecords q.records = some tree) : tree.Projects := by
  have hlex : p.lexicon.WellFormed := hp ▸ Lexicon.wellFormed_ofEntries entries
  obtain ⟨root, es, hroot, hes⟩ := BeamParser.exists_comesAbout_of_mem_held p words start ts n hq
  exact (hes.projects hlex hroot htree).1

theorem isMatched_groupOf (h : s.IsMatched) (groups : Dict String GroupId) (name : String)
    (members : List ConstituentId) (color : Color) :
    (BeamParser.groupOf s groups name members color).1.IsMatched := by
  rw [BeamParser.groupOf]
  split
  · exact h
  · exact h.congr fun _ => rfl

/-- Logging a parse keeps the links a matching. -/
theorem isMatched_stepOf (hs : s.IsMatched) (hnumbered : s.IsNumbered)
    (hq : ∀ tree, RecordTree.ofRecords q.records = some tree → tree.Projects) :
    (BeamParser.stepOf s q).1.IsMatched := by
  rw [BeamParser.stepOf, SurfaceTree.build]
  cases htree : RecordTree.ofRecords q.records with
  | none => exact hs
  | some tree =>
    obtain ⟨-, hmatched, -⟩ := Store.build?_eq hnumbered (hq tree htree) .root
    exact isMatched_groupOf (isMatched_groupOf (hmatched hs) ..) ..

/-- What is linked to a feature is removed together with it. -/
theorem isMatched_removeStates (hs : t.store.IsMatched) {owner : Link → StateId}
    {keeper : GroupId → StateId} (howned : t.IsOwned owner keeper) (ids : List StateId) :
    (t.removeStates ids).1.store.IsMatched := by
  have hlinked := howned.linked?_removeStates ids
  have hfeature (fid : FeatureId) : (t.removeStates ids).1.store.feature? fid =
      if (t.doomed ids).contains (owner (.feature fid)) then none else t.store.feature? fid := by
    have heq := hlinked (.feature fid)
    split at heq
    · next hgone =>
      rw [if_pos hgone]
      exact Option.map_eq_none_iff.mp heq
    · next hstays =>
      rw [if_neg hstays]
      exact Store.feature?_of_linked? heq
  refine hs.restrict (fun fid => (t.doomed ids).contains (owner (.feature fid)) = true)
    (fun fid hgone => (hfeature fid).trans (if_pos hgone))
    (fun fid hstays => (hfeature fid).trans (if_neg hstays)) fun {a b} hab => ?_
  -- features that are linked belong to the tree of one state
  obtain ⟨f, hf, hchecks⟩ := Option.bind_eq_some_iff.mp hab
  have hmem : .feature b ∈ t.store.linksOf (.feature a) := by
    rw [Store.linksOf_feature hf]
    exact (FeatureOccurrence.forall_links_iff.mp fun l hl => hl).1 b (by simp [hchecks])
  rw [howned.owner_links hmem]

/-- The links of the store are a matching. -/
theorem Parsed.isMatched (h : t.Parsed) : t.store.IsMatched := by
  induction h with
  | new => exact Store.isMatched_empty
  | @beamStep t π _ h entries p hp words start ts n ih =>
    obtain ⟨owner, keeper, howned⟩ := h.searched.exists_isOwned
    have hheld (q : Parse π) (hq : q ∈ ((p.start words start).1.after ts n).held)
        (tree : RecordTree) (htree : RecordTree.ofRecords q.records = some tree) : tree.Projects :=
      projects_of_mem_held hp hq htree
    generalize (p.start words start).1.after ts n = p' at hheld
    rcases p'.step_cases t with ⟨status, -, heq⟩ |
      ⟨-, report, -, ⟨status, heq, -⟩ | ⟨q, beam, hpop, heq⟩⟩
    · rw [heq]
      exact ih
    · rw [heq, BeamParser.finish]
      simp only
      split
      · exact isMatched_removeStates ih howned _
      · exact ih
    · have hmem : q ∈ p'.held := by
        rw [BeamParser.held, StableQueue.toList_eq_of_pop? hpop]
        exact List.mem_append_left _ (List.mem_cons_self ..)
      -- of all that a step does, only building the tree of the parse sets links
      have hlogged := isMatched_stepOf ih howned.store.toIsNumbered (hheld q hmem)
      rw [heq, BeamParser.advance]
      simp only
      split
      · exact hlogged
      · exact hlogged
  | move _ hmove ih =>
    rw [hmove.sameStates.store]
    exact ih
  | @removeStates t h ids ih =>
    obtain ⟨owner, keeper, howned⟩ := h.searched.exists_isOwned
    exact isMatched_removeStates ih howned ids

/-- At any time, the tree of a parse that is held in a run is rebuilt without a link being
replaced. -/
theorem Parsed.build?_eq [Probability π] (h : t.Parsed) {p : BeamParser π}
    {entries : List (String × List Feature)} (hp : p.lexicon = .ofEntries entries)
    {words : List String} {start : String} {ts : Nat → DerivationTree} {n : Nat}
    (hq : q ∈ ((p.start words start).1.after ts n).held)
    (htree : RecordTree.ofRecords q.records = some tree) :
    t.store.build? .root tree = some (t.store.build .root tree) := by
  obtain ⟨owner, keeper, howned⟩ := h.searched.exists_isOwned
  exact (Store.build?_eq howned.store.toIsNumbered (projects_of_mem_held hp hq htree) .root).1

end matched

/-- Whatever beam parsers have done on a new tree, and whenever they were stopped, the links are set
from both sides, and they lead from a selector to a category or from a licensor to a licensee of the
same name. Any parse that is held in a run, complete or not, has a tree, and this is rebuilt without
a link being replaced. -/
theorem matching_of_parsed {t : DerivationTree} (h : t.Parsed) :
    (∀ a b, t.store.checks? a = some b ↔ t.store.checker? b = some a) ∧
      (∀ a b, t.store.checks? a = some b → ∃ f g,
        t.store.value? a = some f ∧ t.store.value? b = some g ∧
        f.name = g.name ∧
          (f.sign = .selector ∧ g.sign = .categorial ∨ f.sign = .licensor ∧ g.sign = .licensee)) ∧
      ∀ (π : Type) [Probability π] (entries : List (String × List Feature)) (p : BeamParser π),
        p.lexicon = .ofEntries entries → ∀ (words : List String) (start : String)
        (ts : Nat → DerivationTree) (n : Nat), ∀ q ∈ ((p.start words start).1.after ts n).held,
        ∃ tree, RecordTree.ofRecords q.records = some tree ∧
          t.store.build? .root tree = some (t.store.build .root tree) := by
  have hmatched := h.isMatched
  refine ⟨fun a b => hmatched.checks?_iff, fun a b hab => hmatched.fits hab, ?_⟩
  intro π _ entries p hp words start ts n q hq
  obtain ⟨root, es, hroot, hes⟩ := BeamParser.exists_comesAbout_of_mem_held p words start ts n hq
  have hne := RecordTree.ofPlaced_ne_none hes.mem_placed_initial
  obtain ⟨tree, htree⟩ := Option.ne_none_iff_exists'.mp hne
  exact ⟨tree, htree, h.build?_eq hp hq htree⟩

/-- After a run over a question, the object is linked to the verb that selects it and to the
licensor that attracts it, from both sides. The tree of a parse that is not complete yet can be
rebuilt beside these. -/
theorem matching_question :
    let t := BeamParser.questionRun.2.1
    let p : BeamParser Rat :=
      { lexicon := .ofEntries BeamParser.questionEntries, settings := { minProbability := 0 } }
    t.store.checks? ⟨13⟩ = some ⟨16⟩ ∧ t.store.checker? ⟨16⟩ = some ⟨13⟩ ∧
      t.store.checks? ⟨14⟩ = some ⟨17⟩ ∧ t.store.checker? ⟨17⟩ = some ⟨14⟩ ∧
      ∃ q ∈ ((p.start ["what", "saw"] "C").1.after (fun _ => {}) 2).held, q.isComplete = false ∧
        ∃ tree, RecordTree.ofRecords q.records = some tree ∧
          t.store.build? .root tree = some (t.store.build .root tree) := by
  intro t p
  have hrun : BeamParser.questionRun = (p.start ["what", "saw"] "C").1.stepTimes {} 6 := rfl
  have ht : t.Parsed := by
    show BeamParser.questionRun.2.1.Parsed
    rw [hrun]
    exact Parsed.new.stepTimes rfl ["what", "saw"] "C" 6
  obtain ⟨hmatching, -, hbuild⟩ := matching_of_parsed ht
  have hselects : t.store.checks? ⟨13⟩ = some ⟨16⟩ := by decide +kernel
  have hattracts : t.store.checks? ⟨14⟩ = some ⟨17⟩ := by decide +kernel
  obtain ⟨q, hq⟩ := List.exists_mem_of_length_pos
    (show 0 < ((p.start ["what", "saw"] "C").1.after (fun _ => {}) 2).held.length by decide +kernel)
  have hopen : (((p.start ["what", "saw"] "C").1.after (fun _ => {}) 2).held.all
      fun q => !q.isComplete) = true := by decide +kernel
  refine ⟨hselects, (hmatching _ _).mp hselects, hattracts, (hmatching _ _).mp hattracts, q, hq, ?_,
    hbuild Rat BeamParser.questionEntries p rfl ["what", "saw"] "C" (fun _ => {}) 2 q hq⟩
  simpa using List.all_eq_true.mp hopen q hq

end DerivationTree
end MinimalistGrammar
