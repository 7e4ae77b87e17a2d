import MinimalistGrammar.Proofs.Beam.Matching
import MinimalistGrammar.Proofs.Beam.Success
import MinimalistGrammar.Proofs.Tree.AtEnd

/-!
# What is left of a complete parse

The tree that is shown of a complete parse ends in the start category, and nothing is left to move.
What is on its leaves has been checked, by features of other leaves, if and only if every licensor
finds in the files of the rebuilt nodes the mover that waits for it.

## Main results

* `BeamParser.exists_checked_of_success` — what a successful step leaves.
-/

namespace MinimalistGrammar
namespace BeamParser

variable {π : Type}

/-! ### The logged state -/

section log

variable {lex : Lexicon} {q : Parse π} {d : Derivation} {s s' : Store} {surface : SurfaceTree}

/-- Groups are kept apart from nodes and features. -/
theorem same_groupOf (s : Store) (groups : Dict String GroupId) (name : String)
    (members : List ConstituentId) (color : Color) :
    (groupOf s groups name members color).1.constituents = s.constituents ∧
      (groupOf s groups name members color).1.features = s.features := by
  rw [groupOf]
  split
  · exact ⟨rfl, rfl⟩
  · exact ⟨rfl, rfl⟩

/-- The state of a parse has the nodes and features of the tree that is built from its records. -/
theorem same_stepOf (h : SurfaceTree.build s q.records = some (s', surface)) :
    (∀ id, (stepOf s q).1.constituent? id = s'.constituent? id) ∧
      ∀ fid, (stepOf s q).1.feature? fid = s'.feature? fid := by
  obtain ⟨hnodes, hfeatures⟩ := same_groupOf s' ∅ "new" (freshNodes q surface) newColor
  rw [stepOf, h]
  refine ⟨fun id => ?_, fun fid => ?_⟩
  · exact congrArg (·[id]?) ((same_groupOf ..).1.trans hnodes)
  · exact congrArg (·[fid]?) ((same_groupOf ..).2.trans hfeatures)

/-- What is left of a complete parse in its state. -/
theorem exists_checked_of_isCompletedBy {words : List String} {start : String}
    (hlex : lex.WellFormed) (hq : q.IsCoherent lex) (hcomplete : q.isComplete = true)
    (hd : q.IsCompletedBy lex d) (hderives : d.Derives lex words start)
    (hprojects : ∀ tree, RecordTree.ofRecords q.records = some tree →
      tree.Projects ∧ tree.record.features = [.categorial start])
    (b : BeamParser π) (t : DerivationTree) (ht : t.store.IsNumbered) :
    ∃ state root, (b.logParse q t).2.1.state? (b.logParse q t).2.2 = some state ∧
      state.roots = [root] ∧
      (b.logParse q t).2.1.store.IsAtEnd root start ∧
      ((b.logParse q t).2.1.store.IsChecked root ↔ d.isFaithful lex = true) := by
  obtain ⟨tree, htree, hencodes⟩ := hq.exists_encodes hcomplete hd
  obtain ⟨htreeProjects, hrecord⟩ := hprojects tree htree
  obtain ⟨p, hp, -, hfeatures, hmovers⟩ := hderives
  have hbuild := surfaceTree_build_eq htree t.store
  obtain ⟨hroots, -⟩ := stepOf_eq hbuild
  obtain ⟨hnode, hfeature⟩ := same_stepOf hbuild
  have hstate := DerivationTree.state?_addStep { t with store := (stepOf t.store q).1 }
    (stepOf t.store q).2 q.previous ⟨t.nextId⟩
  rw [if_pos rfl] at hstate
  refine ⟨_, (t.store.build .root tree).2.id, hstate, hroots, ?_, ?_⟩
  · exact (Store.isAtEnd_build hlex hencodes htreeProjects hp hfeatures hmovers hrecord ht
      .root).congr hnode hfeature
  · rw [← Store.isChecked_build_iff hlex hencodes htreeProjects hp hmovers ht .root]
    exact ⟨fun h => h.congr (fun id => (hnode id).symm) fun fid => (hfeature fid).symm,
      fun h => h.congr hnode hfeature⟩

end log

/-! ### Successful steps -/

section success

variable [Probability π] {p : BeamParser π} {id : StateId}

/-- A run stays what it is, whatever happens to the tree between its steps. -/
theorem IsRunning.after {lex : Lexicon} {words : List String} {start : String}
    (hlex : lex.WellFormed) (h : IsRunning lex words start p) (ts : Nat → DerivationTree)
    (n : Nat) : IsRunning lex words start (p.after ts n) := by
  induction n with
  | zero => exact h
  | succ n ih => exact (ih.step hlex (ts n)).1

/-- A successful step of any run logs a state with one root for a result of the run. The only
feature of the root is the start category, and nothing is left to move. Every other feature on a
leaf of the tree has been checked, has checked another one or adjoins, and none has checked one on
its own leaf, if and only if every licensor finds the mover that waits for it where the rebuilt
nodes file it. -/
theorem exists_checked_of_success (entries : List (String × List Feature)) (p : BeamParser π)
    (hp : p.lexicon = .ofEntries entries) (words : List String) (start : String)
    (ts : Nat → DerivationTree) (n : Nat) (t : DerivationTree) (ht : t.IsClosed)
    (hsuccess : (((p.start words start).1.after ts n).step t).2.2 = .success id) :
    let (p', t', _) := ((p.start words start).1.after ts n).step t
    ∃ state root d, t'.state? id = some state ∧ state.roots = [root] ∧
      (∃ q ∈ p'.results, q.state = some id ∧ q.derivation? p.lexicon = some d) ∧
      d.Derives p.lexicon words start ∧ t'.store.IsAtEnd root start ∧
      (t'.store.IsChecked root ↔ d.isFaithful p.lexicon = true) := by
  have hlex : p.lexicon.WellFormed := hp ▸ Lexicon.wellFormed_ofEntries entries
  have hrunning := (isRunning_start hlex words start).1.after hlex ts n
  obtain ⟨q, hq, p', heq⟩ := exists_advance_of_success hsuccess
  -- the records of the parse go back to the start category
  obtain ⟨first, es, hfirst, hes⟩ := exists_comesAbout_of_mem_held p words start ts n hq
  obtain ⟨hnext, -⟩ := hrunning.step hlex t
  simp only [heq] at hsuccess hnext ⊢
  obtain ⟨hcomplete, rfl, htree, hresult⟩ := isComplete_of_advance hsuccess
  rw [htree]
  -- the parse is that of a derivation
  obtain ⟨d, hd⟩ := hnext.exists_isCompletedBy hresult
  have hread := (hnext.derivation?_eq_some_iff hresult).mpr hd
  have hderives := hrunning.sound hq (show q.IsCompletedBy p.lexicon d from hd)
  obtain ⟨state, root, hstate, hroots, hend, hchecked⟩ :=
    exists_checked_of_isCompletedBy hlex (hrunning.coherent hq) hcomplete hd hderives
      (fun _ => hes.projects hlex hfirst) p' t ht.store.toIsNumbered
  exact ⟨state, root, d, hstate, hroots, ⟨_, hresult, rfl, hread⟩, hderives, hend, hchecked⟩

/-- The fifth step over a question finds its parse, and what is on the leaves of its tree has been
checked. -/
theorem exists_checked_question :
    let p : BeamParser Rat :=
      { lexicon := .ofEntries questionEntries, settings := { minProbability := 0 } }
    let ts (n : Nat) := ((p.start ["what", "saw"] "C").1.stepTimes {} n).2.1
    let (_, t', r) := ((p.start ["what", "saw"] "C").1.after ts 4).step (ts 4)
    r = .success ⟨4⟩ ∧ ∃ state root, t'.state? ⟨4⟩ = some state ∧ state.roots = [root] ∧
      t'.store.IsAtEnd root "C" ∧ t'.store.IsChecked root := by
  intro p ts
  have hsuccess :
      (((p.start ["what", "saw"] "C").1.after ts 4).step (ts 4)).2.2 = .success ⟨4⟩ := by
    decide +kernel
  have hall : ((((p.start ["what", "saw"] "C").1.after ts 4).step (ts 4)).1.results.all fun q =>
      (q.derivation? (.ofEntries questionEntries)).all
        (Derivation.isFaithful (.ofEntries questionEntries))) = true := by decide +kernel
  have hparsed : (ts 4).Parsed := DerivationTree.Parsed.new.stepTimes rfl ["what", "saw"] "C" 4
  obtain ⟨owner, keeper, howned⟩ := hparsed.searched.exists_isOwned
  have hleft := exists_checked_of_success questionEntries p rfl ["what", "saw"] "C" ts 4 (ts 4)
    howned.toIsClosed hsuccess
  generalize ((p.start ["what", "saw"] "C").1.after ts 4).step (ts 4) =
    step at hsuccess hall hleft ⊢
  obtain ⟨state, root, d, hstate, hroots, ⟨q, hq, -, hd⟩, -, hend, hchecked⟩ := hleft
  have hfaithful := List.all_eq_true.mp hall q hq
  rw [hd] at hfaithful
  exact ⟨hsuccess, state, root, hstate, hroots, hend, hchecked.mpr hfaithful⟩

-- the verb, which itself moves under the name of its object, checks itself, and its object is left
-- over
example :
    let lex := .ofEntries
      [("saw", [.selector "D", .licensor "wh", .categorial "V", .licensee "wh"]),
      ("what", [.categorial "D", .licensee "wh"]),
      ("", [.selector "V", .licensor "wh", .categorial "C"])]
    let run := (({ lexicon := lex, settings := { minProbability := 0 } } :
      BeamParser Rat).start ["what", "saw"] "C").1.stepTimes {} 8
    run.2.2.getLast? = some (.success ⟨7⟩) ∧ run.2.1.store.checks? ⟨45⟩ = some ⟨47⟩ ∧
      run.2.1.store.host? ⟨45⟩ = run.2.1.store.host? ⟨47⟩ ∧ run.2.1.store.checker? ⟨49⟩ = none ∧
      run.2.1.store.checks? ⟨42⟩ = none := by decide +kernel

end success

end BeamParser
end MinimalistGrammar
