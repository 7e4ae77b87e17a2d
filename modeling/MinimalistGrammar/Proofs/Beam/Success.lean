import MinimalistGrammar.Proofs.Beam.Results
import MinimalistGrammar.Proofs.Tree.Building

/-!
# What is shown of a complete parse

A step that finds a complete parse logs it as a state with one root, that of the tree which was
rebuilt from its records. This tree is that of the derivation if every licensor finds in the files
of the rebuilt nodes the mover that waits for it, and then it has the words of the input.

## Main results

* `BeamParser.exists_shown_of_success` — what a successful step shows.
-/

namespace MinimalistGrammar
namespace BeamParser

variable {π : Type}

/-! ### The logged state -/

section log

variable {lex : Lexicon} {q : Parse π} {d : Derivation} {s s' : Store} {surface : SurfaceTree}

@[simp] theorem outline?_groupOf (s : Store) (groups : Dict String GroupId) (name : String)
    (members : List ConstituentId) (color : Color) (id : ConstituentId) :
    (groupOf s groups name members color).1.outline? id = s.outline? id := by
  rw [groupOf]
  split <;> rfl

/-- The state of a parse shows the tree that is built from its records. -/
theorem stepOf_eq (h : SurfaceTree.build s q.records = some (s', surface)) :
    (stepOf s q).2.roots = [surface.root] ∧
      ∀ id, (stepOf s q).1.outline? id = s'.outline? id := by
  rw [stepOf, h]
  exact ⟨rfl, fun id => by simp⟩

theorem surfaceTree_build_eq {tree : RecordTree} {records : List NodeRecord}
    (h : RecordTree.ofRecords records = some tree) (s : Store) :
    SurfaceTree.build s records = some ((s.build .root tree).1,
      { root := (s.build .root tree).2.id, nodes := (s.build .root tree).2.nodes }) := by
  rw [SurfaceTree.build, h]
  rfl

/-- What a state shows of a complete parse: one root, whose tree follows the derivation if and only
if this is faithful, and then has its words. -/
theorem exists_shown_of_isCompletedBy {p : Phrase} {words : List String} (hq : q.IsCoherent lex)
    (hcomplete : q.isComplete = true) (hd : q.IsCompletedBy lex d) (hp : d.phrase? lex = some p)
    (hwords : p.words = words) (hmovers : p.movers = ∅) (b : BeamParser π) (t : DerivationTree) :
    ∃ state root, (b.logParse q t).2.1.state? (b.logParse q t).2.2 = some state ∧
      state.roots = [root] ∧
      ((b.logParse q t).2.1.store.Follows lex (root.index + 1 - d.size) d ↔
        d.isFaithful lex = true) ∧
      (d.isFaithful lex = true → (b.logParse q t).2.1.store.linearize root = words) := by
  obtain ⟨tree, htree, hencodes⟩ := hq.exists_encodes hcomplete hd
  obtain ⟨hroots, houtline⟩ := stepOf_eq (surfaceTree_build_eq htree t.store)
  have hstate := DerivationTree.state?_addStep { t with store := (stepOf t.store q).1 }
    (stepOf t.store q).2 q.previous ⟨t.nextId⟩
  rw [if_pos rfl] at hstate
  have hgrows := t.store.grows_build .root tree
  obtain ⟨hfollows, hbuilt⟩ := Store.build_spec hencodes hp t.store .root
  have hstore : (b.logParse q t).2.1.store = (stepOf t.store q).1 := rfl
  refine ⟨_, (t.store.build .root tree).2.id, hstate, hroots, ?_, fun hfaithful => ?_⟩
  · rw [hgrows.root, hgrows.next, hencodes.size_eq, Nat.add_sub_cancel, hstore, ← hfollows]
    exact Store.follows_congr fun n _ => Store.body?_congr _ (houtline _)
  · obtain ⟨root, hbuilt⟩ := hbuilt hfaithful
    have hpos := d.size_pos
    -- nothing waits, so the tree has settled
    have hsettles : (t.store.build .root tree).1.Settles (stepOf t.store q).1
        t.store.nextConstituent d.size (d.waiting lex) := by
      rw [Derivation.waiting_eq_empty hp hmovers]
      refine ⟨fun _ _ => houtline _, fun h => absurd h (by simp), fun {n} hn => ?_⟩
      have hroot := hbuilt.outline
      rw [hbuilt.id_eq, show d.size - 1 = n by omega] at hroot
      exact ⟨root, root.landing, hroot, (houtline _).trans hroot⟩
    rw [hstore, ← hwords]
    exact (hbuilt.spells hsettles).1.linearize_eq

end log

/-! ### Successful steps -/

section success

variable [Probability π] {p : BeamParser π} {q : Parse π} {t : DerivationTree} {id : StateId}

/-- Only a parse that is complete makes a step succeed, and it becomes a result. -/
theorem isComplete_of_advance (h : (p.advance q t).2.2 = .success id) :
    q.isComplete = true ∧ (p.logParse q t).2.2 = id ∧
      (p.advance q t).2.1 = (p.logParse q t).2.1 ∧
      { q with state := some id } ∈ (p.advance q t).1.results := by
  rcases p.advance_cases q t with ⟨hcomplete, text, heq⟩ | ⟨-, heq⟩ <;> rw [heq] at h ⊢
  · obtain rfl := StepResult.success.inj h
    exact ⟨hcomplete, rfl, rfl, List.mem_append_right _ (List.mem_singleton_self _)⟩
  · have hcontinues := (p.logParse q t).1.continues_expand
      { q with state := some (p.logParse q t).2.2 } (p.logParse q t).2.2
    generalize (p.logParse q t).1.expand _ _ = r at hcontinues h
    cases hcontinues <;> exact absurd h (by simp)

/-- A successful step takes a complete parse off the beam. -/
theorem exists_advance_of_success (h : (p.step t).2.2 = .success id) :
    ∃ q ∈ p.held, ∃ p' : BeamParser π, p.step t = p'.advance q t := by
  rcases step_cases p t with ⟨status, -, heq⟩ |
    ⟨-, report, -, ⟨status, heq, -⟩ | ⟨q, beam, hpop, heq⟩⟩
  · rw [heq] at h
    exact absurd h (by simp)
  · rw [heq] at h
    exact absurd h (by simp [finish])
  · refine ⟨q, ?_, _, heq⟩
    rw [held, StableQueue.toList_eq_of_pop? hpop]
    exact List.mem_append_left _ (List.mem_cons_self ..)

/-- A successful step of any run logs a state with one root for a result of the run. The result is a
derivation of the input. The tree below the root follows this derivation if and only if every
licensor finds the mover that waits for it where the rebuilt nodes file it, and then the tree is
pronounced as the input. -/
theorem exists_shown_of_success (entries : List (String × List Feature)) (p : BeamParser π)
    (hp : p.lexicon = .ofEntries entries) (words : List String) (start : String)
    (t : DerivationTree) (n : Nat)
    (hsuccess : (((p.start words start).1.stepTimes t n).1.step
      ((p.start words start).1.stepTimes t n).2.1).2.2 = .success id) :
    let run := (p.start words start).1.stepTimes t n
    let (p', t', _) := run.1.step run.2.1
    ∃ state root d, t'.state? id = some state ∧ state.roots = [root] ∧
      (∃ q ∈ p'.results, q.state = some id ∧ q.derivation? p.lexicon = some d) ∧
      d.Derives p.lexicon words start ∧
      (t'.store.Follows p.lexicon (root.index + 1 - d.size) d ↔ d.isFaithful p.lexicon = true) ∧
      (d.isFaithful p.lexicon = true → t'.store.linearize root = words) := by
  have hlex : p.lexicon.WellFormed := hp ▸ Lexicon.wellFormed_ofEntries entries
  have hrunning := ((isRunning_start hlex words start).1.stepTimes hlex t n).1
  generalize (p.start words start).1.stepTimes t n = run at hsuccess hrunning
  obtain ⟨hnext, -⟩ := hrunning.step hlex run.2.1
  obtain ⟨q, hq, p', heq⟩ := exists_advance_of_success hsuccess
  simp only [heq] at hsuccess hnext ⊢
  obtain ⟨hcomplete, rfl, htree, hresult⟩ := isComplete_of_advance hsuccess
  rw [htree]
  have hcoherent := hrunning.coherent hq
  -- the parse is that of a derivation
  obtain ⟨d, hderivation⟩ := hnext.exists_isCompletedBy hresult
  have hread := (hnext.derivation?_eq_some_iff hresult).mpr hderivation
  have hd : q.IsCompletedBy p.lexicon d := hderivation
  have hderives := hrunning.sound hq hd
  obtain ⟨r, hr, hwords, -, hmovers⟩ := hderives
  obtain ⟨state, root, hstate, hroots, hfollows, hlinearize⟩ :=
    exists_shown_of_isCompletedBy hcoherent hcomplete hd hr hwords hmovers p' run.2.1
  exact ⟨state, root, d, hstate, hroots, ⟨_, hresult, rfl, hread⟩, hrunning.sound hq hd, hfollows,
    hlinearize⟩

/-- The fifth step over a question finds its parse, and what is shown of it is pronounced as the
question. -/
theorem exists_shown_question :
    let run := (({ lexicon := .ofEntries questionEntries, settings := { minProbability := 0 } } :
      BeamParser Rat).start ["what", "saw"] "C").1.stepTimes {} 4
    let (_, t', r) := run.1.step run.2.1
    r = .success ⟨4⟩ ∧ ∃ state root, t'.state? ⟨4⟩ = some state ∧ state.roots = [root] ∧
      t'.store.linearize root = ["what", "saw"] := by
  intro run
  have hsuccess : (run.1.step run.2.1).2.2 = .success ⟨4⟩ := by decide +kernel
  have hall : ((run.1.step run.2.1).1.results.all fun q =>
      (q.derivation? (.ofEntries questionEntries)).all
        (Derivation.isFaithful (.ofEntries questionEntries))) = true := by decide +kernel
  obtain ⟨state, root, d, hstate, hroots, ⟨q, hq, -, hd⟩, -, -, hlinearize⟩ :=
    exists_shown_of_success questionEntries _ rfl ["what", "saw"] "C" {} 4 hsuccess
  have hfaithful := List.all_eq_true.mp hall q hq
  rw [hd] at hfaithful
  exact ⟨hsuccess, state, root, hstate, hroots, hlinearize hfaithful⟩

-- the verb, which itself moves under the name of its object, hides the object that it attracts
example :
    let lex := .ofEntries
      [("saw", [.selector "D", .licensor "wh", .categorial "V", .licensee "wh"]),
      ("what", [.categorial "D", .licensee "wh"]),
      ("", [.selector "V", .licensor "wh", .categorial "C"])]
    let run := (({ lexicon := lex, settings := { minProbability := 0 } } :
      BeamParser Rat).start ["what", "saw"] "C").1.stepTimes {} 8
    (run.1.results.map fun q => (q.derivation? lex).map (Derivation.isFaithful lex)) =
      [some false] := by decide +kernel

end success

end BeamParser
end MinimalistGrammar
