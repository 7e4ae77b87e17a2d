import Mathlib.Logic.Function.Basic
import MinimalistGrammar.Archive.Tree
import MinimalistGrammar.Proofs.Beam.Following

/-!
# Parsers that share a derivation tree

Several parsers are called in turn, and all add their states to one tree, which may have states from
the outset. Every run goes the way that it would go alone: its steps have the same results, it ends
alike and finds the same parses, under other numbers of states, and it says the same.

There is one exception. A tree that was loaded may have a state whose parent is not there, under a
number that was not given out. If a run gets this number and the state it names turns out to be a
dead end, the old state is removed along with it, and is counted in what the run says at its end.

## Main definitions

* `Call` — what is done with one of several parsers.
* `Sharing` — several parsers and their tree.
* `Sharing.callAll`, `Sharing.resultsOf` — some calls one after the other, and what the steps of one
  parser have done.

* `Sharing.IsReady` — a parser does not touch the states of a run, or is started before it takes a
  step.
* `Sharing.IsAlike` — a run among others is like a run on a tree of its own.

## Main results

* `Sharing.exists_isAlike` — this holds from any point of a run on.
* `Sharing.exists_alike_callAll` — every run goes the way of a run by a new parser on a new tree.
-/

namespace MinimalistGrammar

/-- What is done with one of several parsers. -/
inductive Call
  /-- A run over some words is started. -/
  | start (words : List String) (start : String)
  /-- One step is taken. -/
  | step
deriving DecidableEq

/-- Several parsers and the derivation tree to which they add their states. -/
structure Sharing (ι π : Type) where
  parsers : ι → BeamParser π
  tree : DerivationTree

namespace Sharing

open BeamParser

section calls

variable {ι π : Type} [DecidableEq ι] [Probability π]

/-- Calls one of the parsers, and tells what it has done if that was a step. -/
def call (s : Sharing ι π) (i : ι) : Call → Sharing ι π × List (ι × StepResult)
  | .start words start =>
    ({ s with parsers := Function.update s.parsers i ((s.parsers i).start words start).1 }, [])
  | .step =>
    let (p, tree, result) := (s.parsers i).step s.tree
    ({ parsers := Function.update s.parsers i p, tree }, [(i, result)])

/-- Calls the parsers one after the other, and tells what every step has done. -/
def callAll (s : Sharing ι π) : List (ι × Call) → Sharing ι π × List (ι × StepResult)
  | [] => (s, [])
  | (i, c) :: rest =>
    let (s, results) := s.call i c
    let (s, results') := s.callAll rest
    (s, results ++ results')

/-- What the steps of one parser have done. -/
def resultsOf (i : ι) (results : List (ι × StepResult)) : List StepResult :=
  (results.filter (·.1 = i)).map (·.2)

/-- No step of a parser is taken before it is started. -/
def StartsFirst (i : ι) (calls : List (ι × Call)) : Prop := calls.find? (·.1 = i) ≠ some (i, .step)

instance (i : ι) (calls : List (ι × Call)) : Decidable (StartsFirst i calls) :=
  inferInstanceAs (Decidable (_ ≠ _))

/-! ### One call -/

section call

variable {s : Sharing ι π} {i j : ι} {c : Call} {rest : List (ι × Call)} {own : List StateId}

theorem parsers_call_of_ne (hij : i ≠ j) (c : Call) : (s.call j c).1.parsers i = s.parsers i := by
  cases c with
  | start | step => exact Function.update_of_ne hij _ _

theorem startsFirst_of_ne (h : StartsFirst i ((j, c) :: rest)) (hij : i ≠ j) :
    StartsFirst i rest := by
  rwa [StartsFirst, List.find?_cons_of_neg (by simpa using hij.symm)] at h

/-- A parser is ready for the calls that are to come: it keeps off the states of `own`, or is
started first. -/
def IsReady (own : List StateId) (s : Sharing ι π) (rest : List (ι × Call)) (i : ι) : Prop :=
  StartsFirst i rest ∨ BeamParser.IsApart own (s.parsers i) s.tree

/-- A parser that is ready leaves the states of `own` alone when it is called, and is ready
again. -/
theorem IsReady.call (h : IsReady own s ((i, c) :: rest) i)
    (hlt : ∀ a ∈ own, a.index < s.tree.nextId)
    (hparent : ∀ b a, s.tree.parent? b = some a → b ∈ own → a ∈ own) :
    s.tree.Spares own (s.call i c).1.tree ∧ IsReady own (s.call i c).1 rest i := by
  cases c with
  | start words start =>
    refine ⟨.refl own s.tree, Or.inr ?_⟩
    show BeamParser.IsApart own (Function.update s.parsers i _ i) s.tree
    rw [Function.update_self]
    exact .start ..
  | step =>
    have hapart : BeamParser.IsApart own (s.parsers i) s.tree := by
      refine h.resolve_left fun hfirst => hfirst ?_
      rw [List.find?_cons_of_pos (by simp)]
    obtain ⟨hspares, hstep⟩ := hapart.step hlt hparent
    refine ⟨hspares, Or.inr ?_⟩
    show BeamParser.IsApart own (Function.update s.parsers i _ i) _
    rw [Function.update_self]
    exact hstep

/-- A call of another parser does not matter. -/
theorem IsReady.of_ne (h : IsReady own s ((j, c) :: rest) i) (hij : i ≠ j)
    (hle : s.tree.nextId ≤ (s.call j c).1.tree.nextId) : IsReady own (s.call j c).1 rest i := by
  refine h.imp (fun hfirst => startsFirst_of_ne hfirst hij) fun hapart => ?_
  rw [parsers_call_of_ne hij]
  exact hapart.of_le hle

end call

/-! ### Before a run -/

/-- Parsers that are ready stay ready, and the numbers stay in order. -/
theorem isReady_callAll {s : Sharing ι π} {calls rest : List (ι × Call)}
    (h : ∀ i, IsReady [] s (calls ++ rest) i) :
    (∀ i, IsReady [] (s.callAll calls).1 rest i) ∧
      (s.tree.IsCounted → (s.callAll calls).1.tree.IsCounted) := by
  induction calls generalizing s with
  | nil => exact ⟨h, fun hcounted => hcounted⟩
  | cons x calls ih =>
    obtain ⟨j, c⟩ := x
    obtain ⟨hspares, hready⟩ := (h j).call (fun _ ha => absurd ha List.not_mem_nil)
      fun _ _ _ hb => absurd hb List.not_mem_nil
    obtain ⟨hrest, hcounted⟩ := ih (s := (s.call j c).1) fun i => by
      by_cases hij : i = j
      · exact hij ▸ hready
      · exact (h i).of_ne hij hspares.nextId_le
    exact ⟨hrest, fun ht => hcounted (hspares.isSealed ht.isSealed_nil).toIsCounted⟩

/-! ### After a run -/

theorem resultsOf_append (i : ι) (results results' : List (ι × StepResult)) :
    resultsOf i (results ++ results') = resultsOf i results ++ resultsOf i results' := by
  rw [resultsOf, List.filter_append, List.map_append]
  rfl

/-- A step tells what it has done. -/
theorem resultsOf_step (s : Sharing ι π) (i : ι) :
    resultsOf i (s.call i .step).2 = [((s.parsers i).step s.tree).2.2] := by
  simp [resultsOf, call]

theorem parsers_step (s : Sharing ι π) (i : ι) :
    (s.call i .step).1.parsers i = ((s.parsers i).step s.tree).1 :=
  Function.update_self ..

theorem resultsOf_call_of_ne {i j : ι} (hij : i ≠ j) (s : Sharing ι π) (c : Call) :
    resultsOf i (s.call j c).2 = [] := by
  cases c with
  | start => rfl
  | step => simp [resultsOf, call, hij.symm]

omit [Probability π] in
theorem count_cons_of_ne {i j : ι} (hij : i ≠ j) (c : Call) (calls : List (ι × Call)) :
    ((j, c) :: calls).count (i, .step) = calls.count (i, .step) :=
  List.count_cons_of_ne fun heq => hij (congrArg Prod.fst heq).symm

/-- After its end a run does nothing, whatever the other parsers do. -/
theorem callAll_of_status {s : Sharing ι π} {i : ι} {calls : List (ι × Call)} {status : ParseStatus}
    (h : (s.parsers i).status = some status)
    (hcalls : ∀ words start, (i, .start words start) ∉ calls) :
    (s.callAll calls).1.parsers i = s.parsers i ∧
      resultsOf i (s.callAll calls).2 = List.replicate (calls.count (i, .step))
        (.finished status) := by
  induction calls generalizing s with
  | nil => exact ⟨rfl, rfl⟩
  | cons x calls ih =>
    obtain ⟨j, c⟩ := x
    have hrest : ∀ words start, (i, .start words start) ∉ calls := fun words start hmem =>
      hcalls words start (List.mem_cons_of_mem _ hmem)
    rw [callAll, resultsOf_append]
    by_cases hij : i = j
    · subst hij
      cases c with
      | start words start => exact absurd (List.mem_cons_self ..) (hcalls words start)
      | step =>
        have hstep : (s.parsers i).step s.tree = (s.parsers i, s.tree, .finished status) := by
          rw [BeamParser.step, h]
        have hparser : (s.call i .step).1.parsers i = s.parsers i := by rw [parsers_step, hstep]
        obtain ⟨hparser', hresults⟩ := ih (s := (s.call i .step).1) (hparser.symm ▸ h) hrest
        refine ⟨hparser'.trans hparser, ?_⟩
        rw [resultsOf_step, hstep, hresults, List.count_cons_self, List.replicate_succ]
        rfl
    · have hparser := parsers_call_of_ne (s := s) hij c
      obtain ⟨hparser', hresults⟩ := ih (s := (s.call j c).1) (hparser.symm ▸ h) hrest
      refine ⟨hparser'.trans hparser, ?_⟩
      rw [resultsOf_call_of_ne hij, count_cons_of_ne hij, hresults, List.nil_append]

/-! ### During a run -/

theorem callAll_cons (s : Sharing ι π) (i : ι) (c : Call) (calls : List (ι × Call)) :
    s.callAll ((i, c) :: calls) =
      (((s.call i c).1.callAll calls).1, (s.call i c).2 ++ ((s.call i c).1.callAll calls).2) :=
  rfl

/-- When a run has logged one more state, the other parsers keep off it as well. -/
theorem IsReady.append {s : Sharing ι π} {i j : ι} {calls : List (ι × Call)} {own : List StateId}
    (h : IsReady own s ((i, .step) :: calls) j) (hij : j ≠ i)
    (hle : s.tree.nextId ≤ (s.call i .step).1.tree.nextId) :
    IsReady (own ++ [⟨s.tree.nextId⟩]) (s.call i .step).1 calls j := by
  refine h.imp (fun hfirst => startsFirst_of_ne hfirst hij) fun hapart => ?_
  rw [parsers_call_of_ne hij]
  exact hapart.append hle

/-- The run of one of the parsers, from some point on, is like that of `p'` on `t'`, whatever is
done with the other parsers. If the tree is `tidy`, both say exactly the same. -/
structure IsAlike (f : StateId → StateId) (said : Array Message) (tidy : Prop) (i : ι)
    (s : Sharing ι π) (calls : List (ι × Call)) (p' : BeamParser π)
    (t' : DerivationTree) : Prop where
  results : resultsOf i (s.callAll calls).2 =
    (p'.stepTimes t' (calls.count (i, .step))).2.2.map (StepResult.rename f)
  echoes :
    Echoes f said ((s.callAll calls).1.parsers i) (p'.stepTimes t' (calls.count (i, .step))).1
  messages : tidy → ((s.callAll calls).1.parsers i).report.messages =
    said ++ (p'.stepTimes t' (calls.count (i, .step))).1.report.messages

namespace IsAlike

variable {f : StateId → StateId} {said : Array Message} {tidy : Prop} {i j : ι} {s : Sharing ι π}
  {calls : List (ι × Call)} {p' : BeamParser π} {t' : DerivationTree}

/-- Nothing happens after the end of both runs. -/
theorem of_status {status : ParseStatus} (hstatus : p'.status = some status)
    (hcalls : ∀ words start, (i, .start words start) ∉ calls)
    (hechoes : Echoes f said (s.parsers i) p')
    (hmessages : tidy → (s.parsers i).report.messages = said ++ p'.report.messages) :
    IsAlike f said tidy i s calls p' t' := by
  obtain ⟨hkept, hresults⟩ := callAll_of_status (hechoes.status.trans hstatus) hcalls
  have halone := stepTimes_of_status hstatus t' (calls.count (i, .step))
  refine ⟨?_, ?_, ?_⟩
  · rw [halone, hresults, List.map_replicate]
    rfl
  · rwa [halone, hkept]
  · rwa [halone, hkept]

/-- Both runs take a step. -/
theorem cons_step
    (h : IsAlike f said tidy i (s.call i .step).1 calls (p'.step t').1 (p'.step t').2.1)
    (hresult : ((s.parsers i).step s.tree).2.2 = (p'.step t').2.2.rename f) :
    IsAlike f said tidy i s ((i, .step) :: calls) p' t' := by
  have hcount : ((i, Call.step) :: calls).count (i, .step) = calls.count (i, .step) + 1 :=
    List.count_cons_self
  refine ⟨?_, ?_, ?_⟩
  · rw [hcount, callAll_cons, resultsOf_append, resultsOf_step, hresult, h.results]
    rfl
  · rw [hcount]
    exact h.echoes
  · rw [hcount]
    exact h.messages

/-- Another parser is called. -/
theorem cons_of_ne (hij : i ≠ j) {c : Call} (h : IsAlike f said tidy i (s.call j c).1 calls p' t') :
    IsAlike f said tidy i s ((j, c) :: calls) p' t' := by
  refine ⟨?_, ?_, ?_⟩
  · rw [count_cons_of_ne hij, callAll_cons, resultsOf_append, resultsOf_call_of_ne hij,
      List.nil_append]
    exact h.results
  · rw [count_cons_of_ne hij]
    exact h.echoes
  · rw [count_cons_of_ne hij]
    exact h.messages

end IsAlike

/-- From any point of a run on, it is like the run on a tree of its own. -/
theorem exists_isAlike {s : Sharing ι π} {i : ι} {calls : List (ι × Call)} {said : Array Message}
    {tidy : Prop} {p' : BeamParser π} {t' : DerivationTree}
    (h : Follows said (s.parsers i) s.tree p' t')
    (htidy : tidy → s.tree.IsSealed (s.parsers i).logged)
    (hready : ∀ j, j ≠ i → IsReady (s.parsers i).logged s calls j)
    (hcalls : ∀ words start, (i, .start words start) ∉ calls) :
    ∃ f : StateId → StateId, f.Injective ∧ (s.parsers i).logged = p'.logged.map f ∧
      IsAlike f said tidy i s calls p' t' := by
  induction calls generalizing s p' t' with
  | nil =>
    obtain ⟨f, hf, hnames⟩ := h.exists_naming
    have hmirrors := h.mirrors hf hnames
    exact ⟨f, hf, hnames, rfl, hmirrors.echoes, fun _ => hmirrors.messages⟩
  | cons x calls ih =>
    obtain ⟨j, c⟩ := x
    have hrest : ∀ words start, (i, .start words start) ∉ calls := fun words start hmem =>
      hcalls words start (List.mem_cons_of_mem _ hmem)
    by_cases hij : i = j
    · subst hij
      cases c with
      | start words start => exact absurd (List.mem_cons_self ..) (hcalls words start)
      | step =>
        have hparser := parsers_step s i
        obtain ⟨f, hf, hnames⟩ := h.exists_naming
        cases hstatus : p'.status with
        | some status =>
          have hmirrors := h.mirrors hf hnames
          exact ⟨f, hf, hnames,
            .of_status hstatus hcalls hmirrors.echoes fun _ => hmirrors.messages⟩
        | none =>
          rcases h.step hstatus with ⟨status, hend, hresult, hresult', halike⟩ |
            ⟨hfollows, hlogged, hle, hsealed, hnames⟩
          · -- the run ends, and what comes afterwards does not matter
            obtain ⟨hechoes, hmessages⟩ := halike f hf hnames
            rw [← hparser] at hechoes hmessages
            refine ⟨f, hf, hnames, .cons_step (.of_status hend hrest hechoes fun ht => ?_) ?_⟩
            · exact hmessages (htidy ht)
            · rw [hresult, hresult']
              rfl
          · rw [← hparser] at hfollows hlogged hsealed hnames
            obtain ⟨f, hf, hnamed, halike⟩ := ih (s := (s.call i .step).1) hfollows
              (fun ht => hsealed (htidy ht))
              (fun j hj => by rw [hlogged]; exact (hready j hj).append hj hle) hrest
            obtain ⟨hnamed', hresult⟩ := hnames f hf hnamed
            exact ⟨f, hf, hnamed', halike.cons_step hresult⟩
    · -- another parser is called, which spares the states of the run
      obtain ⟨hspares, hj⟩ := (hready j (Ne.symm hij)).call (fun _ ha => h.lt ha)
        fun _ _ hp hb => h.mem_logged_of_parent? hp hb
      have hfollows := h.of_spares hspares
      have hsealed := fun ht => hspares.isSealed (htidy ht)
      have hothers (k : ι) (hk : k ≠ i) : IsReady (s.parsers i).logged (s.call j c).1 calls k := by
        by_cases hkj : k = j
        · exact hkj ▸ hj
        · exact (hready k hk).of_ne hkj hspares.nextId_le
      rw [← parsers_call_of_ne (s := s) hij c] at hfollows hsealed hothers ⊢
      obtain ⟨f, hf, hnames, halike⟩ := ih hfollows hsealed hothers hrest
      exact ⟨f, hf, hnames, halike.cons_of_ne hij⟩

/-! ### Main result -/

/-- Some parsers are called one after the other and add their states to one tree, which may have any
states from the outset; a parser that was used elsewhere is started before it takes a step. Whenever
a parser is started, the steps that it then takes, whatever is done with the other parsers in
between, have the results that a new parser on a new tree gives, under other names of states. Both
end alike with the same parses, and say the same, but that at its end the run may tell of more
states that were removed. It does not if the numbers of all states and parents of the opening tree
were given out. -/
theorem exists_alike_callAll (opening : Sharing ι π) (before after : List (ι × Call)) (i : ι)
    (words : List String) (start : String)
    (hopening : ∀ j, StartsFirst j (before ++ (i, .start words start) :: after) ∨
      IsApart [] (opening.parsers j) opening.tree)
    (honce : ∀ words start, (i, .start words start) ∉ after) :
    let begun := (opening.callAll before).1
    let shared := begun.callAll ((i, .start words start) :: after)
    let alone :=
      ((begun.parsers i).afresh.start words start).1.stepTimes {} (after.count (i, .step))
    ∃ f : StateId → StateId, f.Injective ∧
      resultsOf i shared.2 = alone.2.2.map (StepResult.rename f) ∧
      Echoes f (begun.parsers i).report.messages (shared.1.parsers i) alone.1 ∧
      (opening.tree.IsCounted → (shared.1.parsers i).report.messages =
        (begun.parsers i).report.messages ++ alone.1.report.messages) := by
  intro begun shared alone
  obtain ⟨hready, hcounted⟩ := isReady_callAll hopening
  have hfollows := follows_start (begun.parsers i) words start begun.tree
  obtain ⟨hlogged, -, -⟩ := start_spec (begun.parsers i) words start
  -- the parsers after the start of the run, which does not touch the tree
  have hparser : (begun.call i (.start words start)).1.parsers i =
      ((begun.parsers i).start words start).1 := Function.update_self ..
  rw [← hparser] at hfollows hlogged
  obtain ⟨f, hf, -, halike⟩ := exists_isAlike hfollows
    (fun ht : opening.tree.IsCounted => by
      rw [hlogged]
      exact (hcounted ht).isSealed_nil)
    (fun j hj => by
      rw [hlogged]
      exact (hready j).of_ne hj (Nat.le_refl _)) honce
  exact ⟨f, hf, halike.results, halike.echoes, halike.messages⟩

end calls

/-- A loaded tree with one state, whose parent has a number that no state has had. -/
def orphanTree : DerivationTree :=
  DerivationTree.relink
    { states := (∅ : IdentMap .state SyntaxState).insert ⟨0⟩
        { roots := [], message := "", type := .prediction, id := ⟨0⟩, parent := some ⟨4⟩ } }

/-- A word that is a phrase by itself, or takes a complement that is another word. -/
def sharedEntries : List (String × List Feature) :=
  [("a", [.categorial "c"]), ("a", [.selector "d", .categorial "c"]), ("x", [.categorial "d"])]

/-- Two parsers, one of which removes its dead ends. -/
def orphanSharing : Sharing Bool Rat :=
  { parsers := fun discardDeadEnds =>
      { lexicon := .ofEntries sharedEntries, settings := { minProbability := 0, discardDeadEnds } }
    tree := orphanTree }

/-- The steps of a run, with one of the other run in between. -/
def orphanSteps : List (Bool × Call) :=
  [(true, .step), (false, .step), (true, .step), (true, .step), (true, .step), (true, .step)]

theorem exists_alike_orphan :
    let begun := (orphanSharing.callAll [(false, .start ["a"] "c")]).1
    let shared := begun.callAll ((true, .start ["a"] "c") :: orphanSteps)
    let alone := ((begun.parsers true).afresh.start ["a"] "c").1.stepTimes {} 5
    (shared.1.parsers true).report.messages.back? = some (removalMessage 3) ∧
      alone.1.report.messages.back? = some (removalMessage 2) ∧
      ∃ f : StateId → StateId, f.Injective ∧
        resultsOf true shared.2 = alone.2.2.map (StepResult.rename f) ∧
        Echoes f (begun.parsers true).report.messages (shared.1.parsers true) alone.1 := by
  have hopening : ∀ j, StartsFirst j
      ([(false, .start ["a"] "c")] ++ (true, .start ["a"] "c") :: orphanSteps) := by
    decide
  obtain ⟨f, hf, hresults, hechoes, -⟩ := exists_alike_callAll orphanSharing
    [(false, .start ["a"] "c")] orphanSteps true ["a"] "c" (fun j => Or.inl (hopening j))
    (by simp [orphanSteps])
  exact ⟨by decide +kernel, by decide +kernel, f, hf, hresults, hechoes⟩

end Sharing
end MinimalistGrammar
