import MinimalistGrammar.Beam.Parser
import MinimalistGrammar.Proofs.Beam.Expansion

/-!
# Runs of the beam parser

Every step takes a parse off the beam and puts what it can become in its place, on the beam or among
the results. So a derivation that completes one of the parses held still completes one of them after
the step, unless the step discards something, and never more than one.

## Main definitions

* `BeamParser.held` — the parses on the beam, and the results.
* `BeamParser.Continues` — the ways in which the first prediction of a parse is expanded.
* `Parse.Yields` — some parses take the place of another one.
* `BeamParser.IsRunning` — what holds in every run over some words.

## Main results

* `BeamParser.continues_expand`, `BeamParser.advance_cases`, `BeamParser.step_cases` — what a step
  can do.
* `BeamParser.IsRunning.step`, `BeamParser.IsRunning.stepTimes` — steps keep a run what it is.
-/

namespace MinimalistGrammar

/-! ### What takes the place of a parse -/

/-- Some parses take the place of another one: they are coherent, and what completes one of them
completes the other one, too, and no second one of them. -/
structure Parse.Yields {π : Type} (lex : Lexicon) (q : Parse π) (qs : List (Parse π)) : Prop where
  coherent {q' : Parse π} : q' ∈ qs → q'.IsCoherent lex
  sound {q' : Parse π} {d : Derivation} : q' ∈ qs → q'.IsCompletedBy lex d → q.IsCompletedBy lex d
  distinct : qs.Pairwise fun q₁ q₂ => ∀ d, q₁.IsCompletedBy lex d → ¬q₂.IsCompletedBy lex d

namespace Parse

variable {π : Type} {lex : Lexicon} {q : Parse π}

theorem yields_nil (lex : Lexicon) (q : Parse π) : q.Yields lex [] where
  coherent h := absurd h (by simp)
  sound h := absurd h (by simp)
  distinct := List.Pairwise.nil

/-- The state of a parse does not count. -/
theorem yields_withState (hq : q.IsCoherent lex) (state : Option StateId) :
    q.Yields lex [{ q with state }] where
  coherent h := by
    obtain rfl := List.mem_singleton.mp h
    exact ⟨hq.order, hq.coherent, hq.fillable⟩
  sound h hd := by
    obtain rfl := List.mem_singleton.mp h
    exact hd
  distinct := List.pairwise_singleton ..

/-- The continuations of a parse take its place. -/
theorem yields_extend (hlex : lex.WellFormed) (hq : q.IsCoherent lex) {c : Category}
    {queue : StableQueue Address Category} (hpop : q.queue.pop? = some (c, queue)) (share : π)
    (message : Expansion → String) :
    q.Yields lex ((c.expansions lex q.input).map fun e =>
      { q with queue }.extend lex e share (message e)) where
  coherent h := by
    obtain ⟨e, he, rfl⟩ := List.mem_map.mp h
    exact hq.extend hlex hpop he share (message e)
  sound h hd := by
    obtain ⟨e, he, rfl⟩ := List.mem_map.mp h
    exact ((isCompletedBy_extend_iff hlex hq hpop he share (message e)).mp hd).1
  distinct := pairwise_extend hlex hq hpop share message

/-- Nothing completes a parse with input left and nothing predicted. -/
theorem not_isCompletedBy_of_pop? {d : Derivation} (hpop : q.queue.pop? = none)
    (hq : q.isComplete = false) : ¬q.IsCompletedBy lex d := by
  intro hd
  have hnil := StableQueue.toList_eq_nil_of_pop? hpop
  have harranged := hd.arranged
  rw [hnil, List.flatMap_nil, arranges_nil] at harranged
  rw [StableQueue.toList, List.map_eq_nil_iff] at hnil
  rw [isComplete, StableQueue.isEmpty, hnil, harranged] at hq
  exact absurd hq (by decide)

end Parse

namespace BeamParser

variable {π : Type}

/-- The parses on the beam, and the results. -/
def held (p : BeamParser π) : List (Parse π) := p.beam.toList ++ p.results

section step

variable [Probability π] {p : BeamParser π} {q : Parse π} {t : DerivationTree}

/-! ### What a step can do -/

/-- The ways in which a parse is expanded: nothing is predicted, nothing continues the first
prediction, the share of each continuation is too small, or all continuations are put on the
beam. -/
inductive Continues (p : BeamParser π) (q : Parse π) (id : StateId) :
    BeamParser π × StepResult → Prop
  | unpredicted (hpop : q.queue.pop? = none) (text : String) :
    Continues p q id (p.log .debug text, .deadEnd id)
  | unmatched {c : Category} {queue : StableQueue Address Category}
      (hpop : q.queue.pop? = some (c, queue)) (hnil : c.expansions p.lexicon q.input = [])
      (text : String) :
    Continues p q id (p.log .debug text, .deadEnd id)
  | discarded {c : Category} {queue : StableQueue Address Category}
      (hpop : q.queue.pop? = some (c, queue)) (hne : c.expansions p.lexicon q.input ≠ [])
      (hbelow : Probability.below (Probability.share q.probability
        (c.expansions p.lexicon q.input).length) p.settings.minProbability = true) (text : String) :
    Continues p q id (p.log .warn text, .discarded id)
  | pushed {c : Category} {queue : StableQueue Address Category}
      (hpop : q.queue.pop? = some (c, queue)) (hne : c.expansions p.lexicon q.input ≠ [])
      (hbelow : Probability.below (Probability.share q.probability
        (c.expansions p.lexicon q.input).length) p.settings.minProbability = false) :
    Continues p q id ((c.expansions p.lexicon q.input).foldl (pushExpansion { q with queue }
      (Probability.share q.probability (c.expansions p.lexicon q.input).length)) p,
      .expanded id (c.expansions p.lexicon q.input).length)

theorem continues_expand (p : BeamParser π) (q : Parse π) (id : StateId) :
    p.Continues q id (p.expand q id) := by
  rw [expand]
  split
  · next hpop => exact .unpredicted hpop _
  · next c queue hpop =>
    simp only
    split
    · next hempty => exact .unmatched hpop (List.isEmpty_iff.mp hempty) _
    · next hempty =>
      have hne : c.expansions p.lexicon q.input ≠ [] :=
        fun hnil => hempty (List.isEmpty_iff.mpr hnil)
      split
      · next hbelow => exact .discarded hpop hne hbelow _
      · next hbelow => exact .pushed hpop hne (Bool.eq_false_iff.mpr hbelow)

/-- A complete parse becomes a result, and any other one is expanded. -/
theorem advance_cases (p : BeamParser π) (q : Parse π) (t : DerivationTree) :
    (q.isComplete = true ∧ ∃ text, p.advance q t =
      ({ (p.logParse q t).1.log .info text with
          results := p.results ++ [{ q with state := some (p.logParse q t).2.2 }] },
        (p.logParse q t).2.1, .success (p.logParse q t).2.2)) ∨
    q.isComplete = false ∧ p.advance q t =
      (((p.logParse q t).1.expand { q with state := some (p.logParse q t).2.2 }
        (p.logParse q t).2.2).1, (p.logParse q t).2.1,
        ((p.logParse q t).1.expand { q with state := some (p.logParse q t).2.2 }
          (p.logParse q t).2.2).2) := by
  rw [advance]
  simp only
  split
  · next hcomplete => exact Or.inl ⟨hcomplete, _, rfl⟩
  · next hopen => exact Or.inr ⟨Bool.eq_false_iff.mpr hopen, rfl⟩

/-- Going on with a parse changes the tree only by logging the parse. -/
theorem tree_advance (p : BeamParser π) (q : Parse π) (t : DerivationTree) :
    (p.advance q t).2.1 = (p.logParse q t).2.1 := by
  rcases p.advance_cases q t with ⟨-, text, heq⟩ | ⟨-, heq⟩
  · rw [heq]
  · rw [heq]

/-- Some parses take the place of a parse that was taken off the beam. -/
structure Replaces (lex : Lexicon) (q : Parse π) (result : StepResult) (qs : List (Parse π)) :
    Prop where
  yields : q.Yields lex qs
  /-- Unless something is discarded, what completes the parse completes one of those in its
  place. -/
  exhaustive {d : Derivation} : (∀ id, result ≠ .discarded id) → q.IsCompletedBy lex d →
    ∃ q' ∈ qs, q'.IsCompletedBy lex d

theorem foldl_pushExpansion (q : Parse π) (share : π) (es : List Expansion) (p : BeamParser π) :
    let p' := es.foldl (pushExpansion q share) p
    p'.lexicon = p.lexicon ∧ p'.results = p.results ∧ p'.status = p.status ∧
      p'.beam.toList.Perm ((es.map fun e =>
        q.extend p.lexicon e share (e.message p.lexicon ++ p.situation q)) ++ p.beam.toList) := by
  induction es generalizing p with
  | nil => exact ⟨rfl, rfl, rfl, List.Perm.refl _⟩
  | cons e es ih =>
    obtain ⟨hlexicon, hresults, hstatus, hbeam⟩ := ih (pushExpansion q share p e)
    refine ⟨hlexicon, hresults, hstatus, hbeam.trans ?_⟩
    exact ((StableQueue.toList_push_perm ..).append_left _).trans List.perm_middle

/-- Expanding a parse puts its continuations on the beam. -/
theorem exists_replaces_expand (hlex : p.lexicon.WellFormed) (hq : q.IsCoherent p.lexicon)
    (hopen : q.isComplete = false) (id : StateId) :
    let r := p.expand q id
    r.1.lexicon = p.lexicon ∧ r.1.results = p.results ∧ r.1.status = p.status ∧
      ∃ qs, Replaces p.lexicon q r.2 qs ∧ r.1.beam.toList.Perm (qs ++ p.beam.toList) := by
  intro r
  have hcontinues : p.Continues q id r := p.continues_expand q id
  clear_value r
  cases hcontinues with
  | unpredicted hpop =>
    refine ⟨rfl, rfl, rfl, [], ⟨Parse.yields_nil .., fun _ hd => ?_⟩, List.Perm.refl _⟩
    exact absurd hd (Parse.not_isCompletedBy_of_pop? hpop hopen)
  | unmatched hpop hnil =>
    refine ⟨rfl, rfl, rfl, [], ⟨Parse.yields_nil .., fun _ hd => ?_⟩, List.Perm.refl _⟩
    obtain ⟨e, he, -⟩ := Parse.exists_isCompletedBy_extend hlex hq hpop hd q.probability fun _ => ""
    rw [hnil] at he
    exact absurd he (by simp)
  | discarded =>
    refine ⟨rfl, rfl, rfl, [], ⟨Parse.yields_nil .., fun hkeep _ => ?_⟩, List.Perm.refl _⟩
    exact absurd rfl (hkeep id)
  | @pushed c queue hpop =>
    obtain ⟨hlexicon, hresults, hstatus, hbeam⟩ := foldl_pushExpansion { q with queue }
      (Probability.share q.probability (c.expansions p.lexicon q.input).length)
      (c.expansions p.lexicon q.input) p
    refine ⟨hlexicon, hresults, hstatus, _, ⟨Parse.yields_extend hlex hq hpop _ _, fun _ hd => ?_⟩,
      hbeam⟩
    obtain ⟨e, he, hd'⟩ := Parse.exists_isCompletedBy_extend hlex hq hpop hd _ _
    exact ⟨_, List.mem_map_of_mem he, hd'⟩

/-- Going on with a parse makes it a result or puts its continuations on the beam. -/
theorem exists_replaces_advance (hlex : p.lexicon.WellFormed) (hq : q.IsCoherent p.lexicon) :
    let r := p.advance q t
    r.1.lexicon = p.lexicon ∧ r.1.status = p.status ∧
      (∀ x ∈ r.1.results, x ∈ p.results ∨ x.isComplete = true) ∧
      ∃ qs, Replaces p.lexicon q r.2.2 qs ∧ r.1.held.Perm (qs ++ p.held) := by
  rcases p.advance_cases q t with ⟨hcomplete, text, heq⟩ | ⟨hopen, heq⟩
  all_goals
    intro r
    simp only [r, heq]
  · refine ⟨rfl, rfl, ?_, _, ⟨Parse.yields_withState hq (some (p.logParse q t).2.2),
      fun _ hd => ⟨_, List.mem_singleton_self _, hd⟩⟩, ?_⟩
    · intro x hx
      rcases List.mem_append.mp hx with hx | hx
      · exact Or.inl hx
      · rw [List.mem_singleton.mp hx]
        exact Or.inr hcomplete
    · show (p.beam.toList ++ (p.results ++ [_])).Perm _
      rw [← List.append_assoc]
      exact List.perm_append_comm
  · have hcoherent :
        ({ q with state := some (p.logParse q t).2.2 } : Parse π).IsCoherent p.lexicon :=
      (Parse.yields_withState hq _).coherent (List.mem_singleton_self _)
    obtain ⟨hlexicon, hresults, hstatus, qs, ⟨hyields, hall⟩, hbeam⟩ :=
      exists_replaces_expand (p := (p.logParse q t).1) hlex hcoherent hopen
        (p.logParse q t).2.2
    refine ⟨hlexicon, hstatus, fun x hx => Or.inl (hresults ▸ hx), qs,
      ⟨⟨hyields.coherent, hyields.sound, hyields.distinct⟩, hall⟩, ?_⟩
    rw [held, held, hresults, ← List.append_assoc]
    exact hbeam.append_right _

/-! ### Runs -/

/-- What holds in every run of a lexicon over some words. -/
structure IsRunning (lex : Lexicon) (words : List String) (start : String) (p : BeamParser π) :
    Prop where
  lexicon : p.lexicon = lex
  coherent {q : Parse π} : q ∈ p.held → q.IsCoherent lex
  sound {q : Parse π} {d : Derivation} : q ∈ p.held → q.IsCompletedBy lex d →
    d.Derives lex words start
  distinct : p.held.Pairwise fun q₁ q₂ => ∀ d, q₁.IsCompletedBy lex d → ¬q₂.IsCompletedBy lex d
  isComplete {q : Parse π} : q ∈ p.results → q.isComplete = true
  /-- A run that has found something, or nothing, has nothing left on the beam. -/
  found : p.status = some .found ∨ p.status = some .noParse → p.beam.toList = []
  noParse : p.status = some .noParse → p.results = []

omit [Probability π] in
theorem finish_eq (p : BeamParser π) (status : ParseStatus) (t : DerivationTree) :
    (p.finish status t).1.lexicon = p.lexicon ∧ (p.finish status t).1.beam = p.beam ∧
      (p.finish status t).1.results = p.results ∧ (p.finish status t).1.status = some status := by
  have hannounce : (p.announce status).lexicon = p.lexicon ∧ (p.announce status).beam = p.beam ∧
      (p.announce status).results = p.results := by
    cases status with
    | found => exact ⟨rfl, rfl, rfl⟩
    | noParse => exact ⟨rfl, rfl, rfl⟩
    | capReached => rw [announce, regret]; split <;> exact ⟨rfl, rfl, rfl⟩
    | cancelled => rw [announce, regret]; split <;> exact ⟨rfl, rfl, rfl⟩
  rw [finish]
  simp only
  split
  · exact ⟨hannounce.1, hannounce.2.1, hannounce.2.2, trivial⟩
  · exact ⟨hannounce.1, hannounce.2.1, hannounce.2.2, trivial⟩

/-- What a step can do: nothing after the end of the run, end it, or go on with the best parse. -/
theorem step_cases (p : BeamParser π) (t : DerivationTree) :
    (∃ status, p.status = some status ∧ p.step t = (p, t, .finished status)) ∨
      p.status = none ∧ ∃ report, report.shown = p.report.shown ∧
        ((∃ status, p.step t = { p with report }.finish status t ∧
          (status ≠ .capReached → status ≠ .cancelled →
            p.beam.pop? = none ∧ status = p.emptyStatus)) ∨
        ∃ q beam, p.beam.pop? = some (q, beam) ∧
          p.step t = { p with report, beam, steps := p.steps + 1 }.advance q t) := by
  rw [BeamParser.step]
  split
  · next status hstatus => exact Or.inl ⟨status, hstatus, rfl⟩
  · next hnone =>
    refine Or.inr ⟨hnone, p.report.ask.2, rfl, ?_⟩
    simp only
    split
    · exact Or.inl ⟨.cancelled, rfl, fun _ h => absurd rfl h⟩
    · split
      · exact Or.inl ⟨.capReached, rfl, fun h => absurd rfl h⟩
      · split
        · next hpop => exact Or.inl ⟨p.emptyStatus, rfl, fun _ _ => ⟨hpop, rfl⟩⟩
        · next q beam hpop => exact Or.inr ⟨q, beam, hpop, rfl⟩

section

variable {lex : Lexicon} {words : List String} {start : String}

omit [Probability π] in
/-- Ending a run keeps what it holds. -/
theorem IsRunning.finish (h : IsRunning lex words start p) (status : ParseStatus)
    (t : DerivationTree)
    (hfound : status = .found ∨ status = .noParse → p.beam.toList = [])
    (hnoParse : status = .noParse → p.results = []) :
    IsRunning lex words start (p.finish status t).1 := by
  obtain ⟨hlexicon, hbeam, hresults, hstatus⟩ := finish_eq p status t
  have hheld : (p.finish status t).1.held = p.held := by rw [held, held, hbeam, hresults]
  refine ⟨hlexicon.trans h.lexicon, hheld ▸ h.coherent, hheld ▸ h.sound, hheld ▸ h.distinct,
    hresults ▸ h.isComplete, ?_, ?_⟩
  · rw [hstatus, hbeam, Option.some.injEq, Option.some.injEq]
    exact hfound
  · rw [hstatus, hresults, Option.some.injEq]
    exact hnoParse

/-- Going on with a parse that was taken off the beam keeps a run what it is. -/
theorem IsRunning.advance (hlex : lex.WellFormed) {p₀ : BeamParser π}
    (h : IsRunning lex words start p₀) (hlexicon : p.lexicon = lex)
    (hresults : p.results = p₀.results) (hstatus : p.status = none)
    (hheld : p₀.held.Perm (q :: p.held)) :
    IsRunning lex words start (p.advance q t).1 ∧
      ((∀ id, (p.advance q t).2.2 ≠ .discarded id) → ∀ d, (∃ x ∈ p₀.held, x.IsCompletedBy lex d) →
        ∃ x ∈ (p.advance q t).1.held, x.IsCompletedBy lex d) := by
  subst hlexicon
  have hq : q.IsCoherent p.lexicon := h.coherent (hheld.mem_iff.mpr (List.mem_cons_self ..))
  obtain ⟨hlexicon, hstatus', hresults', qs, ⟨hyields, hall⟩, hperm⟩ :=
    exists_replaces_advance (t := t) hlex hq
  have hothers {x : Parse π} (hx : x ∈ p.held) : x ∈ p₀.held :=
    hheld.mem_iff.mpr (List.mem_cons_of_mem _ hx)
  have hsym {x y : Parse π} (hxy : ∀ d,
      x.IsCompletedBy p.lexicon d → ¬y.IsCompletedBy p.lexicon d) :
      ∀ d, y.IsCompletedBy p.lexicon d → ¬x.IsCompletedBy p.lexicon d :=
    fun d hy hx => hxy d hx hy
  obtain ⟨hapart, hdistinct⟩ := List.pairwise_cons.mp ((hheld.pairwise_iff hsym).mp h.distinct)
  constructor
  · refine ⟨hlexicon, ?coherent, ?sound, ?distinct, ?isComplete, ?found, ?noParse⟩
    case coherent =>
      intro x hx
      rcases List.mem_append.mp (hperm.mem_iff.mp hx) with hx | hx
      · exact hyields.coherent hx
      · exact h.coherent (hothers hx)
    case sound =>
      intro x d hx hd
      rcases List.mem_append.mp (hperm.mem_iff.mp hx) with hx | hx
      · exact h.sound (hheld.mem_iff.mpr (List.mem_cons_self ..)) (hyields.sound hx hd)
      · exact h.sound (hothers hx) hd
    case distinct =>
      -- what completes a new parse completed the one that was taken
      refine (hperm.pairwise_iff hsym).mpr
        (List.pairwise_append.mpr ⟨hyields.distinct, hdistinct, ?_⟩)
      exact fun x hx y hy d hd => hapart y hy d (hyields.sound hx hd)
    case isComplete =>
      intro x hx
      rcases hresults' _ hx with hx | hx
      · exact h.isComplete (hresults ▸ hx)
      · exact hx
    case found =>
      rw [hstatus', hstatus]
      simp
    case noParse =>
      rw [hstatus', hstatus]
      simp
  · rintro hkeep d ⟨x, hx, hd⟩
    rcases List.mem_cons.mp (hheld.mem_iff.mp hx) with rfl | hx
    · obtain ⟨q', hq', hd'⟩ := hall hkeep hd
      exact ⟨q', hperm.mem_iff.mpr (List.mem_append_left _ hq'), hd'⟩
    · exact ⟨x, hperm.mem_iff.mpr (List.mem_append_right _ hx), hd⟩

/-- A step keeps a run what it is, and unless it discards something, what completes one of the
parses held still completes one of them. -/
theorem IsRunning.step (hlex : lex.WellFormed) (h : IsRunning lex words start p)
    (t : DerivationTree) :
    IsRunning lex words start (p.step t).1 ∧
      ((∀ id, (p.step t).2.2 ≠ .discarded id) → ∀ d, (∃ q ∈ p.held, q.IsCompletedBy lex d) →
        ∃ q ∈ (p.step t).1.held, q.IsCompletedBy lex d) := by
  have hreport (report : Report) : IsRunning lex words start { p with report } :=
    ⟨h.lexicon, h.coherent, h.sound, h.distinct, h.isComplete, h.found, h.noParse⟩
  rcases step_cases p t with ⟨status, -, heq⟩ | ⟨hnone, report, -, hcases⟩
  · rw [heq]
    exact ⟨h, fun _ d hd => hd⟩
  · rcases hcases with ⟨status, heq, hstatus⟩ | ⟨q, beam, hpop, heq⟩
    · -- the run ends, and holds what it held
      obtain ⟨-, hbeam, hresults, -⟩ := finish_eq { p with report } status t
      have hheld : ({ p with report }.finish status t).1.held = p.held := by
        rw [held, held, hbeam, hresults]
      rw [heq]
      refine ⟨(hreport report).finish status t ?_ ?_, fun _ d hd => hheld ▸ hd⟩
      · rintro (rfl | rfl)
        · exact StableQueue.toList_eq_nil_of_pop? (hstatus (by simp) (by simp)).1
        · exact StableQueue.toList_eq_nil_of_pop? (hstatus (by simp) (by simp)).1
      · rintro rfl
        obtain ⟨-, hempty⟩ := hstatus (by simp) (by simp)
        rw [emptyStatus] at hempty
        split at hempty
        · next hnil => exact List.isEmpty_iff.mp hnil
        · exact absurd hempty (by simp)
    · rw [heq]
      refine h.advance hlex h.lexicon rfl hnone ?_
      rw [held, StableQueue.toList_eq_of_pop? hpop]
      exact List.Perm.refl _

/-- Steps keep a run what it is, and unless one of them discards something, what completes one of
the parses held still completes one of them. -/
theorem IsRunning.stepTimes (hlex : lex.WellFormed) (h : IsRunning lex words start p)
    (t : DerivationTree) (n : Nat) :
    IsRunning lex words start (p.stepTimes t n).1 ∧
      ((∀ id, .discarded id ∉ (p.stepTimes t n).2.2) → ∀ d, (∃ q ∈ p.held, q.IsCompletedBy lex d) →
        ∃ q ∈ (p.stepTimes t n).1.held, q.IsCompletedBy lex d) := by
  induction n generalizing p t with
  | zero => exact ⟨h, fun _ d hd => hd⟩
  | succ n ih =>
    obtain ⟨hstep, hkeep⟩ := h.step hlex t
    obtain ⟨hrest, hkeepRest⟩ := ih hstep (p.step t).2.1
    refine ⟨hrest,
      fun hdiscarded d hd => hkeepRest (fun id hmem => ?_) d (hkeep (fun id heq => ?_) d hd)⟩
    · exact hdiscarded id (List.mem_cons_of_mem _ hmem)
    · exact hdiscarded id (heq ▸ List.mem_cons_self ..)

end

end step

end BeamParser
end MinimalistGrammar
