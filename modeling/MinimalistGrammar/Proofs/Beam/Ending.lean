import MinimalistGrammar.Proofs.Beam.DeadEnds

/-!
# How a run ends

A step first asks whether as many parses have been taken as the settings allow, and only then
whether there is one left. So a run that has taken that many parses says that the cap was reached
even if the beam is empty. In all other runs that are not cancelled the status tells what is left of
the search: if it says that something or nothing was found, the beam is empty, and if it says that
the cap was reached, it is not.

## Main definitions

* `BeamParser.Tells` — a status says of a run that is over whether the search was exhausted.
* `BeamParser.Reports` — what a status says in fact, since the cap counts before the beam does.

## Main results

* `BeamParser.exists_run_eq` — a run is its steps, up to the first one that takes no parse.
* `BeamParser.run_ne_cancelled` — no run is cancelled if those who watch never say stop.
* `BeamParser.tells_run_iff` — the status of a run tells whether the search was exhausted, but for
  the runs that empty the beam just when the cap is reached.
-/

namespace MinimalistGrammar
namespace BeamParser

variable {π : Type} {p : BeamParser π} {t : DerivationTree} {n : Nat} {status : ParseStatus}

/-- The status of a run that is over says whether the search was exhausted: something or nothing was
found exactly if the beam is empty, and the cap was reached exactly if as many parses were taken as
are allowed and one still waits. -/
structure Tells (p : BeamParser π) (status : ParseStatus) : Prop where
  exhausted_iff : status = .found ∨ status = .noParse ↔ p.beam.toList = []
  found_iff : status = .found ↔ p.beam.toList = [] ∧ p.results ≠ []
  capReached_iff : status = .capReached ↔ p.steps = p.settings.stepCap ∧ p.beam.toList ≠ []

/-! ### Steps -/

theorem stops_present (r : Report) (t : DerivationTree) : (r.present t).stops = r.stops := by
  rw [Report.present]
  split
  · rfl
  · rfl

theorem steps_finish (p : BeamParser π) (status : ParseStatus) (t : DerivationTree) :
    (p.finish status t).1.steps = p.steps ∧ (p.finish status t).1.settings = p.settings := by
  obtain ⟨report, hannounce⟩ := p.announce_eq status
  rw [finish, hannounce]
  simp only
  split
  · exact ⟨rfl, rfl⟩
  · exact ⟨rfl, rfl⟩

section step

variable [Probability π]

theorem stops_foldl_pushExpansion (q : Parse π) (share : π) (es : List Expansion)
    (p : BeamParser π) : (es.foldl (pushExpansion q share) p).report.stops = p.report.stops := by
  induction es generalizing p with
  | nil => rfl
  | cons e es ih => exact ih (pushExpansion q share p e)

/-- Those who watch do not change their minds while a parse is gone on with. -/
theorem stops_advance (p : BeamParser π) (q : Parse π) (t : DerivationTree) :
    (p.advance q t).1.report.stops = p.report.stops := by
  have hlog : (p.logParse q t).1.report.stops = p.report.stops := stops_present ..
  rcases p.advance_cases q t with ⟨-, text, heq⟩ | ⟨-, heq⟩ <;> rw [heq]
  · exact hlog
  · have hcontinues := (p.logParse q t).1.continues_expand
      { q with state := some (p.logParse q t).2.2 } (p.logParse q t).2.2
    generalize (p.logParse q t).1.expand _ _ = r at hcontinues ⊢
    cases hcontinues with
    | unpredicted | unmatched | discarded => exact hlog
    | pushed => exact (stops_foldl_pushExpansion ..).trans hlog

/-- What a step of a run that is not over can do. It asks those who watch, then it looks at the cap,
and then at the beam. -/
theorem step_open_cases (hopen : p.status = none) (t : DerivationTree) :
    p.report.stops p.report.asked = true ∧
        p.step t = { p with report := p.report.ask.2 }.finish .cancelled t ∨
      p.settings.stepCap ≤ p.steps ∧
        p.step t = { p with report := p.report.ask.2 }.finish .capReached t ∨
      p.steps < p.settings.stepCap ∧ p.beam.pop? = none ∧
        p.step t = { p with report := p.report.ask.2 }.finish p.emptyStatus t ∨
      p.steps < p.settings.stepCap ∧ ∃ q beam, p.beam.pop? = some (q, beam) ∧
        p.step t = { p with report := p.report.ask.2, beam, steps := p.steps + 1 }.advance q t := by
  obtain ⟨lexicon, settings, report, beam, results, logged, steps, _⟩ := p
  obtain rfl : _ = none := hopen
  rw [step]
  simp only
  split
  · next hstop => exact Or.inl ⟨hstop, rfl⟩
  · split
    · next hcap => exact Or.inr (Or.inl ⟨hcap, rfl⟩)
    · next hcap =>
      have hlt : steps < settings.stepCap := not_le.mp hcap
      split
      · next hpop => exact Or.inr (Or.inr (Or.inl ⟨hlt, hpop, rfl⟩))
      · next q beam hpop => exact Or.inr (Or.inr (Or.inr ⟨hlt, q, beam, hpop, rfl⟩))

/-- A run that is over keeps what it had, and its status has a reason. -/
structure Closes (p last : BeamParser π) (why : ParseStatus) : Prop where
  status : last.status = some why
  steps : last.steps = p.steps
  settings : last.settings = p.settings
  beam : last.beam = p.beam
  results : last.results = p.results
  reason : why = .cancelled ∧ p.report.stops p.report.asked = true ∨ why = .capReached ∧
    p.settings.stepCap ≤ p.steps ∨
    why = p.emptyStatus ∧ p.steps < p.settings.stepCap ∧ p.beam.toList = []

/-- The step that ends a run. -/
theorem closes_step (hopen : p.status = none) (h : (p.step t).2.2 = .finished status) :
    p.Closes (p.step t).1 status := by
  have hfinish (why : ParseStatus) (hwhy : why = .cancelled ∧ p.report.stops p.report.asked = true ∨
      why = .capReached ∧ p.settings.stepCap ≤ p.steps ∨
        why = p.emptyStatus ∧ p.steps < p.settings.stepCap ∧ p.beam.toList = [])
      (heq : p.step t = { p with report := p.report.ask.2 }.finish why t) :
      p.Closes (p.step t).1 status := by
    rw [heq] at h ⊢
    obtain rfl : why = status := StepResult.finished.inj h
    obtain ⟨-, hbeam, hresults, hstatus⟩ := finish_eq { p with report := p.report.ask.2 } why t
    obtain ⟨hsteps, hsettings⟩ := steps_finish { p with report := p.report.ask.2 } why t
    exact ⟨hstatus, hsteps, hsettings, hbeam, hresults, hwhy⟩
  rcases step_open_cases hopen t with ⟨hstop, heq⟩ | ⟨hcap, heq⟩ | ⟨hlt, hpop, heq⟩ |
    ⟨-, q, beam, -, heq⟩
  · exact hfinish _ (Or.inl ⟨rfl, hstop⟩) heq
  · exact hfinish _ (Or.inr (Or.inl ⟨rfl, hcap⟩)) heq
  · exact hfinish _ (Or.inr (Or.inr ⟨rfl, hlt, StableQueue.toList_eq_nil_of_pop? hpop⟩)) heq
  · rw [heq] at h
    exact absurd h (advance_ne_finished _ q t status)

/-- A step that takes a parse counts it, and the run goes on. -/
theorem steps_step (hopen : p.status = none) (h : ∀ status, (p.step t).2.2 ≠ .finished status) :
    (p.step t).1.steps = p.steps + 1 ∧ (p.step t).1.settings = p.settings ∧
      (p.step t).1.status = none ∧ (p.step t).1.report.stops = p.report.stops ∧
        p.steps < p.settings.stepCap := by
  rcases step_open_cases hopen t with ⟨-, heq⟩ | ⟨-, heq⟩ | ⟨-, -, heq⟩ | ⟨hlt, q, beam, -, heq⟩
  · exact absurd (congrArg (·.2.2) heq) (h _)
  · exact absurd (congrArg (·.2.2) heq) (h _)
  · exact absurd (congrArg (·.2.2) heq) (h _)
  · obtain ⟨hsteps, hsettings⟩ :=
      steps_advance { p with report := p.report.ask.2, beam, steps := p.steps + 1 } q t
    rw [heq]
    exact ⟨hsteps, hsettings, (adds_advance _ q t).status.trans hopen, stops_advance _ q t, hlt⟩

/-- A run that is not over stays so until a step takes no parse. Each of the other steps takes
one. -/
theorem steps_stepTimes (hopen : p.status = none)
    (h : ∀ status, .finished status ∉ (p.stepTimes t n).2.2) (hle : p.steps ≤ p.settings.stepCap) :
    (p.stepTimes t n).1.steps = p.steps + n ∧ (p.stepTimes t n).1.settings = p.settings ∧
      (p.stepTimes t n).1.status = none ∧ p.steps + n ≤ p.settings.stepCap := by
  induction n generalizing p t with
  | zero => exact ⟨rfl, rfl, hopen, hle⟩
  | succ n ih =>
    obtain ⟨hsteps, hsettings, hstill, -, hlt⟩ :=
      steps_step (t := t) hopen fun status heq => h status (heq ▸ List.mem_cons_self ..)
    obtain ⟨hsteps', hsettings', hstatus, hcap⟩ :=
      ih hstill (t := (p.step t).2.1) (fun status hmem => h status (List.mem_cons_of_mem _ hmem))
        (by rw [hsteps, hsettings]; exact hlt)
    rw [hsteps, hsettings] at hcap
    refine ⟨hsteps'.trans (by rw [hsteps]; omega), hsettings'.trans hsettings, hstatus, by omega⟩

theorem EndsAfter.succ (hgoes : ∀ status, (p.step t).2.2 ≠ .finished status)
    (h : (p.step t).1.EndsAfter (p.step t).2.1 n) : p.EndsAfter t (n + 1) := by
  refine ⟨fun status hmem => ?_, h.2⟩
  rcases List.mem_cons.mp hmem with heq | hmem
  · exact hgoes status heq.symm
  · exact h.1 status hmem

/-- A run is its steps, up to the first one that takes no parse. -/
theorem exists_run_eq (p : BeamParser π) (t : DerivationTree) : ∃ n, p.EndsAfter t n ∧
    (p.stepTimes t n).1.step (p.stepTimes t n).2.1 =
      ((p.run t).1, (p.run t).2.1, .finished (p.run t).2.2) := by
  fun_induction p.run t with
  | case1 p t p' t' status hstep =>
    exact ⟨0, ⟨fun _ hmem => absurd hmem List.not_mem_nil, status, congrArg (·.2.2) hstep⟩, hstep⟩
  | case2 p t p' t' id count hstep ih | case3 p t p' t' id hstep ih
  | case4 p t p' t' id hstep ih | case5 p t p' t' id hstep ih =>
    -- the run goes on, and its end is one step further away
    obtain ⟨n, hends, hlast⟩ := ih
    have hp' : (p.step t).1 = p' := by rw [hstep]
    have ht' : (p.step t).2.1 = t' := by rw [hstep]
    subst hp' ht'
    exact ⟨n + 1, hends.succ (fun status => by rw [hstep]; simp), hlast⟩

end step

/-! ### Runs -/

section run

variable [Probability π]

/-- A run is not cancelled if those who watch never say stop. -/
theorem run_ne_cancelled (hopen : p.status = none) (hstops : ∀ n, p.report.stops n = false) :
    (p.run t).2.2 ≠ .cancelled := by
  fun_induction p.run t with
  | case1 p t p' t' status hstep =>
    rcases (closes_step (t := t) hopen (congrArg (·.2.2) hstep)).reason with
      ⟨-, hstop⟩ | ⟨rfl, -⟩ | ⟨rfl, -, -⟩
    · exact absurd hstop (by simp [hstops])
    · simp
    · rw [emptyStatus]
      split
      · simp
      · simp
  | case2 p t p' t' id count hstep ih | case3 p t p' t' id hstep ih
  | case4 p t p' t' id hstep ih | case5 p t p' t' id hstep ih =>
    obtain ⟨-, -, hstill, hsame, -⟩ := steps_step (t := t) hopen fun status => by rw [hstep]; simp
    rw [hstep] at hstill hsame
    exact ih hstill fun n => hsame ▸ hstops n

/-- The status of a run that has ended and was not cancelled: the cap counts before the beam
does. -/
structure Reports (last : BeamParser π) (status : ParseStatus) : Prop where
  ended : last.status = some status
  steps_le : last.steps ≤ last.settings.stepCap
  capReached_iff : status = .capReached ↔ last.steps = last.settings.stepCap
  found_iff : status = .found ↔ last.steps < last.settings.stepCap ∧ last.results ≠ []
  noParse_iff : status = .noParse ↔ last.steps < last.settings.stepCap ∧ last.results = []
  beam : last.steps < last.settings.stepCap → last.beam.toList = []

omit [Probability π] in
theorem Closes.reports {last : BeamParser π} (h : p.Closes last status)
    (hle : p.steps ≤ p.settings.stepCap) (hstatus : status ≠ .cancelled) : last.Reports status := by
  rw [← h.steps, ← h.settings] at hle
  rcases h.reason with ⟨rfl, -⟩ | ⟨rfl, hcap⟩ | ⟨rfl, hlt, hempty⟩
  · exact absurd rfl hstatus
  · rw [← h.steps, ← h.settings] at hcap
    have heq : last.steps = last.settings.stepCap := Nat.le_antisymm hle hcap
    exact ⟨h.status,
      hle, by simp [heq], by simp [heq], by simp [heq], fun hlt => absurd heq (ne_of_lt hlt)⟩
  · rw [← h.steps, ← h.settings] at hlt
    rw [← h.beam] at hempty
    have hresults : p.emptyStatus = if last.results.isEmpty then .noParse else .found := by
      rw [h.results]
      rfl
    have hne : last.steps ≠ last.settings.stepCap := ne_of_lt hlt
    refine ⟨h.status, hle, ?_, ?_, ?_, fun _ => hempty⟩
    · rw [hresults]
      split <;> simp [hne]
    · rw [hresults]
      split <;> simp_all
    · rw [hresults]
      split <;> simp_all

omit [Probability π] in
/-- The status tells whether the search was exhausted unless the last parse was taken just when the
cap was reached. -/
theorem Reports.tells_iff {last : BeamParser π} (h : last.Reports status) :
    last.Tells status ↔ ¬(last.steps = last.settings.stepCap ∧ last.beam.toList = []) := by
  constructor
  · rintro htells ⟨hcap, hempty⟩
    -- the cap counts first, so the status is that something still waits
    exact (htells.capReached_iff.mp (h.capReached_iff.mpr hcap)).2 hempty
  · intro hnot
    rcases Nat.lt_or_eq_of_le h.steps_le with hlt | hcap
    · have hempty : last.beam.toList = [] := h.beam hlt
      refine ⟨iff_of_true ?_ hempty, ?_, ?_⟩
      · rw [h.found_iff, h.noParse_iff]
        exact (em (last.results = [])).symm.imp (⟨hlt, ·⟩) (⟨hlt, ·⟩)
      · rw [h.found_iff, and_iff_right hlt, and_iff_right hempty]
      · rw [h.capReached_iff]
        exact iff_of_false (ne_of_lt hlt) fun hcap => absurd hcap.1 (ne_of_lt hlt)
    · -- the cap was reached, and by assumption something waits
      have hwaits : last.beam.toList ≠ [] := fun hempty => hnot ⟨hcap, hempty⟩
      have hcapped : status = .capReached := h.capReached_iff.mpr hcap
      refine ⟨iff_of_false (by simp [hcapped]) hwaits, ?_, iff_of_true hcapped ⟨hcap, hwaits⟩⟩
      exact iff_of_false (by simp [hcapped]) fun hfound => hwaits hfound.1

/-- A run that is started with a known category and is not cancelled takes a parse with each step
but the last one. Its status is that the cap was reached if as many parses as allowed were taken,
and else that something or nothing was found, with an empty beam. So it tells whether the search was
exhausted unless the beam is emptied by the last parse that may be taken. -/
theorem tells_run_iff (p : BeamParser π) (words : List String) (start : String) (t : DerivationTree)
    (hstart : (p.start words start).2 = true)
    (hstatus : ((p.start words start).1.run t).2.2 ≠ .cancelled) :
    let (last, _, status) := (p.start words start).1.run t
    (p.start words start).1.EndsAfter t last.steps ∧ last.settings = p.settings ∧
      last.Reports status ∧
      (last.Tells status ↔ ¬(last.steps = p.settings.stepCap ∧ last.beam.toList = [])) := by
  have hopen : (p.start words start).1.status = none ∧ (p.start words start).1.steps = 0 ∧
      (p.start words start).1.settings = p.settings := by
    rw [BeamParser.start] at hstart ⊢
    simp only at hstart ⊢
    split at hstart
    · exact absurd hstart (by simp)
    · exact ⟨rfl, rfl, rfl⟩
  obtain ⟨n, hends, hlast⟩ := exists_run_eq (p.start words start).1 t
  obtain ⟨hsteps, hsettings, hstill, hcap⟩ :=
    steps_stepTimes (t := t) hopen.1 hends.1 (by rw [hopen.2.1]; exact Nat.zero_le _)
  -- each step before the last one has taken a parse, and the last one has changed nothing
  have hcloses := closes_step hstill (congrArg (·.2.2) hlast)
  rw [hlast] at hcloses
  rw [← hsteps, ← hsettings] at hcap
  have hreports := hcloses.reports hcap hstatus
  have hsame : ((p.start words start).1.run t).1.settings = p.settings :=
    hcloses.settings.trans (hsettings.trans hopen.2.2)
  have hcount : ((p.start words start).1.run t).1.steps = n := by
    rw [hcloses.steps, hsteps, hopen.2.1, Nat.zero_add]
  refine ⟨hcount ▸ hends, hsame, hreports, ?_⟩
  rw [← hsame]
  exact hreports.tells_iff

end run

/-- A run over a word that allows for two steps, which are as many as it needs. -/
def cappedRun : BeamParser Rat × DerivationTree × ParseStatus :=
  (({ lexicon := .ofEntries [("a", [.categorial "c"])],
      settings := { minProbability := 0, stepCap := 2 } } :
    BeamParser Rat).start ["a"] "c").1.run {}

/-- This run has found all that there is, and its status does not tell so. -/
theorem not_tells_cappedRun :
    cappedRun.2.2 = .capReached ∧ cappedRun.1.steps = 2 ∧ cappedRun.1.results.length = 1 ∧
      cappedRun.1.beam.toList = [] ∧ ¬cappedRun.1.Tells cappedRun.2.2 := by
  obtain ⟨-, hsettings, hreports, htells⟩ := tells_run_iff
    ({ lexicon := .ofEntries [("a", [.categorial "c"])],
       settings := { minProbability := 0, stepCap := 2 } } :
      BeamParser Rat)
    ["a"] "c" {} (by decide +kernel) (run_ne_cancelled rfl fun _ => rfl)
  have hcapped : cappedRun.2.2 = .capReached := by decide +kernel
  have hsteps : cappedRun.1.steps = 2 :=
    (hreports.capReached_iff.mp hcapped).trans (congrArg (·.stepCap) hsettings)
  have hempty : cappedRun.1.beam.toList = [] := by
    rw [← List.length_eq_zero_iff]
    decide +kernel
  exact ⟨hcapped, hsteps, by decide +kernel, hempty, fun h => htells.mp h ⟨hsteps, hempty⟩⟩

end BeamParser
end MinimalistGrammar
