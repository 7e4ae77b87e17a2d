import MinimalistGrammar.Proofs.Beam.Run

/-!
# Runs under other numbers

A parser never looks at the numbers of states, it only passes them on. So two parsers that hold the
same parses but for the numbers of the states in them go on alike: they say the same, put the same
parses on the beam, and find the same results, under the new numbers.

## Main definitions

* `Parse.rename`, `StepResult.rename` — parses and results of steps with other numbers of states.
* `BeamParser.Mirrors` — a parser is another one with other numbers of states.

## Main results

* `BeamParser.Mirrors.step_cases` — such parsers take the same kind of step.
* `BeamParser.Mirrors.advance` — they go on with a parse alike.
-/

namespace MinimalistGrammar

variable {π : Type} {f : StateId → StateId}

/-! ### New names for states -/

/-- The parse with new names for its states. -/
def Parse.rename (f : StateId → StateId) (q : Parse π) : Parse π :=
  { q with previous := q.previous.map f, state := q.state.map f }

/-- The result of a step with a new name for its state. -/
def StepResult.rename (f : StateId → StateId) : StepResult → StepResult
  | expanded id count => expanded (f id) count
  | deadEnd id => deadEnd (f id)
  | discarded id => discarded (f id)
  | success id => success (f id)
  | finished status => finished status

theorem Parse.extend_rename (lex : Lexicon) (q : Parse π) (e : Expansion) (share : π)
    (message : String) :
    (q.rename f).extend lex e share message = (q.extend lex e share message).rename f := by
  cases e with
  | predict => rfl
  | scan => rfl

/-- Placing an entry does not look at the items. -/
theorem placeEntry_map {κ α β : Type} [Ord κ] (g : α → β) (k : κ) (a : α) (l : List (κ × α)) :
    placeEntry (k, g a) (l.map fun e => (e.1, g e.2)) =
      (placeEntry (k, a) l).map fun e => (e.1, g e.2) := by
  induction l with
  | nil => rfl
  | cons e l ih =>
    rw [List.map_cons, placeEntry, placeEntry]
    split
    · rfl
    · rw [ih, List.map_cons]

/-- Showing a state says nothing and asks nothing. -/
theorem Report.present_eq (r : Report) (t : DerivationTree) :
    ∃ shown, r.present t = { r with shown } := by
  rw [present]
  split
  · exact ⟨r.shown, rfl⟩
  · exact ⟨_, rfl⟩

namespace BeamParser

/-- The parser `p` is `p'` with new names for the states. Before, it has said some messages more,
and those who watch it say from now on what those say who watch the other one. -/
structure Mirrors (f : StateId → StateId) (said : Array Message) (p p' : BeamParser π) : Prop where
  lexicon : p.lexicon = p'.lexicon
  settings : p.settings = p'.settings
  steps : p.steps = p'.steps
  status : p.status = p'.status
  beam : p.beam.entries = p'.beam.entries.map fun e => (e.1, e.2.rename f)
  results : p.results = p'.results.map (Parse.rename f)
  messages : p.report.messages = said ++ p'.report.messages
  stops (n : Nat) : p.report.stops (p.report.asked + n) = p'.report.stops (p'.report.asked + n)

namespace Mirrors

variable {said : Array Message} {p p' : BeamParser π}

section

variable (h : Mirrors f said p p')
include h

/-! ### Saying and asking -/

theorem log (level : Level) (text : String) :
    Mirrors f said (p.log level text) (p'.log level text) where
  lexicon := h.lexicon
  settings := h.settings
  steps := h.steps
  status := h.status
  beam := h.beam
  results := h.results
  messages := by
    show p.report.messages.push _ = said ++ p'.report.messages.push _
    rw [h.messages, Array.append_push]
  stops := h.stops

/-- Those who watch are asked. -/
theorem ask : p.report.ask.1 = p'.report.ask.1 ∧
    Mirrors f said { p with report := p.report.ask.2 } { p' with report := p'.report.ask.2 } := by
  refine ⟨h.stops 0, h.lexicon, h.settings, h.steps, h.status, h.beam, h.results, h.messages,
    fun n => ?_⟩
  have hstops := h.stops (1 + n)
  rwa [← Nat.add_assoc, ← Nat.add_assoc] at hstops

theorem isEmpty_results : p.results.isEmpty = p'.results.isEmpty := by
  rw [h.results, List.isEmpty_map]

theorem regret : Mirrors f said p.regret p'.regret := by
  unfold BeamParser.regret
  rw [h.isEmpty_results]
  split
  · exact h.log ..
  · exact h

theorem announce (status : ParseStatus) :
    Mirrors f said (p.announce status) (p'.announce status) := by
  cases status with
  | found =>
    unfold BeamParser.announce
    rw [h.results, List.length_map, h.steps]
    exact h.log ..
  | noParse => exact h.log ..
  | capReached | cancelled =>
    unfold BeamParser.announce
    rw [h.steps]
    exact (h.log ..).regret

theorem withStatus (status : Option ParseStatus) :
    Mirrors f said { p with status } { p' with status } :=
  { h with status := rfl }

theorem addResult (q : Parse π) :
    Mirrors f said { p with results := p.results ++ [q.rename f] }
      { p' with results := p'.results ++ [q] } :=
  { h with results := by simp only [h.results, List.map_append, List.map_cons, List.map_nil] }

/-! ### The beam -/

theorem emptyStatus : p.emptyStatus = p'.emptyStatus := by
  rw [BeamParser.emptyStatus, BeamParser.emptyStatus, h.isEmpty_results]

theorem pop?_eq_none (hpop : p'.beam.pop? = none) : p.beam.pop? = none := by
  unfold StableQueue.pop? at hpop ⊢
  rw [h.beam]
  cases hentries : p'.beam.entries with
  | nil => rfl
  | cons e rest =>
    rw [hentries] at hpop
    exact absurd hpop (by simp)

/-- The best parse is taken off the beam. -/
theorem pop? {q' : Parse π} {beam' : StableQueue (BeamKey π) (Parse π)}
    (hpop : p'.beam.pop? = some (q', beam')) : ∃ beam, p.beam.pop? = some (q'.rename f, beam) ∧
      beam.entries = beam'.entries.map fun e => (e.1, e.2.rename f) := by
  unfold StableQueue.pop? at hpop ⊢
  rw [h.beam]
  cases hentries : p'.beam.entries with
  | nil =>
    rw [hentries] at hpop
    exact absurd hpop (by simp)
  | cons e rest =>
    rw [hentries] at hpop
    obtain ⟨rfl, rfl⟩ := Prod.mk.inj (Option.some.inj hpop)
    exact ⟨_, rfl, rfl⟩

/-- A parse is taken off the beam as the next step. -/
theorem take {beam beam' : StableQueue (BeamKey π) (Parse π)}
    (hbeam : beam.entries = beam'.entries.map fun e => (e.1, e.2.rename f)) :
    Mirrors f said { p with beam, steps := p.steps + 1 }
      { p' with beam := beam', steps := p'.steps + 1 } :=
  { h with beam := hbeam, steps := congrArg (· + 1) h.steps }

variable [Probability π]

theorem push (q : Parse π) : Mirrors f said (p.push (q.rename f)) (p'.push q) where
  lexicon := h.lexicon
  settings := h.settings
  steps := h.steps
  status := h.status
  beam := by
    show placeEntry (q.key, q.rename f) p.beam.entries = _
    rw [h.beam]
    exact placeEntry_map (Parse.rename f) q.key q p'.beam.entries
  results := h.results
  messages := h.messages
  stops := h.stops

theorem pushExpansion (q : Parse π) (share : π) (e : Expansion) :
    Mirrors f said (pushExpansion (q.rename f) share p e) (pushExpansion q share p' e) := by
  have hsituation : p.situation (q.rename f) = p'.situation q := by
    unfold BeamParser.situation
    rw [h.steps]
    rfl
  unfold BeamParser.pushExpansion
  simp only [hsituation, Parse.extend_rename, h.lexicon]
  exact (h.log ..).push _

end

variable [Probability π]

theorem foldl_pushExpansion (q : Parse π) (share : π) (es : List Expansion)
    (h : Mirrors f said p p') :
    Mirrors f said (es.foldl (BeamParser.pushExpansion (q.rename f) share) p)
      (es.foldl (BeamParser.pushExpansion q share) p') := by
  induction es generalizing p p' with
  | nil => exact h
  | cons e es ih => exact ih (h.pushExpansion q share e)

variable (h : Mirrors f said p p')
include h

/-- A parse is gone on with alike. -/
theorem expand (q : Parse π) (id : StateId) :
    Mirrors f said (p.expand (q.rename f) (f id)).1 (p'.expand q id).1 ∧
      (p.expand (q.rename f) (f id)).2 = (p'.expand q id).2.rename f := by
  have hqueue : (q.rename f).queue = q.queue := rfl
  unfold BeamParser.expand
  rw [hqueue]
  cases q.queue.pop? with
  | none => exact ⟨h.log .., rfl⟩
  | some x =>
    obtain ⟨category, queue⟩ := x
    have hinput : (q.rename f).input = q.input := rfl
    have hprobability : (q.rename f).probability = q.probability := rfl
    simp only [h.lexicon, h.settings, hinput, hprobability]
    split
    · exact ⟨h.log .., rfl⟩
    · split
      · exact ⟨h.log .., rfl⟩
      · exact ⟨foldl_pushExpansion { q with queue } _ _ h, rfl⟩

omit [Probability π] in
/-- A parse is logged, in whatever trees. -/
theorem logParse (q : Parse π) (t t' : DerivationTree) :
    Mirrors f said (p.logParse (q.rename f) t).1 (p'.logParse q t').1 := by
  have hreport (p : BeamParser π) (q : Parse π) (t : DerivationTree) :
      ∃ shown, (p.logParse q t).1.report = { p.report with shown } := Report.present_eq _ _
  obtain ⟨shown, hreport₁⟩ := hreport p (q.rename f) t
  obtain ⟨shown', hreport₂⟩ := hreport p' q t'
  refine ⟨h.lexicon, h.settings, h.steps, h.status, h.beam, h.results, ?_, fun n => ?_⟩
  · rw [hreport₁, hreport₂]
    exact h.messages
  · rw [hreport₁, hreport₂]
    exact h.stops n

/-- A parse that was taken off the beam is gone on with alike, if the states that are added have
corresponding numbers. -/
theorem advance (q : Parse π) {t t' : DerivationTree} (hnew : f ⟨t'.nextId⟩ = ⟨t.nextId⟩) :
    Mirrors f said (p.advance (q.rename f) t).1 (p'.advance q t').1 ∧
      (p.advance (q.rename f) t).2.2 = (p'.advance q t').2.2.rename f := by
  have hlogged := h.logParse q t t'
  have hid : (p.logParse (q.rename f) t).2.2 = f (p'.logParse q t').2.2 := hnew.symm
  unfold BeamParser.advance
  generalize p.logParse (q.rename f) t = r at hlogged hid ⊢
  generalize p'.logParse q t' = r' at hlogged hid ⊢
  obtain ⟨p₁, t₁, id⟩ := r
  obtain ⟨p₁', t₁', id'⟩ := r'
  obtain rfl : id = f id' := hid
  have hparse (x : Parse π) (hx : x = q.rename f) : ({ x with state := some (f id') } : Parse π) =
      ({ q with state := some id' } : Parse π).rename f := by
    rw [hx]
    rfl
  simp only [hparse _ rfl]
  generalize ({ q with state := some id' } : Parse π) = q₁
  have hcomplete : (q₁.rename f).isComplete = q₁.isComplete := rfl
  have hprobability : (q.rename f).probability = q.probability := rfl
  rw [hcomplete, hprobability]
  split
  · rw [hlogged.steps]
    exact ⟨(hlogged.log ..).addResult q₁, rfl⟩
  · exact hlogged.expand q₁ id'

end Mirrors

/-- Parsers that are alike but for the numbers of states take the same kind of step: none after the
end of the run, the last one, or one that takes the best parse off the beam. -/
theorem Mirrors.step_cases [Probability π] {said : Array Message} {p p' : BeamParser π}
    (h : Mirrors f said p p') (hstatus : p'.status = none) (t t' : DerivationTree) :
    (∃ status, p.step t = { p with report := p.report.ask.2 }.finish status t ∧
      p'.step t' = { p' with report := p'.report.ask.2 }.finish status t') ∨
    ∃ q q' beam beam', p.beam.pop? = some (q, beam) ∧ p'.beam.pop? = some (q', beam') ∧
      p.step t = { p with report := p.report.ask.2, beam, steps := p.steps + 1 }.advance q t ∧
      p'.step t' =
        { p' with report := p'.report.ask.2, beam := beam', steps := p'.steps + 1 }.advance q'
          t' := by
  obtain ⟨hstop, -⟩ := h.ask
  unfold BeamParser.step
  rw [h.status, hstatus]
  simp only [hstop, h.settings, h.steps]
  split
  · exact Or.inl ⟨.cancelled, rfl, rfl⟩
  · split
    · exact Or.inl ⟨.capReached, rfl, rfl⟩
    · cases hpop : p'.beam.pop? with
      | none =>
        rw [h.pop?_eq_none hpop]
        refine Or.inl ⟨p'.emptyStatus, ?_, rfl⟩
        rw [← h.emptyStatus]
        rfl
      | some x =>
        obtain ⟨q', beam'⟩ := x
        obtain ⟨beam, hpop', -⟩ := h.pop? hpop
        rw [hpop']
        exact Or.inr ⟨_, q', beam, beam', rfl, rfl, rfl, rfl⟩

end BeamParser
end MinimalistGrammar
