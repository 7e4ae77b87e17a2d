import MinimalistGrammar.Beam.Parse
import MinimalistGrammar.Beam.SurfaceTree
import MinimalistGrammar.Derivation.Pruning
import MinimalistGrammar.Report

/-!
# The beam parser

The parser starts with a prediction of the start category over the whole input. Each step takes the
best parse off the beam, logs it as a state of a derivation tree, and puts what its first open
prediction can expand to back on the beam. A parse with nothing open and nothing left to read is a
result.

## Main definitions

* `Settings` — the bounds of a run.
* `BeamParser` — the beam, the results and the status of a run.
* `BeamParser.start`, `BeamParser.step`, `BeamParser.run` — a run, step by step or to its end.
* `BeamParser.parse` — a whole run with its parses.
* `Lexicon.derive` — a whole run of a new parser on a new derivation tree.
-/

namespace MinimalistGrammar

/-- The bounds of a run. -/
structure Settings (π : Type) where
  /-- Continuations that are less probable are dropped. -/
  minProbability : π
  /-- How many parses may be taken off the beam. -/
  stepCap : Nat := 300
  /-- Whether the states that lead to no result are removed at the end. -/
  discardDeadEnds : Bool := false

/-- The usual bounds. -/
def Settings.usual : Settings Float := { minProbability := 0.0001 }

/-- How a run ended. -/
inductive ParseStatus
  /-- The beam is empty, and there are results. -/
  | found
  /-- The beam is empty, and there are no results. -/
  | noParse
  | capReached
  | cancelled
deriving DecidableEq, Repr

/-- The name of a status. -/
def ParseStatus.text : ParseStatus → String
  | found => "found"
  | noParse => "no parse"
  | capReached => "cap reached"
  | cancelled => "cancelled"

/-- What a step has done. -/
inductive StepResult
  /-- The parse goes on in `count` ways. -/
  | expanded (state : StateId) (count : Nat)
  /-- The parse cannot go on. -/
  | deadEnd (state : StateId)
  /-- The parse can go on, but only in ways that are too improbable. -/
  | discarded (state : StateId)
  /-- The parse is complete. -/
  | success (state : StateId)
  /-- No parse was taken, since the run is over. -/
  | finished (status : ParseStatus)
deriving DecidableEq, Repr

/-- The beam of a run, with what the run has found. -/
structure BeamParser (π : Type) where
  lexicon : Lexicon
  settings : Settings π
  report : Report := {}
  /-- The parses to go on with, best first. -/
  beam : StableQueue (BeamKey π) (Parse π) := {}
  /-- The complete parses, in the order in which they were found. -/
  results : List (Parse π) := []
  /-- The states of this run. -/
  logged : List StateId := []
  /-- How many parses have been taken off the beam. -/
  steps : Nat := 0
  /-- How the run ended, once it has. -/
  status : Option ParseStatus := none

namespace BeamParser

variable {π : Type}

/-- Says something. -/
def log (p : BeamParser π) (level : Level) (text : String) : BeamParser π :=
  { p with report := p.report.log level text }

/-- The parse that the next step takes. -/
def peek? (p : BeamParser π) : Option (Parse π) := p.beam.peek?

/-- The `n` best parses on the beam. -/
def pending (p : BeamParser π) (n : Nat) : List (Parse π) := p.beam.toList.take n

/-- Puts a parse on the beam. -/
def push [Probability π] (p : BeamParser π) (parse : Parse π) : BeamParser π :=
  { p with beam := p.beam.push parse.key parse }

/-! ### Starting a run -/

/-- The prediction of the start category at a root of the lexicon. -/
def startCategory (root : Nat) (start : String) : Category :=
  { node := root
    frontier := .all
    index := .root
    checked := [.categorial start]
    path := .root }

/-- The parser with nothing left of earlier runs but their messages. -/
def reset (p : BeamParser π) : BeamParser π :=
  { p with beam := {}, results := [], logged := [], steps := 0, status := none }

/-- Starts a run over some words, and says whether the lexicon has the start category. -/
def start [Probability π] (p : BeamParser π) (words : List String) (start : String) :
    BeamParser π × Bool :=
  let p := p.reset
  match p.lexicon.category? start with
  | none =>
    let p := p.log .warn ("unknown start category " ++ start)
    let p := p.log .info "no parse found"
    ({ p with status := some .noParse }, false)
  | some root =>
    let p := p.log .info ("parsing '" ++ " ".intercalate words ++ "' as " ++ start)
    (p.push (.initial words (startCategory root start)), true)

/-! ### Logging parses -/

/-- The colour of what the last step has added. -/
def newColor : Color := .rgb 0x2e 0x8b 0x57

/-- The colour of what still has to move. -/
def moverColor : Color := .rgb 0xc8 0x50 0x3c

/-- A new group under its name, unless it is empty. -/
def groupOf (s : Store) (groups : Dict String GroupId) (name : String)
    (members : List ConstituentId) (color : Color) : Store × Dict String GroupId :=
  if members.isEmpty then (s, groups)
  else
    let (s, id) := s.addGroup { name, members, color := some color }
    (s, groups.insert name id)

/-- The nodes of the records that the last step has added, each of them once. -/
def freshNodes (parse : Parse π) (tree : SurfaceTree) : List ConstituentId :=
  (parse.freshRecords.filterMap fun r => tree.nodes.lookup r.path).foldl Store.addNew []

/-- Builds the tree of a parse, and tells what its state will show. -/
def stepOf (s : Store) (parse : Parse π) : Store × Step :=
  match SurfaceTree.build s parse.records with
  | none => (s, { roots := [], message := parse.message, type := parse.stateType })
  | some (s, tree) =>
    let (s, groups) := groupOf s ∅ "new" (freshNodes parse tree) newColor
    let (s, groups) := groupOf s groups "movers" (tree.pendingMovers s) moverColor
    (s, { roots := [tree.root], message := parse.message, type := parse.stateType, groups })

/-- Adds a state for a parse, below the state of the parse from which it comes. The state has a
tree of its own. -/
def logParse (p : BeamParser π) (parse : Parse π) (t : DerivationTree) :
    BeamParser π × DerivationTree × StateId :=
  let (store, step) := stepOf t.store parse
  let (t, id) := { t with store }.addStep step parse.previous
  ({ p with logged := p.logged ++ [id], report := p.report.present t }, t, id)

/-! ### Ending a run -/

/-- The states of this run that lead to no result. -/
def deadEnds (p : BeamParser π) (t : DerivationTree) : List StateId :=
  let keep := (p.results.filterMap (·.state)).flatMap t.branch
  -- a state that leads to a result is kept, also when other branches begin at it
  p.logged.filter (! keep.contains ·)

/-- Removes the states of this run that lead to no result. -/
def discardDeadEnds (p : BeamParser π) (t : DerivationTree) : BeamParser π × DerivationTree :=
  let doomed := p.deadEnds t
  let (t, removed) := t.removeStates doomed
  let p := { p with logged := p.logged.filter (! doomed.contains ·) }
  let n := removed.length
  (p.log .info (toString n ++ " dead-end state" ++ plural n ++ " discarded"), t)

/-- Says that nothing was found, if that is so. -/
def regret (p : BeamParser π) : BeamParser π :=
  if p.results.isEmpty then p.log .info "no parse found" else p

/-- Says how the run ended. -/
def announce (p : BeamParser π) : ParseStatus → BeamParser π
  | .found =>
    let n := p.results.length
    p.log .info (toString n ++ " parse" ++ plural n ++ " found in " ++ toString p.steps ++ " steps")
  | .noParse => p.log .info "no parse found"
  | .capReached => (p.log .warn ("step cap reached after " ++ toString p.steps ++ " steps")).regret
  | .cancelled => (p.log .warn ("parse cancelled after " ++ toString p.steps ++ " steps")).regret

/-- Ends the run. -/
def finish (p : BeamParser π) (status : ParseStatus) (t : DerivationTree) :
    BeamParser π × DerivationTree × StepResult :=
  let p := p.announce status
  let (p, t) :=
    if p.settings.discardDeadEnds && !p.results.isEmpty then p.discardDeadEnds t else (p, t)
  ({ p with status := some status }, t, .finished status)

/-! ### Steps -/

/-- The end of every message about an expansion. -/
def situation (p : BeamParser π) (parse : Parse π) : String :=
  " | input: '" ++ " ".intercalate parse.input ++ "' | step " ++ toString p.steps

/-- Puts the parse after an expansion on the beam. -/
def pushExpansion [Probability π] (parse : Parse π) (share : π) (p : BeamParser π)
    (e : Expansion) : BeamParser π :=
  let message := e.message p.lexicon ++ p.situation parse
  (p.log .debug message).push (parse.extend p.lexicon e share message)

/-- Goes on with the first open prediction of a parse, which is logged as the state `id`. -/
def expand [Probability π] (p : BeamParser π) (parse : Parse π) (id : StateId) :
    BeamParser π × StepResult :=
  match parse.queue.pop? with
  | none =>
    (p.log .debug ("dead end: nothing predicted for '" ++ " ".intercalate parse.input ++ "'"),
      .deadEnd id)
  | some (category, queue) =>
    let expansions := category.expansions p.lexicon parse.input
    -- the share is the same for all expansions, so they are kept or discarded together
    let share := Probability.share parse.probability expansions.length
    if expansions.isEmpty then
      (p.log .debug ("dead end: nothing continues " ++ category.describe p.lexicon), .deadEnd id)
    else if Probability.below share p.settings.minProbability then
      (p.log .warn ("improbable parses discarded (p = " ++ Probability.text share ++ ")"),
        .discarded id)
    else
      (expansions.foldl (pushExpansion { parse with queue } share) p,
        .expanded id expansions.length)

/-- Logs a parse that was taken off the beam, and goes on with it unless it is complete. -/
def advance [Probability π] (p : BeamParser π) (parse : Parse π) (t : DerivationTree) :
    BeamParser π × DerivationTree × StepResult :=
  let (p, t, id) := p.logParse parse t
  -- the parses that come from this one are shown below its state
  let parse := { parse with state := some id }
  if parse.isComplete then
    let p := p.log .info ("parse found at step " ++ toString p.steps ++ " (p = " ++
      Probability.text parse.probability ++ ")")
    ({ p with results := p.results ++ [parse] }, t, .success id)
  else
    let (p, result) := p.expand parse id
    (p, t, result)

/-- How the run ends if no parse may be taken off the beam. -/
def emptyStatus (p : BeamParser π) : ParseStatus :=
  if p.results.isEmpty then .noParse else .found

/-- Takes the best parse off the beam, logs it, and goes on with it. -/
def step [Probability π] (p : BeamParser π) (t : DerivationTree) :
    BeamParser π × DerivationTree × StepResult :=
  match p.status with
  | some status => (p, t, .finished status)
  | none =>
    let (stop, report) := p.report.ask
    let p := { p with report }
    -- a run that is told to stop does not take the next parse, whatever the cap and the beam are
    if stop then p.finish .cancelled t
    else if p.settings.stepCap ≤ p.steps then p.finish .capReached t
    else
      match p.beam.pop? with
      | none => p.finish p.emptyStatus t
      | some (parse, beam) => { p with beam, steps := p.steps + 1 }.advance parse t

/-! ### Whole runs -/

@[simp] theorem steps_log (p : BeamParser π) (level : Level) (text : String) :
    (p.log level text).steps = p.steps := rfl

@[simp] theorem settings_log (p : BeamParser π) (level : Level) (text : String) :
    (p.log level text).settings = p.settings := rfl

section bounds

variable [Probability π]

@[simp] theorem steps_push (p : BeamParser π) (parse : Parse π) :
    (p.push parse).steps = p.steps := rfl

@[simp] theorem settings_push (p : BeamParser π) (parse : Parse π) :
    (p.push parse).settings = p.settings := rfl

theorem steps_foldl_pushExpansion (parse : Parse π) (share : π) (es : List Expansion)
    (p : BeamParser π) :
    (es.foldl (pushExpansion parse share) p).steps = p.steps ∧
      (es.foldl (pushExpansion parse share) p).settings = p.settings := by
  induction es generalizing p with
  | nil => exact ⟨rfl, rfl⟩
  | cons e es ih =>
    rw [List.foldl_cons]
    exact ⟨(ih _).1, (ih _).2⟩

/-- Expanding a parse is no step of its own. -/
theorem steps_expand (p : BeamParser π) (parse : Parse π) (id : StateId) :
    (p.expand parse id).1.steps = p.steps ∧ (p.expand parse id).1.settings = p.settings := by
  simp only [expand]
  split
  · exact ⟨rfl, rfl⟩
  · split
    · exact ⟨rfl, rfl⟩
    · split
      · exact ⟨rfl, rfl⟩
      · exact steps_foldl_pushExpansion ..

theorem steps_advance (p : BeamParser π) (parse : Parse π) (t : DerivationTree) :
    (p.advance parse t).1.steps = p.steps ∧ (p.advance parse t).1.settings = p.settings := by
  simp only [advance]
  split
  · exact ⟨rfl, rfl⟩
  · exact steps_expand ..

/-- A step that does not end the run takes one of the parses that the settings allow. -/
theorem steps_step_lt {p p' : BeamParser π} {t t' : DerivationTree} {result : StepResult}
    (h : p.step t = (p', t', result)) (hrun : ∀ status, result ≠ .finished status) :
    p'.settings.stepCap - p'.steps < p.settings.stepCap - p.steps := by
  rw [step] at h
  split at h
  · exact absurd (congrArg (·.2.2) h).symm (hrun _)
  · simp only at h
    split at h
    · exact absurd (congrArg (·.2.2) h).symm (hrun _)
    · split at h
      · exact absurd (congrArg (·.2.2) h).symm (hrun _)
      · next hcap =>
        split at h
        · exact absurd (congrArg (·.2.2) h).symm (hrun _)
        · next parse beam _ =>
          obtain ⟨hsteps, hsettings⟩ := steps_advance
            { p with report := p.report.ask.2, beam, steps := p.steps + 1 } parse t
          rw [h] at hsteps hsettings
          simp only at hsteps hsettings
          rw [hsteps, hsettings]
          omega

end bounds

/-- Takes steps until the run is over. -/
def run [Probability π] (p : BeamParser π) (t : DerivationTree) :
    BeamParser π × DerivationTree × ParseStatus :=
  match _h : p.step t with
  | (p, t, .finished status) => (p, t, status)
  | (p, t, .expanded ..) => p.run t
  | (p, t, .deadEnd _) => p.run t
  | (p, t, .discarded _) => p.run t
  | (p, t, .success _) => p.run t
termination_by p.settings.stepCap - p.steps
decreasing_by all_goals exact steps_step_lt _h (by simp)

/-- Takes `n` steps, and tells what each has done. -/
def stepTimes [Probability π] (p : BeamParser π) (t : DerivationTree) :
    Nat → BeamParser π × DerivationTree × List StepResult
  | 0 => (p, t, [])
  | n + 1 =>
    let (p, t, result) := p.step t
    let (p, t, results) := p.stepTimes t n
    (p, t, result :: results)

/-- The results, and behind them what is left on the beam if the run was stopped. -/
def parses (p : BeamParser π) : List (Parse π) :=
  match p.status with
  | some .capReached | some .cancelled => p.results ++ p.pending p.beam.size
  | _ => p.results

/-- A whole run over some words. -/
def parse [Probability π] (p : BeamParser π) (words : List String) (start : String)
    (t : DerivationTree) : BeamParser π × DerivationTree × List (Parse π) :=
  let (p, t, _) := (p.start words start).1.run t
  (p, t, p.parses)

end BeamParser

/-- A whole run of a new parser on a new derivation tree. -/
def Lexicon.derive {π : Type} [Probability π] (lex : Lexicon) (words : List String)
    (start : String) (settings : Settings π) : DerivationTree × List (Parse π) :=
  let p : BeamParser π := { lexicon := lex, settings }
  let (_, t, parses) := p.parse words start {}
  (t, parses)

end MinimalistGrammar
