import MinimalistGrammar.Proofs.Beam.Apart
import MinimalistGrammar.Proofs.Beam.Renaming
import MinimalistGrammar.Proofs.Derivation.Copies

/-!
# Runs on a tree with other states

What a run adds to a tree is a copy of the tree that it would have built alone, and it finds the
same results. At its end it removes the dead ends that it would have removed alone. More states go
with them only if a state that was there before names one of their numbers as its parent, though no
state had this number then.

## Main definitions

* `BeamParser.IsAlone` — a run on a tree with no states but its own.
* `BeamParser.Follows` — a run on any tree goes the way of a run on a tree of its own.
* `BeamParser.afresh` — a new parser of the same kind.
* `BeamParser.Echoes` — two runs have said and found the same.

## Main results

* `BeamParser.follows_start` — a run begins like that of a new parser on a new tree.
* `BeamParser.Follows.of_spares` — steps of other runs do not disturb it.
* `BeamParser.Follows.step` — both runs take the same kind of step, and end alike.
-/

namespace MinimalistGrammar

variable {π : Type} {f : StateId → StateId} {t t' u : DerivationTree} {own : List StateId}

/-- States without doubles are the first `n` numbers under new names. -/
theorem exists_injective_map_eq (hnodup : own.Nodup) {bound : Nat}
    (hlt : ∀ a ∈ own, a.index < bound) :
    ∃ f : StateId → StateId, f.Injective ∧ own = ((List.range own.length).map Ident.mk).map f := by
  -- numbers past the states are named past their bound
  refine ⟨fun b => own[b.index]?.getD ⟨bound + b.index⟩, fun b c heq => ?_, ?_⟩
  · cases hb : own[b.index]? with
    | none =>
      cases hc : own[c.index]? with
      | none =>
        simp only [hb, hc, Option.getD_none, Ident.mk.injEq, Nat.add_left_cancel_iff] at heq
        exact congrArg Ident.mk heq
      | some a =>
        have ha := hlt a (List.mem_of_getElem? hc)
        simp only [hb, hc, Option.getD_none, Option.getD_some] at heq
        rw [← heq] at ha
        exact absurd ha (Nat.not_lt.mpr (Nat.le_add_right ..))
    | some a =>
      have ha := hlt a (List.mem_of_getElem? hb)
      cases hc : own[c.index]? with
      | none =>
        simp only [hb, hc, Option.getD_none, Option.getD_some] at heq
        rw [heq] at ha
        exact absurd ha (Nat.not_lt.mpr (Nat.le_add_right ..))
      | some a' =>
        simp only [hb, hc, Option.getD_some] at heq
        obtain ⟨hlength, -⟩ := List.getElem?_eq_some_iff.mp hb
        have hsame : own[b.index]? = own[c.index]? := by rw [hb, hc, heq]
        exact congrArg Ident.mk ((List.getElem?_inj hlength hnodup).mp hsame)
  · refine List.ext_getElem (by simp) fun n h₁ h₂ => ?_
    simp [h₁]

namespace BeamParser

/-! ### A run on a tree of its own -/

/-- The states of the tree are those that the run has logged, numbered as they were logged. -/
structure IsAlone (p : BeamParser π) (t : DerivationTree) : Prop where
  isConsistent : t.IsConsistent
  contains_iff {b : StateId} : t.contains b = true ↔ b.index < t.nextId
  logged : p.logged = (List.range t.nextId).map Ident.mk
  previous {q : Parse π} {b : StateId} : q ∈ p.beam.toList → q.previous = some b →
    b.index < t.nextId
  state {q : Parse π} {b : StateId} : q ∈ p.results → q.state = some b → b.index < t.nextId

namespace IsAlone

variable {p p₁ : BeamParser π}

theorem mem_logged_iff (h : IsAlone p t) {b : StateId} : b ∈ p.logged ↔ t.contains b = true := by
  rw [h.logged, h.contains_iff, List.mem_map]
  constructor
  · rintro ⟨n, hn, rfl⟩
    exact List.mem_range.mp hn
  · exact fun hb => ⟨b.index, List.mem_range.mpr hb, rfl⟩

theorem nodup_logged (h : IsAlone p t) : p.logged.Nodup := by
  rw [h.logged]
  exact List.Nodup.map (fun _ _ heq => Ident.mk.inj heq) List.nodup_range

/-- A run that logs a state stays alone on its tree. -/
theorem of_adds (h : IsAlone p t) {previous : Option StateId} (hadds : p.Adds t previous p₁ u) :
    IsAlone p₁ u := by
  obtain ⟨store, step, rfl⟩ := hadds.tree
  have hnext : (({ t with store }.addStep step previous).1).nextId = t.nextId + 1 := rfl
  refine ⟨(h.isConsistent.withStore store).addStep step previous, fun {b} => ?_, ?_,
    fun {q b} hq hb => ?_, fun {q b} hq hb => ?_⟩
  · have hcontains : ({ t with store } : DerivationTree).contains b = true ↔ b.index < t.nextId :=
      h.contains_iff
    rw [DerivationTree.contains_addStep, hcontains, hnext, Nat.lt_succ_iff_lt_or_eq]
    exact ⟨fun hb => hb.symm.imp_right (congrArg Ident.index),
      fun hb => hb.symm.imp_left (congrArg Ident.mk)⟩
  · rw [hadds.logged, h.logged, hnext, List.range_succ, List.map_append]
    rfl
  · rw [hnext]
    rcases hadds.beam hq with hq | hq
    · exact Nat.lt_succ_of_lt (h.previous hq hb)
    · rw [← Option.some.inj (hq.symm.trans hb)]
      exact Nat.lt_succ_self _
  · rw [hnext]
    rcases hadds.results hq with hq | hq
    · exact Nat.lt_succ_of_lt (h.state hq hb)
    · rw [← Option.some.inj (hq.symm.trans hb)]
      exact Nat.lt_succ_self _

/-- With a dead end all its children are dead ends. -/
theorem mem_deadEnds_of_parent? (h : IsAlone p t) {b a : StateId} (hparent : t.parent? b = some a)
    (ha : a ∈ p.deadEnds t) : b ∈ p.deadEnds t := by
  rw [mem_deadEnds_iff] at ha ⊢
  refine ⟨h.mem_logged_iff.mpr (DerivationTree.contains_of_parent? hparent), fun q hq s hs hb => ?_⟩
  obtain ⟨hcontains, hcomes⟩ := h.isConsistent.mem_branch_iff.mp hb
  refine ha.2 q hq s hs (h.isConsistent.mem_branch_iff.mpr ⟨hcontains, hcomes.trans ?_⟩)
  exact .of_parent? hparent

theorem nodup_deadEnds (h : IsAlone p t) : (p.deadEnds t).Nodup := h.nodup_logged.filter _

/-- Alone, a run removes its dead ends and nothing else. -/
theorem length_removeStates (h : IsAlone p t) :
    (t.removeStates (p.deadEnds t)).2.length = (p.deadEnds t).length :=
  DerivationTree.length_removeStates
    (fun _ ha => h.mem_logged_iff.mp (mem_deadEnds_iff.mp ha).1) h.nodup_deadEnds
    fun _ _ => h.mem_deadEnds_of_parent?

end IsAlone

/-! ### The same run on another tree -/

/-- The run of `p` on a tree `t` that may have other states goes the way of the run of `p'` on `t'`.
This holds under all names that take the states of `p'` to those of `p` in the order in which they
were logged. -/
structure Follows (said : Array Message) (p : BeamParser π) (t : DerivationTree) (p' : BeamParser π)
    (t' : DerivationTree) : Prop where
  alone : IsAlone p' t'
  mirrors {f : StateId → StateId} : f.Injective → p.logged = p'.logged.map f → Mirrors f said p p'
  copies {f : StateId → StateId} : f.Injective → p.logged = p'.logged.map f → t.Copies f t'
  nodup : p.logged.Nodup
  length : p.logged.length = t'.nextId
  lt {a : StateId} : a ∈ p.logged → a.index < t.nextId

/-- A new parser with the lexicon and the bounds of another one, and with the same people
watching. -/
def afresh (p : BeamParser π) : BeamParser π :=
  { lexicon := p.lexicon
    settings := p.settings
    report := { stops := fun n => p.report.stops (p.report.asked + n) } }

section start

variable [Probability π] (p : BeamParser π) (words : List String) (start : String)

/-- A parser starts a run like a new one, under all names. -/
theorem mirrors_start (f : StateId → StateId) :
    Mirrors f p.report.messages (p.start words start).1 (p.afresh.start words start).1 := by
  have hreset : Mirrors f p.report.messages p.reset p.afresh.reset :=
    ⟨rfl, rfl, rfl, rfl, rfl, rfl, Array.append_empty.symm, fun n =>
      congrArg (fun n => p.report.stops (p.report.asked + n)) (Nat.zero_add n).symm⟩
  have hlexicon : p.afresh.reset.lexicon = p.reset.lexicon := rfl
  unfold BeamParser.start
  simp only [hlexicon]
  cases p.reset.lexicon.category? start with
  | none => exact ((hreset.log ..).log ..).withStatus _
  | some root => exact (hreset.log ..).push (.initial words (startCategory root start))

/-- A run that begins on a new tree is alone. -/
theorem isAlone_start : IsAlone (p.start words start).1 {} := by
  obtain ⟨hlogged, hresults, hbeam⟩ := start_spec p words start
  refine ⟨DerivationTree.isConsistent_empty, fun {b} => ?_, hlogged, fun hq hb => ?_, fun hq => ?_⟩
  · rw [DerivationTree.contains_eq_false_of_isEmpty rfl]
    exact ⟨fun h => absurd h (by simp), fun h => absurd h (Nat.not_lt_zero _)⟩
  · exact absurd ((hbeam _ hq).symm.trans hb) (by simp)
  · rw [hresults] at hq
    exact absurd hq List.not_mem_nil

/-- A run that begins on any tree goes the way of one that begins on a new tree. -/
theorem follows_start (t : DerivationTree) :
    Follows p.report.messages (p.start words start).1 t (p.afresh.start words start).1 {} := by
  obtain ⟨hlogged, -, -⟩ := start_spec p words start
  refine ⟨isAlone_start p.afresh words start, fun {f} _ _ => mirrors_start p words start f,
    fun {f} _ _ => DerivationTree.copies_empty f t, ?_, ?_, fun ha => ?_⟩
  · rw [hlogged]
    exact List.nodup_nil
  · rw [hlogged]
    rfl
  · rw [hlogged] at ha
    exact absurd ha List.not_mem_nil

end start

namespace Follows

variable {said : Array Message} {p p' : BeamParser π} (h : Follows said p t p' t')
include h

theorem exists_naming : ∃ f : StateId → StateId, f.Injective ∧ p.logged = p'.logged.map f := by
  obtain ⟨f, hf, heq⟩ := exists_injective_map_eq h.nodup fun _ => h.lt
  rw [h.length, ← h.alone.logged] at heq
  exact ⟨f, hf, heq⟩

/-- The states of the run are there, and their parents are states of the run. -/
theorem contains {a : StateId} (ha : a ∈ p.logged) : t.contains a = true := by
  obtain ⟨f, hf, hnames⟩ := h.exists_naming
  rw [hnames] at ha
  obtain ⟨b, hb, rfl⟩ := List.mem_map.mp ha
  exact (h.copies hf hnames).contains (h.alone.mem_logged_iff.mp hb)

theorem mem_logged_of_parent? {b a : StateId} (hparent : t.parent? b = some a) (hb : b ∈ p.logged) :
    a ∈ p.logged := by
  obtain ⟨f, hf, hnames⟩ := h.exists_naming
  rw [hnames] at hb ⊢
  obtain ⟨c, hc, rfl⟩ := List.mem_map.mp hb
  have hcontains := h.alone.mem_logged_iff.mp hc
  rw [(h.copies hf hnames).parent? hcontains] at hparent
  obtain ⟨a, ha, rfl⟩ := Option.map_eq_some_iff.mp hparent
  exact List.mem_map_of_mem (h.alone.mem_logged_iff.mpr (h.alone.isConsistent.parent ha).1)

/-- What leaves the states of the run alone does not disturb the run. -/
theorem of_spares (hspares : t.Spares p.logged u) : Follows said p u p' t' where
  alone := h.alone
  mirrors := h.mirrors
  copies {f} hf hnames := by
    refine (h.copies hf hnames).congr fun b hb => hspares.state? ?_
    have hmem := List.mem_map_of_mem (f := f) (h.alone.mem_logged_iff.mpr hb)
    rwa [← hnames] at hmem
  nodup := h.nodup
  length := h.length
  lt ha := Nat.lt_of_lt_of_le (h.lt ha) hspares.nextId_le

/-- Those who watch are asked. -/
theorem ask :
    Follows said { p with report := p.report.ask.2 } t { p' with report := p'.report.ask.2 } t' :=
  { h with
    alone :=
      ⟨h.alone.isConsistent, h.alone.contains_iff, h.alone.logged, h.alone.previous, h.alone.state⟩
    mirrors := fun hf hnames => (h.mirrors hf hnames).ask.2 }

/-! ### Going on -/

/-- Both runs take the best parse off their beams, which is the same under all names. -/
theorem take {q q' : Parse π} {beam beam' : StableQueue (BeamKey π) (Parse π)}
    (hpop : p.beam.pop? = some (q, beam)) (hpop' : p'.beam.pop? = some (q', beam')) :
    Follows said { p with beam, steps := p.steps + 1 } t
        { p' with beam := beam', steps := p'.steps + 1 } t' ∧
      (∀ f : StateId → StateId, f.Injective → p.logged = p'.logged.map f → q = q'.rename f) ∧
      ∀ b, q'.previous = some b → t'.contains b = true := by
  have hbeam' := StableQueue.toList_eq_of_pop? hpop'
  have hparse {f : StateId → StateId} (hf : f.Injective) (hnames : p.logged = p'.logged.map f) :
      q = q'.rename f ∧ beam.entries = beam'.entries.map fun e => (e.1, e.2.rename f) := by
    obtain ⟨beam₀, hpop₀, hbeam⟩ := (h.mirrors hf hnames).pop? hpop'
    obtain ⟨rfl, rfl⟩ := Prod.mk.inj (Option.some.inj (hpop.symm.trans hpop₀))
    exact ⟨rfl, hbeam⟩
  refine ⟨⟨?_, fun hf hnames => ?_, h.copies, h.nodup, h.length, h.lt⟩,
    fun f hf hnames => (hparse hf hnames).1, fun b hb => ?_⟩
  · refine ⟨h.alone.isConsistent, h.alone.contains_iff, h.alone.logged, fun hq => ?_, h.alone.state⟩
    exact h.alone.previous (hbeam' ▸ List.mem_cons_of_mem _ hq)
  · exact (h.mirrors hf hnames).take (hparse hf hnames).2
  · exact h.alone.contains_iff.mpr (h.alone.previous (hbeam' ▸ List.mem_cons_self ..) hb)

/-- Names of the states after one was logged are names of those before, and of the new one. -/
theorem names_of_adds {p₁ p₁' : BeamParser π} {u' : DerivationTree}
    {previous previous' : Option StateId} (hadds : p.Adds t previous p₁ u)
    (hadds' : p'.Adds t' previous' p₁' u') (hnames : p₁.logged = p₁'.logged.map f) :
    p.logged = p'.logged.map f ∧ f ⟨t'.nextId⟩ = ⟨t.nextId⟩ := by
  rw [hadds.logged, hadds'.logged, List.map_append] at hnames
  obtain ⟨hold, hnew⟩ := List.append_inj hnames (by simp [h.length, h.alone.logged])
  exact ⟨hold, (List.cons.inj hnew).1.symm⟩

/-- Both runs go on with one parse. -/
theorem advance [Probability π] {q q' : Parse π}
    (hq : ∀ f : StateId → StateId, f.Injective → p.logged = p'.logged.map f → q = q'.rename f)
    (hprevious : ∀ b, q'.previous = some b → t'.contains b = true) :
    Follows said (p.advance q t).1 (p.advance q t).2.1 (p'.advance q' t').1 (p'.advance q' t').2.1 ∧
      ∀ f : StateId → StateId, f.Injective →
        (p.advance q t).1.logged = (p'.advance q' t').1.logged.map f →
        p.logged = p'.logged.map f ∧ (p.advance q t).2.2 = (p'.advance q' t').2.2.rename f := by
  have hadds := adds_advance p q t
  have hadds' := adds_advance p' q' t'
  -- under any naming that fits, one run mirrors the other and adds the same state
  have hmirrors {f : StateId → StateId} (hf : f.Injective)
      (hnames : (p.advance q t).1.logged = (p'.advance q' t').1.logged.map f) :
      Mirrors f said (p.advance q t).1 (p'.advance q' t').1 ∧
        (p.advance q t).2.2 = (p'.advance q' t').2.2.rename f := by
    obtain ⟨hold, hnew⟩ := h.names_of_adds hadds hadds' hnames
    rw [hq f hf hold]
    exact (h.mirrors hf hold).advance q' hnew
  obtain ⟨store, step, htree⟩ := hadds.tree
  obtain ⟨store', step', htree'⟩ := hadds'.tree
  refine ⟨⟨h.alone.of_adds hadds', fun hf hnames => (hmirrors hf hnames).1,
      fun {f} hf hnames => ?_, ?_, ?_, fun {a} ha => ?_⟩,
    fun f hf hnames => ⟨(h.names_of_adds hadds hadds' hnames).1, (hmirrors hf hnames).2⟩⟩
  · obtain ⟨hold, hnew⟩ := h.names_of_adds hadds hadds' hnames
    have hparent : q.previous = q'.previous.map f := congrArg Parse.previous (hq f hf hold)
    rw [htree, htree', hparent]
    exact ((h.copies hf hold).withStore store store').addStep hf hnew hprevious step step'
  · rw [hadds.logged, List.nodup_append_comm]
    exact List.nodup_cons.mpr ⟨fun hmem => Nat.lt_irrefl _ (h.lt hmem), h.nodup⟩
  · rw [hadds.logged, hadds'.nextId, List.length_append, h.length]
    rfl
  · rw [hadds.nextId]
    rw [hadds.logged] at ha
    rcases List.mem_append.mp ha with ha | ha
    · exact Nat.lt_succ_of_lt (h.lt ha)
    · rw [List.mem_singleton.mp ha]
      exact Nat.lt_succ_self _

end Follows

/-! ### The end of a run -/

/-- What is said about `n` states that were removed at the end of a run. -/
def removalMessage (n : Nat) : Message :=
  { level := .info, text := toString n ++ " dead-end state" ++ plural n ++ " discarded" }

theorem messages_finish (p : BeamParser π) (status : ParseStatus) (t : DerivationTree) :
    (p.finish status t).1.report.messages =
      if p.settings.discardDeadEnds && !p.results.isEmpty then
        (p.announce status).report.messages.push
          (removalMessage (t.removeStates (p.deadEnds t)).2.length)
      else (p.announce status).report.messages := by
  obtain ⟨report, hreport⟩ := p.announce_eq status
  unfold finish
  rw [hreport]
  simp only
  split
  · rfl
  · rfl

/-- After the end of a run its steps do nothing. -/
theorem stepTimes_of_status [Probability π] {p : BeamParser π} {status : ParseStatus}
    (h : p.status = some status) (t : DerivationTree) (n : Nat) :
    p.stepTimes t n = (p, t, List.replicate n (.finished status)) := by
  have hstep : p.step t = (p, t, .finished status) := by rw [step, h]
  induction n with
  | zero => rfl
  | succ n ih => simp only [stepTimes, hstep, ih, List.replicate_succ]

/-- Two runs have ended alike: they have found the same, under new names, and have said the same,
but that one of them may have removed more states at its end. -/
structure Echoes (f : StateId → StateId) (said : Array Message) (p p' : BeamParser π) : Prop where
  status : p.status = p'.status
  results : p.results = p'.results.map (Parse.rename f)
  messages : p.report.messages = said ++ p'.report.messages ∨ ∃ (ms : Array Message) (n k : Nat),
    p'.report.messages = ms.push (removalMessage n) ∧
      p.report.messages = said ++ ms.push (removalMessage (n + k))

theorem Mirrors.echoes {said : Array Message} {p p' : BeamParser π} (h : Mirrors f said p p') :
    Echoes f said p p' :=
  ⟨h.status, h.results, Or.inl h.messages⟩

namespace Follows

variable {said : Array Message} {p p' : BeamParser π} (h : Follows said p t p' t')
include h

/-- Both runs have the same dead ends. -/
theorem deadEnds_eq (hf : f.Injective) (hnames : p.logged = p'.logged.map f) :
    p.deadEnds t = (p'.deadEnds t').map f := by
  have hcopies := h.copies hf hnames
  have hresults := (h.mirrors hf hnames).results
  unfold deadEnds
  rw [hnames, List.filter_map]
  refine congrArg _ (List.filter_congr fun b _ => congrArg Bool.not ?_)
  rw [Bool.eq_iff_iff, List.contains_iff_mem, List.contains_iff_mem, List.mem_flatMap,
    List.mem_flatMap]
  constructor
  · rintro ⟨s, hs, hmem⟩
    obtain ⟨q, hq, hs⟩ := List.mem_filterMap.mp hs
    rw [hresults] at hq
    obtain ⟨q', hq', rfl⟩ := List.mem_map.mp hq
    obtain ⟨s', hs', rfl⟩ := Option.map_eq_some_iff.mp hs
    have hcontains := h.alone.contains_iff.mpr (h.alone.state hq' hs')
    exact ⟨s', List.mem_filterMap.mpr ⟨q', hq', hs'⟩,
      (hcopies.mem_branch_iff hf h.alone.isConsistent.toIsOrdered hcontains).mp hmem⟩
  · rintro ⟨s', hs, hmem⟩
    obtain ⟨q', hq', hs'⟩ := List.mem_filterMap.mp hs
    have hcontains := h.alone.contains_iff.mpr (h.alone.state hq' hs')
    refine ⟨f s', List.mem_filterMap.mpr ⟨q'.rename f, ?_, congrArg (Option.map f) hs'⟩,
      (hcopies.mem_branch_iff hf h.alone.isConsistent.toIsOrdered hcontains).mpr hmem⟩
    rw [hresults]
    exact List.mem_map_of_mem hq'

/-- On a tree with other states at least as many states are removed as on a tree of its own, and no
more if no other state is a child of a state of the run. -/
theorem length_removeStates : (t'.removeStates (p'.deadEnds t')).2.length ≤
      (t.removeStates (p.deadEnds t)).2.length ∧
    (t.IsSealed p.logged → (t.removeStates (p.deadEnds t)).2.length =
      (t'.removeStates (p'.deadEnds t')).2.length) := by
  obtain ⟨f, hf, hnames⟩ := h.exists_naming
  have hdeadEnds := h.deadEnds_eq hf hnames
  have hlength : (p.deadEnds t).length = (t'.removeStates (p'.deadEnds t')).2.length := by
    rw [h.alone.length_removeStates, hdeadEnds, List.length_map]
  have hcontains : ∀ a ∈ p.deadEnds t, t.contains a = true := fun a ha =>
    h.contains (mem_deadEnds_iff.mp ha).1
  have hnodup : (p.deadEnds t).Nodup := h.nodup.filter _
  rw [← hlength]
  refine ⟨DerivationTree.length_le_length_removeStates hcontains hnodup, fun hsealed => ?_⟩
  refine DerivationTree.length_removeStates hcontains hnodup fun b a hparent ha => ?_
  -- a child of a dead end is a state of the run, and so it is a dead end alone
  have hb := hsealed.child hparent (mem_deadEnds_iff.mp ha).1
  rw [hdeadEnds] at ha ⊢
  rw [hnames] at hb
  obtain ⟨a', ha', rfl⟩ := List.mem_map.mp ha
  obtain ⟨b', hb', rfl⟩ := List.mem_map.mp hb
  rw [(h.copies hf hnames).parent? (h.alone.mem_logged_iff.mp hb')] at hparent
  obtain ⟨c, hc, heq⟩ := Option.map_eq_some_iff.mp hparent
  obtain rfl := hf heq
  exact List.mem_map_of_mem (h.alone.mem_deadEnds_of_parent? hc ha')

/-- Both runs end alike. -/
theorem finish (status : ParseStatus) (hf : f.Injective) (hnames : p.logged = p'.logged.map f) :
    Echoes f said (p.finish status t).1 (p'.finish status t').1 ∧
      (t.IsSealed p.logged → (p.finish status t).1.report.messages =
        said ++ (p'.finish status t').1.report.messages) := by
  have hmirrors := h.mirrors hf hnames
  obtain ⟨-, -, hresults, hstatus⟩ := finish_eq p status t
  obtain ⟨-, -, hresults', hstatus'⟩ := finish_eq p' status t'
  obtain ⟨hle, hsame⟩ := h.length_removeStates
  have hmessages := messages_finish p status t
  rw [hmirrors.settings, hmirrors.isEmpty_results, (hmirrors.announce status).messages] at hmessages
  refine ⟨⟨hstatus.trans hstatus'.symm, ?_, ?_⟩, fun hsealed => ?_⟩
  · rw [hresults, hresults', hmirrors.results]
  · rw [hmessages, messages_finish]
    split
    · obtain ⟨k, hk⟩ := Nat.exists_eq_add_of_le hle
      refine Or.inr ⟨_, _, k, rfl, ?_⟩
      rw [hk, Array.append_push]
    · exact Or.inl rfl
  · rw [hmessages, messages_finish, hsame hsealed]
    split
    · exact Array.append_push.symm
    · rfl

omit h

/-- Both runs take the same kind of step: the last one, or one that goes on with a parse. -/
theorem step [Probability π] (h : Follows said p t p' t') (hstatus : p'.status = none) :
    (∃ status, (p'.step t').1.status = some status ∧
      (p.step t).2.2 = .finished status ∧ (p'.step t').2.2 = .finished status ∧
      ∀ f : StateId → StateId, f.Injective → p.logged = p'.logged.map f →
        Echoes f said (p.step t).1 (p'.step t').1 ∧ (t.IsSealed p.logged →
          (p.step t).1.report.messages = said ++ (p'.step t').1.report.messages)) ∨
    (Follows said (p.step t).1 (p.step t).2.1 (p'.step t').1 (p'.step t').2.1 ∧
      (p.step t).1.logged = p.logged ++ [⟨t.nextId⟩] ∧ t.nextId ≤ (p.step t).2.1.nextId ∧
      (t.IsSealed p.logged → (p.step t).2.1.IsSealed (p.step t).1.logged) ∧
      ∀ f : StateId → StateId, f.Injective → (p.step t).1.logged = (p'.step t').1.logged.map f →
        p.logged = p'.logged.map f ∧ (p.step t).2.2 = (p'.step t').2.2.rename f) := by
  obtain ⟨f, hf, hnames⟩ := h.exists_naming
  rcases (h.mirrors hf hnames).step_cases hstatus t t' with
    ⟨status, heq, heq'⟩ | ⟨q, q', beam, beam', hpop, hpop', heq, heq'⟩
  · rw [heq, heq']
    exact Or.inl ⟨status, (finish_spec ..).1, rfl, rfl,
      fun f hf hnames => h.ask.finish status hf hnames⟩
  · obtain ⟨htaken, hq, hprevious⟩ := h.ask.take hpop hpop'
    obtain ⟨hfollows, hnames⟩ := htaken.advance hq hprevious
    have hadds := adds_advance { p with report := p.report.ask.2, beam, steps := p.steps + 1 } q t
    rw [heq, heq']
    exact Or.inr ⟨hfollows, hadds.logged,
      Nat.le_of_lt (hadds.nextId ▸ Nat.lt_succ_self _), hadds.isSealed, hnames⟩

end Follows
end BeamParser
end MinimalistGrammar
