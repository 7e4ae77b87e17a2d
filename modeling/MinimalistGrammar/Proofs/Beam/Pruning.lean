import Mathlib.Tactic.NormNum
import MinimalistGrammar.Proofs.Beam.BestFirst
import MinimalistGrammar.Proofs.Beam.Results

/-!
# Pruning

A step compares one number with the least probability that the settings allow: the share of a parse
that goes to each of its expansions. If the share is too small, none of the continuations is put on
the beam. A parse that comes from a prediction has just this share. A word, however, does not change
the probability, so a parse that has read one can be dropped although it is probable enough.

## Main definitions

* `Parse.alternatives` — the expansions of the first open prediction of a parse.
* `Expansion.probability` — the probability of the parse after an expansion.
* `BeamParser.Prunes` — which continuations of a parse a step puts on the beam.

## Main results

* `BeamParser.exists_prunes_of_takes` — a run puts all continuations of a parse on the beam, or none
  of them, and these are those that are probable enough unless a word is lost.
-/

namespace MinimalistGrammar

/-! ### The probabilities of continuations -/

/-- The probability of the parse after an expansion that is one of `n` for a parse with probability
`p`. -/
def Expansion.probability (p : Rat) (n : Nat) : Expansion → Rat
  | predict .. => p / n
  | scan .. => p

namespace Parse

/-- The expansions of the first open prediction. -/
def alternatives {π : Type} (lex : Lexicon) (q : Parse π) : List Expansion :=
  q.queue.pop?.elim [] fun (c, _) => c.expansions lex q.input

/-- What each of the expansions gets of the probability of a parse. -/
def share (lex : Lexicon) (q : Parse Rat) : Rat := q.probability / (q.alternatives lex).length

variable {lex : Lexicon} {q q' : Parse Rat} {e : Expansion} {message : Expansion → String}

theorem probability_extend (q : Parse Rat) (e : Expansion) (n : Nat) (text : String) :
    (q.extend lex e (q.probability / n) text).probability = e.probability q.probability n := by
  cases e with
  | predict rule parts => rfl
  | scan leaf category tokens => rfl

theorem map_probability_successors (lex : Lexicon) (q : Parse Rat) (message : Expansion → String) :
    (q.successors lex message).map (·.probability) =
      (q.alternatives lex).map (·.probability q.probability (q.alternatives lex).length) := by
  rw [successors, alternatives]
  cases q.queue.pop? with
  | none => rfl
  | some e =>
    obtain ⟨c, queue⟩ := e
    simp only [Option.elim_some, List.map_map]
    exact List.map_congr_left fun e _ => probability_extend { q with queue } e _ (message e)

/-- A continuation is as probable as the expansion says. -/
theorem exists_probability_eq_of_mem_successors (h : q' ∈ q.successors lex message) :
    ∃ e ∈ q.alternatives lex, q'.probability = e.probability q.probability
      (q.alternatives lex).length := by
  have hmem : q'.probability ∈ (q.successors lex message).map (·.probability) :=
    List.mem_map_of_mem h
  rw [map_probability_successors] at hmem
  obtain ⟨e, he, heq⟩ := List.mem_map.mp hmem
  exact ⟨e, he, heq.symm⟩

/-- For every expansion there is a continuation. -/
theorem exists_mem_successors_of_mem_alternatives (message : Expansion → String)
    (h : e ∈ q.alternatives lex) : ∃ q' ∈ q.successors lex message,
      q'.probability = e.probability q.probability (q.alternatives lex).length := by
  have hmem :=
    List.mem_map_of_mem (f := (·.probability q.probability (q.alternatives lex).length)) h
  rw [← map_probability_successors lex q message] at hmem
  exact List.mem_map.mp hmem

/-- A share is not more than the whole. -/
theorem share_le (hq : 0 ≤ q.probability) (he : e ∈ q.alternatives lex) :
    q.share lex ≤ e.probability q.probability (q.alternatives lex).length := by
  cases e with
  | predict rule parts => exact le_refl _
  | scan leaf category tokens =>
    have hpos : 0 < (q.alternatives lex).length := List.length_pos_of_mem he
    exact div_le_self hq (Nat.one_le_cast.mpr hpos)

/-- The parse has a word as an expansion and is probable enough itself, but the share of an
expansion is too small. -/
def LosesWord (lex : Lexicon) (q : Parse Rat) (least : Rat) : Prop :=
  q.share lex < least ∧ least ≤ q.probability ∧
    ∃ leaf c tokens, .scan leaf c tokens ∈ q.alternatives lex

end Parse

/-! ### Steps -/

namespace BeamParser

/-- What a step does with the continuations of the parse that it takes: it puts `pushed` on the
beam. -/
structure Prunes (p : BeamParser Rat) (t : DerivationTree) (q : Parse Rat)
    (continuations pushed : List (Parse Rat)) : Prop where
  successors : ∃ state message,
    continuations = ({ q with state } : Parse Rat).successors p.lexicon message
  /-- A prediction has an equal share of the probability, a word has all of it. -/
  probability : continuations.map (·.probability) = (q.alternatives p.lexicon).map
    (·.probability q.probability (q.alternatives p.lexicon).length)
  beam : ∃ rest, p.beam.pop? = some (q, rest) ∧
    (p.step t).1.beam.toList.Perm (pushed ++ rest.toList)
  /-- All continuations are put on the beam or none of them. -/
  pushed_eq : pushed = if q.share p.lexicon < p.settings.minProbability then [] else continuations
  discarded_iff : (∃ id, (p.step t).2.2 = .discarded id) ↔
    continuations ≠ [] ∧ q.share p.lexicon < p.settings.minProbability

section step

variable {p : BeamParser Rat} {t : DerivationTree} {q : Parse Rat}
  {continuations pushed : List (Parse Rat)}

/-- Expanding a parse puts all its continuations on the beam or none of them. -/
theorem exists_pushed_expand (p : BeamParser Rat) (q : Parse Rat) (id : StateId) :
    let least := p.settings.minProbability
    ∃ message, (p.expand q id).1.beam.toList.Perm
        ((if q.share p.lexicon < least then [] else q.successors p.lexicon message) ++
          p.beam.toList) ∧
      ((∃ id', (p.expand q id).2 = .discarded id') ↔
        q.successors p.lexicon message ≠ [] ∧ q.share p.lexicon < least) := by
  intro least
  -- the share is the same for all expansions, and it is compared once
  have hshare {c : Category} {queue : StableQueue Address Category}
      (hpop : q.queue.pop? = some (c, queue)) :
      Probability.share q.probability (c.expansions p.lexicon q.input).length =
        q.share p.lexicon := by
    rw [Parse.share, Parse.alternatives, hpop, Option.elim_some]
    rfl
  have hsuccessors {c : Category} {queue : StableQueue Address Category}
      (hpop : q.queue.pop? = some (c, queue)) (message : Expansion → String) :
      q.successors p.lexicon message = (c.expansions p.lexicon q.input).map fun e =>
        { q with queue }.extend p.lexicon e (q.share p.lexicon) (message e) := by
    rw [Parse.successors, hpop, ← hshare hpop]
    rfl
  have hcontinues := p.continues_expand q id
  generalize p.expand q id = r at hcontinues ⊢
  cases hcontinues with
  | unpredicted hpop =>
    refine ⟨fun _ => "", ?_, ?_⟩
    · rw [Parse.successors, hpop, Option.elim_none, ite_self]
      exact List.Perm.refl _
    · simp [Parse.successors, hpop]
  | unmatched hpop hnil =>
    refine ⟨fun _ => "", ?_, ?_⟩
    · rw [hsuccessors hpop, hnil, List.map_nil, ite_self]
      exact List.Perm.refl _
    · simp [hsuccessors hpop, hnil]
  | discarded hpop hne hbelow =>
    have hlt : q.share p.lexicon < least := hshare hpop ▸ of_decide_eq_true hbelow
    refine ⟨fun _ => "", ?_, ?_⟩
    · rw [if_pos hlt]
      exact List.Perm.refl _
    · exact iff_of_true ⟨id, rfl⟩ ⟨by simpa [hsuccessors hpop] using hne, hlt⟩
  | @pushed c queue hpop hne hbelow =>
    have hnot : ¬q.share p.lexicon < least := hshare hpop ▸ of_decide_eq_false hbelow
    obtain ⟨-, -, -, hbeam⟩ := foldl_pushExpansion { q with queue } (q.share p.lexicon)
      (c.expansions p.lexicon q.input) p
    refine ⟨fun e => e.message p.lexicon ++ p.situation { q with queue }, ?_, ?_⟩
    · rw [if_neg hnot, hsuccessors hpop, hshare hpop]
      exact hbeam
    · exact iff_of_false (by simp) fun h => hnot h.2

/-- Taking a parse puts all its continuations on the beam or none of them. -/
theorem exists_pushed_advance (p : BeamParser Rat) (q : Parse Rat) (t : DerivationTree) :
    let least := p.settings.minProbability
    ∃ state message,
      let continuations := ({ q with state } : Parse Rat).successors p.lexicon message
      (p.advance q t).1.beam.toList.Perm
        ((if q.share p.lexicon < least then [] else continuations) ++ p.beam.toList) ∧
      ((∃ id, (p.advance q t).2.2 = .discarded id) ↔
        continuations ≠ [] ∧ q.share p.lexicon < least) := by
  intro least
  rcases p.advance_cases q t with ⟨hcomplete, text, heq⟩ | ⟨-, heq⟩ <;> rw [heq]
  · -- a complete parse has no open prediction, and so no continuations
    have hnil : ({ q with state := none } : Parse Rat).successors p.lexicon (fun _ => "") = [] := by
      rw [Parse.isComplete, Bool.and_eq_true, StableQueue.isEmpty, List.isEmpty_iff] at hcomplete
      rw [Parse.successors, StableQueue.pop?, hcomplete.1]
      rfl
    refine ⟨none, fun _ => "", ?_, ?_⟩
    · rw [hnil, ite_self]
      exact List.Perm.refl _
    · exact iff_of_false (by simp) fun h => h.1 hnil
  · obtain ⟨message, hbeam, hdiscarded⟩ := exists_pushed_expand (p.logParse q t).1
      { q with state := some (p.logParse q t).2.2 } (p.logParse q t).2.2
    exact ⟨some (p.logParse q t).2.2, message, hbeam, hdiscarded⟩

/-- A step puts all continuations of the parse that it takes on the beam or none of them. -/
theorem exists_prunes (hq : p.Takes t q) :
    ∃ continuations pushed, p.Prunes t q continuations pushed := by
  obtain ⟨hpeek, hrun⟩ := hq
  rcases step_cases p t with ⟨status, -, heq⟩ |
    ⟨-, report, -, ⟨status, heq, -⟩ | ⟨q', rest, hpop, heq⟩⟩
  · exact absurd (congrArg (·.2.2) heq) (hrun status)
  · exact absurd (congrArg (·.2.2) heq) (hrun status)
  · obtain rfl : q = q' := Option.some.inj (hpeek.symm.trans (StableQueue.peek?_of_pop? hpop))
    obtain ⟨state, message, hbeam, hdiscarded⟩ :=
      exists_pushed_advance { p with report, beam := rest, steps := p.steps + 1 } q t
    rw [← heq] at hbeam hdiscarded
    exact ⟨_, _, ⟨state, message, rfl⟩,
      Parse.map_probability_successors p.lexicon { q with state } message,
      ⟨rest, hpop, hbeam⟩, rfl, hdiscarded⟩

namespace Prunes

theorem share_le (h : p.Prunes t q continuations pushed) (hq : 0 ≤ q.probability) {q' : Parse Rat}
    (hq' : q' ∈ continuations) : q.share p.lexicon ≤ q'.probability := by
  obtain ⟨state, message, rfl⟩ := h.successors
  obtain ⟨e, he, heq⟩ := Parse.exists_probability_eq_of_mem_successors hq'
  rw [heq]
  exact Parse.share_le hq he

/-- Nothing that is put on the beam is too improbable. -/
theorem le_of_mem_pushed (h : p.Prunes t q continuations pushed) (hq : 0 ≤ q.probability)
    {q' : Parse Rat} (hq' : q' ∈ pushed) : p.settings.minProbability ≤ q'.probability := by
  rw [h.pushed_eq] at hq'
  split at hq'
  · exact absurd hq' List.not_mem_nil
  · next hle => exact (not_lt.mp hle).trans (h.share_le hq hq')

/-- What is put on the beam are the continuations that are probable enough, unless a word is
lost. -/
theorem pushed_eq_filter_iff (h : p.Prunes t q continuations pushed) (hq : 0 ≤ q.probability) :
    (pushed = continuations.filter (p.settings.minProbability ≤ ·.probability)) ↔
      ¬q.LosesWord p.lexicon p.settings.minProbability := by
  constructor
  · rintro hfilter ⟨hshare, hleast, leaf, c, tokens, hscan⟩
    -- the parse that has read the word is probable enough, but nothing is put on the beam
    obtain ⟨state, message, rfl⟩ := h.successors
    obtain ⟨q', hq', hprobability⟩ :=
      Parse.exists_mem_successors_of_mem_alternatives (q := { q with state }) message hscan
    have hmem : q' ∈ pushed := by
      rw [hfilter, List.mem_filter, hprobability]
      exact ⟨hq', decide_eq_true hleast⟩
    rw [h.pushed_eq, if_pos hshare] at hmem
    exact absurd hmem List.not_mem_nil
  · intro hkeeps
    rw [h.pushed_eq]
    split
    · next hshare =>
      -- only a word could make a continuation probable enough although the share is not
      refine (List.filter_eq_nil_iff.mpr fun q' hq' hleast => hkeeps ⟨hshare, ?_⟩).symm
      have hle : p.settings.minProbability ≤ q'.probability := of_decide_eq_true hleast
      obtain ⟨state, message, rfl⟩ := h.successors
      obtain ⟨e, he, hprobability⟩ := Parse.exists_probability_eq_of_mem_successors hq'
      rw [hprobability] at hle
      cases e with
      | predict rule parts => exact absurd hshare (not_lt.mpr hle)
      | scan leaf c tokens => exact ⟨hle, leaf, c, tokens, he⟩
    · next hshare =>
      refine (List.filter_eq_self.mpr fun q' hq' => decide_eq_true ?_).symm
      exact (not_lt.mp hshare).trans (h.share_le hq hq')

end Prunes

end step

/-! ### Runs -/

/-- No parse on the beam of a run has a negative probability. -/
theorem probability_nonneg_of_mem_beam (p : BeamParser Rat) (words : List String) (start : String)
    (ts : Nat → DerivationTree) (n : Nat) {q : Parse Rat}
    (hq : q ∈ ((p.start words start).1.after ts n).beam.toList) : 0 ≤ q.probability := by
  obtain ⟨lines, hlines⟩ := isBestFirst_start p words start ts
  refine probability_nonneg hlines.advances (fun q hq => ?_) ((hlines.waiting n).mem_iff.mp hq)
  rw [hlines.start, BeamParser.start] at hq
  simp only at hq
  split at hq
  · exact absurd hq List.not_mem_nil
  · rw [List.mem_singleton.mp hq]
    exact zero_le_one

/-- Whatever the lexicon, the words and the settings, and whatever is done with the tree between the
steps: of the continuations of a parse that a step takes, either all are put on the beam or none,
and nothing too improbable is. They are exactly the ones that are probable enough unless the parse
loses a word: an expansion reads a word and keeps the probability, which is great enough, but the
share that a prediction would have is not. -/
theorem exists_prunes_of_takes (p : BeamParser Rat) (words : List String) (start : String)
    (ts : Nat → DerivationTree) (n : Nat) {q : Parse Rat}
    (hq : ((p.start words start).1.after ts n).Takes (ts n) q) :
    let p' := (p.start words start).1.after ts n
    ∃ continuations pushed, p'.Prunes (ts n) q continuations pushed ∧
      (∀ q' ∈ pushed, p'.settings.minProbability ≤ q'.probability) ∧
      (pushed = continuations.filter (p'.settings.minProbability ≤ ·.probability) ↔
        ¬q.LosesWord p'.lexicon p'.settings.minProbability) := by
  intro p'
  obtain ⟨continuations, pushed, hprunes⟩ := exists_prunes hq
  obtain ⟨rest, hpop, -⟩ := hprunes.beam
  have hnonneg : 0 ≤ q.probability :=
    probability_nonneg_of_mem_beam p words start ts n (StableQueue.mem_toList_of_pop? hpop)
  exact ⟨continuations, pushed, hprunes, fun _ => hprunes.le_of_mem_pushed hnonneg,
    hprunes.pushed_eq_filter_iff hnonneg⟩

/-- Two words of one category, one of which is silent. -/
def homophoneEntries : List (String × List Feature) :=
  [("a", [.categorial "c"]), (epsilon, [.categorial "c"])]

/-- A run over the word with a bound between the shares of the two words and the probability that
they keep. -/
def homophoneRun : BeamParser Rat :=
  (({ lexicon := .ofEntries homophoneEntries, settings := { minProbability := 3 / 5 } } :
    BeamParser Rat).start ["a"] "c").1

/-- The first step of this run drops two continuations whose probability is one. -/
theorem exists_prunes_homophones : ∃ q, homophoneRun.Takes {} q ∧
    ∃ continuations pushed, homophoneRun.Prunes {} q continuations pushed ∧
      continuations.map (·.probability) = [1, 1] ∧ pushed = [] ∧
      pushed ≠ continuations.filter (homophoneRun.settings.minProbability ≤ ·.probability) := by
  have hdiscarded : (homophoneRun.step {}).2.2 = .discarded ⟨0⟩ := by decide +kernel
  obtain ⟨q, hq⟩ : ∃ q, homophoneRun.Takes {} q := by
    rcases homophoneRun.takes_or_finished {} with hq | ⟨status, hstatus⟩
    · exact hq
    · exact absurd (hdiscarded.symm.trans hstatus) (by simp)
  obtain ⟨continuations, pushed, hprunes, -, hiff⟩ : ∃ continuations pushed,
      homophoneRun.Prunes {} q continuations pushed ∧ _ ∧
        (pushed = continuations.filter (homophoneRun.settings.minProbability ≤ ·.probability) ↔
          ¬q.LosesWord homophoneRun.lexicon homophoneRun.settings.minProbability) :=
    exists_prunes_of_takes
      { lexicon := .ofEntries homophoneEntries, settings := { minProbability := 3 / 5 } }
      ["a"] "c" (fun _ => {}) 0 hq
  have halternatives : q.alternatives homophoneRun.lexicon =
      [.scan 1 (startCategory 0 "c") ["a"], .scan 2 (startCategory 0 "c") []] := by
    have hpeek : homophoneRun.peek?.map (Parse.alternatives homophoneRun.lexicon) =
        some [.scan 1 (startCategory 0 "c") ["a"], .scan 2 (startCategory 0 "c") []] := by
      decide +kernel
    rw [hq.1] at hpeek
    exact Option.some.inj hpeek
  have hprobability : q.probability = 1 := by
    have hpeek : homophoneRun.peek?.map (·.probability) = some 1 := by decide +kernel
    rw [hq.1] at hpeek
    exact Option.some.inj hpeek
  have hleast : homophoneRun.settings.minProbability = 3 / 5 := rfl
  have hshare : q.share homophoneRun.lexicon < homophoneRun.settings.minProbability := by
    rw [Parse.share, halternatives, hprobability, hleast]
    norm_num
  refine ⟨q, hq, continuations, pushed, hprunes, ?_, ?_,
    fun hfilter => hiff.mp hfilter ⟨hshare, ?_, ?_⟩⟩
  · have hmap := hprunes.probability
    rw [halternatives, hprobability] at hmap
    exact hmap
  · rw [hprunes.pushed_eq, if_pos hshare]
  · rw [hprobability, hleast]
    norm_num
  · exact ⟨1, startCategory 0 "c", ["a"], halternatives ▸ List.mem_cons_self ..⟩

end BeamParser
end MinimalistGrammar
