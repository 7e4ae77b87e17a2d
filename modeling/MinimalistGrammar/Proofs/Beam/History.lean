import MinimalistGrammar.Proofs.Beam.BestFirst
import MinimalistGrammar.Proofs.Beam.Results
import MinimalistGrammar.Proofs.Grammar.ByRule

/-!
# How a parse has come about

Every parse of a run comes from the prediction of the start category by some expansions, each of
them of the prediction that was the first of those open. So what holds at the start and is kept by
every rule holds of all parses that are ever on the beam or among the results.

## Main definitions

* `Parse.ComesAbout` — the expansions by which a parse comes from another one.

## Main results

* `Parse.ComesAbout.isCoherent` — what comes from a coherent parse is coherent.
* `BeamParser.exists_comesAbout_of_mem_held` — how the parses of a run have come about.
-/

namespace MinimalistGrammar

variable {π : Type} {lex : Lexicon} {es : List Expansion}

namespace Parse

variable {first q q' : Parse π}

/-- A parse comes from another one by some expansions, each of the prediction that was the first of
those open. When a parse is logged, it gets a state. -/
inductive ComesAbout (lex : Lexicon) (first : Parse π) : List Expansion → Parse π → Prop
  | start : ComesAbout lex first [] first
  | log {es : List Expansion} {q : Parse π} (h : ComesAbout lex first es q)
      (state : Option StateId) :
      ComesAbout lex first es { q with state }
  | expand {es : List Expansion} {q : Parse π} {c : Category} {queue : StableQueue Address Category}
      {e : Expansion} (h : ComesAbout lex first es q) (hpop : q.queue.pop? = some (c, queue))
      (he : e ∈ c.expansions lex q.input) (share : π) (message : String) :
      ComesAbout lex first (es ++ [e]) ({ q with queue }.extend lex e share message)

/-- What comes from a coherent parse is coherent. -/
theorem ComesAbout.isCoherent (hlex : lex.WellFormed) (hfirst : first.IsCoherent lex)
    (h : ComesAbout lex first es q) : q.IsCoherent lex := by
  induction h with
  | start => exact hfirst
  | log _ state ih => exact ⟨ih.order, ih.coherent, ih.fillable⟩
  | expand _ hpop he share message ih => exact ih.extend hlex hpop he share message

theorem ComesAbout.trans {es' : List Expansion} (h : first.ComesAbout lex es q)
    (h' : q.ComesAbout lex es' q') : first.ComesAbout lex (es ++ es') q' := by
  induction h' with
  | start => rwa [List.append_nil]
  | log _ state ih => exact ih.log state
  | expand _ hpop he share message ih =>
    rw [← List.append_assoc]
    exact ih.expand hpop he share message

/-- The records of a parse are those of the first one and those that the expansions have added. -/
theorem ComesAbout.records_eq (h : ComesAbout lex first es q) :
    q.records = first.records ++ es.flatMap (·.records lex) := by
  induction h with
  | start => exact (List.append_nil _).symm
  | log _ state ih => exact ih
  | @expand es q c queue e _ hpop he share message ih =>
    rw [records_extend, List.flatMap_append, List.flatMap_singleton, ← List.append_assoc, ← ih]

end Parse

namespace BeamParser

variable [Probability π] {p : BeamParser π} {q q' : Parse π} {t : DerivationTree}

/-- Expanding a parse adds nothing but what comes from it. -/
theorem mem_held_expand (q : Parse π) (id : StateId) (h : q' ∈ (p.expand q id).1.held) :
    q' ∈ p.held ∨ ∃ es, q.ComesAbout p.lexicon es q' := by
  have hcontinues := p.continues_expand q id
  generalize p.expand q id = r at hcontinues h
  cases hcontinues with
  | unpredicted | unmatched | discarded => exact Or.inl h
  | @pushed c queue hpop =>
    obtain ⟨-, hresults, -, hbeam⟩ := foldl_pushExpansion { q with queue }
      (Probability.share q.probability (c.expansions p.lexicon q.input).length)
      (c.expansions p.lexicon q.input) p
    rcases List.mem_append.mp h with h | h
    · rcases List.mem_append.mp (hbeam.mem_iff.mp h) with h | h
      · obtain ⟨e, he, rfl⟩ := List.mem_map.mp h
        exact Or.inr ⟨[] ++ [e], .expand .start hpop he _ _⟩
      · exact Or.inl (List.mem_append_left _ h)
    · exact Or.inl (List.mem_append_right _ (hresults ▸ h))

/-- Taking a parse adds nothing but what comes from it. -/
theorem mem_held_advance (q : Parse π) (h : q' ∈ (p.advance q t).1.held) :
    q' ∈ p.held ∨ ∃ es, q.ComesAbout p.lexicon es q' := by
  rcases p.advance_cases q t with ⟨-, text, heq⟩ | ⟨-, heq⟩ <;> rw [heq] at h
  · rcases List.mem_append.mp h with h | h
    · exact Or.inl (List.mem_append_left _ h)
    · rcases List.mem_append.mp h with h | h
      · exact Or.inl (List.mem_append_right _ h)
      · exact Or.inr ⟨[], List.mem_singleton.mp h ▸ .log .start _⟩
  · rcases mem_held_expand (p := (p.logParse q t).1) _ _ h with h | ⟨es, h⟩
    · exact Or.inl h
    · exact Or.inr ⟨[] ++ es, (Parse.ComesAbout.log .start _).trans h⟩

/-- What is held after a step was held before, or comes from something that was. -/
theorem mem_held_step (h : q' ∈ (p.step t).1.held) :
    ∃ q ∈ p.held, ∃ es, q.ComesAbout p.lexicon es q' := by
  rcases step_cases p t with ⟨status, -, heq⟩ |
    ⟨-, report, -, ⟨status, heq, -⟩ | ⟨q, beam, hpop, heq⟩⟩
  · rw [heq] at h
    exact ⟨q', h, [], .start⟩
  · obtain ⟨-, hbeam, hresults, -⟩ := finish_eq { p with report } status t
    rw [heq, held, hbeam, hresults] at h
    exact ⟨q', h, [], .start⟩
  · have hheld : p.held = q :: (beam.toList ++ p.results) := by
      rw [held, StableQueue.toList_eq_of_pop? hpop]
      rfl
    rw [heq] at h
    rcases mem_held_advance (p := { p with report, beam, steps := p.steps + 1 }) q h with h |
      ⟨es, h⟩
    · exact ⟨q', hheld ▸ List.mem_cons_of_mem _ h, [], .start⟩
    · exact ⟨q, hheld ▸ List.mem_cons_self .., es, h⟩

theorem lexicon_advance (p : BeamParser π) (q : Parse π) (t : DerivationTree) :
    (p.advance q t).1.lexicon = p.lexicon := by
  rcases p.advance_cases q t with ⟨-, text, heq⟩ | ⟨-, heq⟩ <;> rw [heq]
  · rfl
  · have hcontinues := (p.logParse q t).1.continues_expand
      { q with state := some (p.logParse q t).2.2 } (p.logParse q t).2.2
    generalize (p.logParse q t).1.expand _ _ = r at hcontinues ⊢
    cases hcontinues with
    | unpredicted | unmatched | discarded => rfl
    | pushed => exact (foldl_pushExpansion _ _ _ _).1

theorem lexicon_step (p : BeamParser π) (t : DerivationTree) :
    (p.step t).1.lexicon = p.lexicon := by
  rcases step_cases p t with ⟨status, -, heq⟩ | ⟨-, report, -, ⟨status, heq, -⟩ | ⟨q, beam, -, heq⟩⟩
  · rw [heq]
  · rw [heq, (finish_eq { p with report } status t).1]
  · rw [heq, lexicon_advance]

/-- What is held after some steps comes from something that was held at first. -/
theorem mem_held_after (p : BeamParser π) (ts : Nat → DerivationTree) (n : Nat)
    (h : q' ∈ (p.after ts n).held) :
    (p.after ts n).lexicon = p.lexicon ∧ ∃ q ∈ p.held, ∃ es, q.ComesAbout p.lexicon es q' := by
  induction n generalizing q' with
  | zero => exact ⟨rfl, q', h, [], .start⟩
  | succ n ih =>
    obtain ⟨q₁, hq₁, es', h⟩ := mem_held_step h
    obtain ⟨hlexicon, q, hq, es, hfrom⟩ := ih hq₁
    rw [hlexicon] at h
    exact ⟨(lexicon_step ..).trans hlexicon, q, hq, es ++ es', hfrom.trans h⟩

/-- Every parse that is on the beam or among the results after some steps comes from the prediction
of the start category over the whole input. -/
theorem exists_comesAbout_of_mem_held (p : BeamParser π) (words : List String) (start : String)
    (ts : Nat → DerivationTree) (n : Nat) (hq : q ∈ ((p.start words start).1.after ts n).held) :
    ∃ root es, p.lexicon.category? start = some root ∧
      (Parse.initial words (startCategory root start)).ComesAbout p.lexicon es q := by
  obtain ⟨-, q₀, hq₀, es, hfrom⟩ := mem_held_after _ ts n hq
  rw [BeamParser.start] at hq₀ hfrom
  simp only at hq₀ hfrom
  split at hq₀
  · exact absurd hq₀ List.not_mem_nil
  · next root hroot =>
    obtain rfl := List.mem_singleton.mp hq₀
    rw [hroot] at hfrom
    exact ⟨root, es, hroot, hfrom⟩

end BeamParser
end MinimalistGrammar
