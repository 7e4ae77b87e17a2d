import MinimalistGrammar.Proofs.Beam.Ownership
import MinimalistGrammar.Proofs.Derivation.Logged

/-!
# What the beam parser logs

A step of the beam parser logs one parse at most. Its tree is built apart from all trees that there
were. The last step may remove states instead.

## Main results

* `BeamParser.separate_stepOf` — the tree of a parse is built apart.
* `BeamParser.step_logs` — what a step logs.
-/

namespace MinimalistGrammar
namespace BeamParser

variable {π : Type} {t : DerivationTree} {s s' : Store}

/-! ### Building apart -/

theorem separate_groupOf (h : s.Separate s') (groups : Dict String GroupId) (name : String)
    (members : List ConstituentId) (color : Color) :
    s.Separate (groupOf s' groups name members color).1 := by
  unfold groupOf
  split
  · exact h
  · exact h.addGroup _

theorem issued_groupOf {l : Link} (h : s.Issued l) (groups : Dict String GroupId) (name : String)
    (members : List ConstituentId) (color : Color) :
    (groupOf s groups name members color).1.Issued l := by
  unfold groupOf
  split
  · exact h
  · cases l <;> exact h

/-- The tree of a parse is built apart from all trees that there were. -/
theorem separate_stepOf (hs : s.IsNumbered) (q : Parse π) : s.Separate (stepOf s q).1 ∧
    ∀ c ∈ (stepOf s q).2.roots, (stepOf s q).1.Issued (.constituent c) := by
  unfold stepOf SurfaceTree.build
  cases RecordTree.ofRecords q.records with
  | none => exact ⟨.refl hs, fun c hc => absurd hc List.not_mem_nil⟩
  | some tree =>
    have halone := Store.standsAlone_build hs .root tree
    refine ⟨separate_groupOf (separate_groupOf halone.separate ..) .., fun c hc => ?_⟩
    rw [List.mem_singleton.mp hc]
    exact issued_groupOf (issued_groupOf halone.root.2 ..) ..

/-! ### Logging a parse -/

/-- One parse is logged. -/
theorem logs_logParse (ht : t.IsClosed) (p : BeamParser π) (q : Parse π) :
    ∃ e, t.Logs (p.logParse q t).2.1 [e] ∧
      (p.logParse q t).1.report.shown.toList = p.report.shown.toList ++ [e] := by
  obtain ⟨hseparate, hroots⟩ := separate_stepOf ht.store.toIsNumbered q
  refine ⟨t.newEntry (stepOf t.store q).1 (stepOf t.store q).2 q.previous, ?_, ?_⟩
  · exact (DerivationTree.Logs.refl ht).addStep hseparate hroots fun e he => absurd he (by simp)
  · have hpresent : (p.logParse q t).1.report = p.report.present (p.logParse q t).2.1 := rfl
    rw [hpresent, logParse, DerivationTree.shown_present_addStep, Array.toList_push]

/-! ### Nothing else is shown -/

theorem shown_announce (p : BeamParser π) (status : ParseStatus) :
    (p.announce status).report.shown = p.report.shown := by
  have hregret (p : BeamParser π) : p.regret.report.shown = p.report.shown := by
    unfold regret
    split
    · rfl
    · rfl
  cases status with
  | found | noParse => rfl
  | capReached | cancelled => exact hregret _

theorem finish_cases (p : BeamParser π) (status : ParseStatus) (t : DerivationTree) :
    (p.finish status t).1.report.shown = p.report.shown ∧
      ((p.finish status t).2.1 = t ∨ ∃ ids, (p.finish status t).2.1 = (t.removeStates ids).1) := by
  rw [finish]
  simp only
  split
  · exact ⟨p.shown_announce status, Or.inr ⟨_, rfl⟩⟩
  · exact ⟨p.shown_announce status, Or.inl rfl⟩

variable [Probability π]

theorem shown_foldl_pushExpansion (q : Parse π) (share : π) (es : List Expansion)
    (p : BeamParser π) : (es.foldl (pushExpansion q share) p).report.shown = p.report.shown := by
  induction es generalizing p with
  | nil => rfl
  | cons e es ih => exact ih (pushExpansion q share p e)

theorem shown_expand (p : BeamParser π) (q : Parse π) (id : StateId) :
    (p.expand q id).1.report.shown = p.report.shown := by
  have hcontinues := p.continues_expand q id
  generalize p.expand q id = r at hcontinues ⊢
  cases hcontinues with
  | unpredicted | unmatched | discarded => rfl
  | pushed => exact shown_foldl_pushExpansion ..

/-- A parse that was taken off the beam is logged. -/
theorem logs_advance (ht : t.IsClosed) (p : BeamParser π) (q : Parse π) :
    ∃ e, t.Logs (p.advance q t).2.1 [e] ∧
      (p.advance q t).1.report.shown.toList = p.report.shown.toList ++ [e] := by
  obtain ⟨e, hlogs, hshown⟩ := logs_logParse ht p q
  refine ⟨e, ?_⟩
  rcases p.advance_cases q t with ⟨-, text, heq⟩ | ⟨-, heq⟩ <;> rw [heq]
  · exact ⟨hlogs, hshown⟩
  · refine ⟨hlogs, ?_⟩
    rw [shown_expand, hshown]

/-- A step logs one parse, or none, or it ends the run and removes some states. -/
theorem step_logs (ht : t.IsClosed) (p : BeamParser π) :
    (∃ es, t.Logs (p.step t).2.1 es ∧ (p.step t).1.report.since p.report = es ∧ es.length ≤ 1) ∨
      ∃ ids, (p.step t).2.1 = (t.removeStates ids).1 ∧ (p.step t).1.report.since p.report = [] := by
  have hnone {r : Report} (hr : r.shown = p.report.shown) : r.since p.report = [] :=
    Report.since_eq (by rw [hr, List.append_nil])
  rcases p.step_cases t with ⟨status, -, heq⟩ | ⟨-, report, hreport,
    ⟨status, heq, -⟩ | ⟨q, beam, -, heq⟩⟩
  · rw [heq]
    exact Or.inl ⟨[], .refl ht, hnone rfl, Nat.zero_le _⟩
  · obtain ⟨hshown, htree | ⟨ids, htree⟩⟩ := finish_cases { p with report } status t
    · rw [heq, htree]
      exact Or.inl ⟨[], .refl ht, hnone (hshown.trans hreport), Nat.zero_le _⟩
    · rw [heq, htree]
      exact Or.inr ⟨ids, rfl, hnone (hshown.trans hreport)⟩
  · obtain ⟨e, hlogs, hshown⟩ := logs_advance ht { p with report, beam, steps := p.steps + 1 } q
    rw [heq]
    refine Or.inl ⟨[e], hlogs, Report.since_eq ?_, Nat.le_refl _⟩
    rw [hshown, hreport]

end BeamParser
end MinimalistGrammar
