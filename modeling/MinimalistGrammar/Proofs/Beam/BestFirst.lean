import Mathlib.Algebra.Order.Field.Basic
import Mathlib.Algebra.Order.Field.Rat
import Mathlib.Data.List.Basic
import Mathlib.Data.List.Induction
import Mathlib.Data.List.InsertIdx
import Mathlib.Logic.Relation
import MinimalistGrammar.Proofs.Beam.Run

/-!
# Best first

The parses on the beam are told apart from a line in which they stand in the order of their arrival.
Each step takes the most probable parse out of this line; of equally probable ones the one that goes
on furthest to the left, and of these the one that has come first. What it becomes goes to the end
of the line and is never more probable. So the parses are taken in the order of their probabilities.

Probabilities are exact fractions here: when doubles are divided, a share may be rounded up.

## Main definitions

* `StableQueue.Serves` — a queue serves a line of entries in order of arrival.
* `Parse.successors` — what the expansions make of a parse, in the order in which they are pushed.
* `BeamParser.after` — a parser after some steps.
* `BeamParser.IsBestFirst` — a run takes its parses best first.

## Main results

* `StableQueue.Serves.exists_isNext` — what leaves a queue is the first of those with the least key.
* `BeamParser.isBestFirst_start` — every run takes its parses best first.
-/

namespace MinimalistGrammar

/-! ### Queues and lines -/

namespace StableQueue

variable {κ α : Type} [Ord κ] {q q' : StableQueue κ α} {queued : List (κ × α)} {e : κ × α} {i : Nat}

/-- The entries of a line, which come in order of arrival, in the order in which they leave. -/
def sortLine (queued : List (κ × α)) : List (κ × α) := queued.foldl (fun l e => placeEntry e l) []

theorem sortLine_concat (queued : List (κ × α)) (e : κ × α) :
    sortLine (queued ++ [e]) = placeEntry e (sortLine queued) :=
  List.foldl_concat ..

theorem sortLine_perm (queued : List (κ × α)) : (sortLine queued).Perm queued := by
  induction queued using List.reverseRecOn with
  | nil => exact List.Perm.refl _
  | append_singleton queued e ih =>
    rw [sortLine_concat]
    exact (placeEntry_perm ..).trans ((ih.cons e).trans (List.perm_append_singleton e queued).symm)

/-- The queue has the entries of a line. -/
def Serves (q : StableQueue κ α) (queued : List (κ × α)) : Prop := q.entries = sortLine queued

/-- The entry at a place of a line is the next to leave: no key is less than its key, and the keys
before it are greater. -/
structure IsNext (queued : List (κ × α)) (i : Nat) (e : κ × α) : Prop where
  here : queued[i]? = some e
  least {f : κ × α} (hf : f ∈ queued) : (compare e.1 f.1).isLE
  first {j : Nat} {f : κ × α} (hj : j < i) (hf : queued[j]? = some f) : compare e.1 f.1 = .lt

/-- The last entry of a line is next if its key is less than all others. -/
theorem isNext_concat_length (h : ∀ f ∈ queued, compare e.1 f.1 = .lt)
    (hself : (compare e.1 e.1).isLE) :
    IsNext (queued ++ [e]) queued.length e where
  here := List.getElem?_concat_length
  least hf := by
    rcases List.mem_append.mp hf with hf | hf
    · exact Ordering.isLE_of_eq_lt (h _ hf)
    · rw [List.mem_singleton.mp hf]
      exact hself
  first hj hf := by
    rw [List.getElem?_append_left hj] at hf
    exact h _ (List.mem_of_getElem? hf)

/-- An entry stays next when one with a key that is not less comes. -/
theorem IsNext.concat (h : IsNext queued i e) {f : κ × α} (hf : (compare e.1 f.1).isLE) :
    IsNext (queued ++ [f]) i e := by
  have hi : i < queued.length := (List.getElem?_eq_some_iff.mp h.here).1
  refine ⟨?_, fun {g} hg => ?_, fun {j g} hj hg => ?_⟩
  · rw [List.getElem?_append_left hi, h.here]
  · rcases List.mem_append.mp hg with hg | hg
    · exact h.least hg
    · rw [List.mem_singleton.mp hg]
      exact hf
  · rw [List.getElem?_append_left (Nat.lt_trans hj hi)] at hg
    exact h.first hj hg

/-- The first of the sorted entries is next in the line, and the others are those of the line
without it. -/
theorem exists_isNext_of_sortLine [Std.TransOrd κ] {rest : List (κ × α)}
    (h : sortLine queued = e :: rest) :
    ∃ i, IsNext queued i e ∧ rest = sortLine (queued.eraseIdx i) := by
  -- by the arrivals, the last one first: it comes before all others or does not change what is next
  induction queued using List.reverseRecOn generalizing e rest with
  | nil => exact absurd h (by simp [sortLine])
  | append_singleton queued f ih =>
    rw [sortLine_concat] at h
    cases hsorted : sortLine queued with
    | nil =>
      have hnil : queued = [] := (hsorted ▸ sortLine_perm queued).nil_eq.symm
      rw [hsorted, placeEntry_nil] at h
      obtain ⟨rfl, rfl⟩ := List.cons.inj h
      subst hnil
      exact ⟨0, isNext_concat_length (fun f hf => absurd hf List.not_mem_nil) (by simp), rfl⟩
    | cons g others =>
      obtain ⟨i, hnext, hothers⟩ := ih hsorted
      have hi : i < queued.length := (List.getElem?_eq_some_iff.mp hnext.here).1
      rw [hsorted, placeEntry] at h
      split at h
      · next hlt =>
        obtain ⟨rfl, rfl⟩ := List.cons.inj h
        refine ⟨queued.length, isNext_concat_length (fun x hx => ?_) (by simp), ?_⟩
        · exact Std.TransCmp.lt_of_lt_of_isLE hlt (hnext.least hx)
        · rw [List.eraseIdx_append_of_length_le (Nat.le_refl _), Nat.sub_self,
            List.eraseIdx_cons_zero, List.append_nil, hsorted]
      · next hnot =>
        obtain ⟨rfl, rfl⟩ := List.cons.inj h
        refine ⟨i, hnext.concat (Std.OrientedCmp.isLE_of_isGE (Ordering.isGE_iff_ne_lt.mpr hnot)),
          ?_⟩
        rw [List.eraseIdx_append_of_lt_length hi, sortLine_concat, hothers]

theorem serves_empty : ({} : StableQueue κ α).Serves [] := rfl

theorem Serves.push (h : q.Serves queued) (key : κ) (item : α) :
    (q.push key item).Serves (queued ++ [(key, item)]) := by
  rw [Serves, entries_push, sortLine_concat, show q.entries = sortLine queued from h]

theorem Serves.toList_perm (h : q.Serves queued) : q.toList.Perm (queued.map (·.2)) := by
  rw [toList, show q.entries = sortLine queued from h]
  exact (sortLine_perm queued).map _

/-- What leaves a queue is next in its line. -/
theorem Serves.exists_isNext [Std.TransOrd κ] (h : q.Serves queued) {item : α}
    (hpop : q.pop? = some (item, q')) :
    ∃ i key, IsNext queued i (key, item) ∧ q'.Serves (queued.eraseIdx i) := by
  rw [pop?] at hpop
  split at hpop
  · exact absurd hpop (by simp)
  · next e rest hentries =>
    obtain ⟨rfl, rfl⟩ := Prod.mk.inj (Option.some.inj hpop)
    obtain ⟨i, hnext, hrest⟩ := exists_isNext_of_sortLine (h.symm.trans hentries)
    exact ⟨i, e.1, hnext, hrest⟩

omit [Ord κ] in
theorem peek?_of_pop? {item : α} (h : q.pop? = some (item, q')) : q.peek? = some item := by
  rw [pop?] at h
  split at h
  · exact absurd h (by simp)
  · next e rest hentries =>
    rw [peek?, hentries, List.head?_cons, Option.map_some]
    exact congrArg some (Prod.mk.inj (Option.some.inj h)).1

end StableQueue

/-! ### Keys with exact fractions -/

namespace BeamKey

variable {k l : BeamKey Rat}

theorem compare_def (k l : BeamKey Rat) :
    compare k l = (compare l.probability k.probability).then (compare k.index l.index) := by
  rw [LinearOrder.compare_eq_compareOfLessAndEq l.probability k.probability]
  rfl

/-- A key is not after another one if its probability is greater, or the same and its place is not
further to the right. -/
theorem isLE_compare_iff : (compare k l).isLE = true ↔ l.probability < k.probability ∨
    l.probability = k.probability ∧ (compare k.index l.index).isLE = true := by
  rw [compare_def, Ordering.isLE_then_iff_or, compare_lt_iff_lt, compare_eq_iff_eq]

theorem compare_eq_lt_iff : compare k l = .lt ↔ l.probability < k.probability ∨
    l.probability = k.probability ∧ compare k.index l.index = .lt := by
  rw [compare_def, Ordering.then_eq_lt, compare_lt_iff_lt, compare_eq_iff_eq]

instance : Std.TransOrd (BeamKey Rat) where
  eq_swap {k l} := by
    rw [compare_def, compare_def, Ordering.swap_then, ← Std.OrientedCmp.eq_swap,
      ← Std.OrientedCmp.eq_swap]
  isLE_trans {k l m} hkl hlm := by
    rw [isLE_compare_iff] at hkl hlm ⊢
    rcases hkl with hkl | ⟨hkl, hkl'⟩ <;> rcases hlm with hlm | ⟨hlm, hlm'⟩
    · exact Or.inl (hlm.trans hkl)
    · exact Or.inl (hlm ▸ hkl)
    · exact Or.inl (hkl ▸ hlm)
    · exact Or.inr ⟨hlm.trans hkl, Std.TransCmp.isLE_trans hkl' hlm'⟩

end BeamKey

/-! ### What a parse becomes -/

namespace Parse

variable {π : Type} [Probability π]

/-- What the expansions of the first open prediction make of a parse, in the order in which they are
pushed. -/
def successors (lex : Lexicon) (q : Parse π) (message : Expansion → String) : List (Parse π) :=
  q.queue.pop?.elim [] fun (c, queue) =>
    let expansions := c.expansions lex q.input
    let share := Probability.share q.probability expansions.length
    expansions.map fun e => { q with queue }.extend lex e share (message e)

/-- The second parse is one of those that the first one becomes, once this is logged as some
state. -/
def Precedes (lex : Lexicon) (q q' : Parse π) : Prop :=
  ∃ state message, q' ∈ ({ q with state } : Parse π).successors lex message

/-- A parse is not more probable than one that becomes it, and its probability is not negative. -/
theorem Precedes.probability_le {lex : Lexicon} {q q' : Parse Rat} (h : q.Precedes lex q')
    (hq : 0 ≤ q.probability) : 0 ≤ q'.probability ∧ q'.probability ≤ q.probability := by
  obtain ⟨state, message, h⟩ := h
  unfold successors at h
  cases hpop : ({ q with state } : Parse Rat).queue.pop? with
  | none => simp [hpop] at h
  | some e =>
    obtain ⟨c, queue⟩ := e
    rw [hpop] at h
    obtain ⟨expansion, -, rfl⟩ := List.mem_map.mp h
    cases expansion with
    | scan => exact ⟨hq, le_refl _⟩
    | predict rule parts =>
      have hn : (0 : Rat) ≤ ((c.expansions lex q.input).length : Rat) := Nat.cast_nonneg _
      refine ⟨div_nonneg hq hn, ?_⟩
      show q.probability / ((c.expansions lex q.input).length : Rat) ≤ q.probability
      rcases Nat.eq_zero_or_pos (c.expansions lex q.input).length with hzero | hpos
      · rw [hzero, Nat.cast_zero, div_zero]
        exact hq
      · exact div_le_self hq (Nat.one_le_cast.mpr hpos)

/-- The same of a parse and those that come from it. -/
theorem probability_le_of_transGen {lex : Lexicon} {q q' : Parse Rat}
    (h : Relation.TransGen (Precedes lex) q q') (hq : 0 ≤ q.probability) :
    0 ≤ q'.probability ∧ q'.probability ≤ q.probability := by
  induction h with
  | single h => exact h.probability_le hq
  | tail _ h ih =>
    obtain ⟨hnonneg, hle⟩ := h.probability_le ih.1
    exact ⟨hnonneg, hle.trans ih.2⟩

/-- The parse at a place of a line is the best one: none is more probable, of the equally probable
ones none goes on further to the left, and those that came before it go on further to the right. -/
structure IsBest (q : Parse Rat) (queued : List (Parse Rat)) (i : Nat) : Prop where
  here : queued[i]? = some q
  probable {q' : Parse Rat} (h : q' ∈ queued) : q'.probability ≤ q.probability
  leftmost {q' : Parse Rat} (h : q' ∈ queued) (heq : q'.probability = q.probability) :
    (compare q.index q'.index).isLE = true
  earliest {j : Nat} {q' : Parse Rat} (hj : j < i) (h : queued[j]? = some q')
    (heq : q'.probability = q.probability) : compare q.index q'.index = .lt

/-- The entry that a parse has on the beam. -/
def entry (q : Parse π) : BeamKey π × Parse π := (q.key, q)

theorem isBest_of_isNext {queued : List (Parse Rat)} {i : Nat} {e : BeamKey Rat × Parse Rat}
    (h : StableQueue.IsNext (queued.map entry) i e) : e.2.IsBest queued i ∧ e = entry e.2 := by
  obtain ⟨q, hq, rfl⟩ : ∃ q, queued[i]? = some q ∧ entry q = e := by
    have hhere := h.here
    rw [List.getElem?_map] at hhere
    exact Option.map_eq_some_iff.mp hhere
  have hleast {q' : Parse Rat} (hq' : q' ∈ queued) :=
    BeamKey.isLE_compare_iff.mp (h.least (List.mem_map_of_mem (f := entry) hq'))
  refine ⟨⟨hq, fun hq' => ?_, fun hq' heq => ?_, fun hj hq' heq => ?_⟩, rfl⟩
  · exact (hleast hq').elim le_of_lt fun hle => le_of_eq hle.1
  · exact (hleast hq').elim (fun hlt => absurd heq (ne_of_lt hlt)) (·.2)
  · have hfirst := h.first hj (by rw [List.getElem?_map, hq', Option.map_some])
    exact (BeamKey.compare_eq_lt_iff.mp hfirst).elim (fun hlt => absurd heq (ne_of_lt hlt)) (·.2)

end Parse

/-! ### Steps -/

namespace BeamParser

section step

variable {π : Type} [Probability π] {p : BeamParser π} {t : DerivationTree} {q : Parse π}
  {queued : List (Parse π)}

/-- The parses of a line, in order of arrival, are those on the beam. -/
def Lines (p : BeamParser π) (queued : List (Parse π)) : Prop :=
  p.beam.Serves (queued.map Parse.entry)

/-- The step takes a parse off the beam. -/
def Takes (p : BeamParser π) (t : DerivationTree) (q : Parse π) : Prop :=
  p.peek? = some q ∧ ∀ status, (p.step t).2.2 ≠ .finished status

theorem Lines.push (h : p.Lines queued) (q : Parse π) : (p.push q).Lines (queued ++ [q]) := by
  rw [Lines, List.map_append]
  exact StableQueue.Serves.push h q.key q

theorem lines_foldl_pushExpansion (h : p.Lines queued) (share : π) (es : List Expansion) :
    ∃ message : Expansion → String, (es.foldl (pushExpansion q share) p).Lines
      (queued ++ es.map fun e => q.extend p.lexicon e share (message e)) := by
  refine ⟨fun e => e.message p.lexicon ++ p.situation q, ?_⟩
  induction es generalizing p queued with
  | nil => simpa using h
  | cons e es ih =>
    have hrest := ih (p := pushExpansion q share p e) (h.push _)
    rw [List.append_assoc] at hrest
    exact hrest

/-- Expanding a parse puts nothing at the end of the line, or what the parse becomes. -/
theorem lines_expand (h : p.Lines queued) (q : Parse π) (id : StateId) :
    ∃ added message, (p.expand q id).1.Lines (queued ++ added) ∧
      (added = [] ∨ added = q.successors p.lexicon message) := by
  have hnone : ∃ added message, p.Lines (queued ++ added) ∧
      (added = [] ∨ added = q.successors p.lexicon message) :=
    ⟨[], fun _ => "", by rwa [List.append_nil], Or.inl rfl⟩
  have hcontinues := p.continues_expand q id
  generalize p.expand q id = r at hcontinues ⊢
  cases hcontinues with
  | unpredicted | unmatched | discarded => exact hnone
  | @pushed c queue hpop =>
    obtain ⟨message, hlines⟩ := lines_foldl_pushExpansion (q := { q with queue }) h
      (Probability.share q.probability (c.expansions p.lexicon q.input).length)
      (c.expansions p.lexicon q.input)
    refine ⟨_, message, hlines, Or.inr ?_⟩
    rw [Parse.successors, hpop]
    rfl

theorem lines_advance (h : p.Lines queued) (q : Parse π) (t : DerivationTree) :
    ∃ added state message, (p.advance q t).1.Lines (queued ++ added) ∧
      (added = [] ∨ added = ({ q with state } : Parse π).successors p.lexicon message) := by
  rcases p.advance_cases q t with ⟨-, text, heq⟩ | ⟨-, heq⟩ <;> rw [heq]
  · exact ⟨[], none, fun _ => "", by rwa [List.append_nil], Or.inl rfl⟩
  · obtain ⟨added, message, hlines, hadded⟩ := lines_expand (p := (p.logParse q t).1) h
      { q with state := some (p.logParse q t).2.2 } (p.logParse q t).2.2
    exact ⟨added, _, message, hlines, hadded⟩

/-- A parse that is taken is no end of the run. -/
theorem advance_ne_finished (p : BeamParser π) (q : Parse π) (t : DerivationTree)
    (status : ParseStatus) : (p.advance q t).2.2 ≠ .finished status := by
  rcases p.advance_cases q t with ⟨-, text, heq⟩ | ⟨-, heq⟩ <;> rw [heq]
  · simp
  · have hcontinues := (p.logParse q t).1.continues_expand
      { q with state := some (p.logParse q t).2.2 } (p.logParse q t).2.2
    generalize (p.logParse q t).1.expand _ _ = r at hcontinues ⊢
    cases hcontinues <;> simp

/-- A step that takes no parse leaves the line as it is. -/
theorem lines_of_finished (h : p.Lines queued) {status : ParseStatus}
    (hfinished : (p.step t).2.2 = .finished status) : (p.step t).1.Lines queued := by
  rcases step_cases p t with ⟨status, -, heq⟩ | ⟨-, report, -, ⟨status, heq, -⟩ | ⟨q, beam, -, heq⟩⟩
  · rw [heq]
    exact h
  · rw [heq, Lines, (finish_eq { p with report } status t).2.1]
    exact h
  · rw [heq] at hfinished
    exact absurd hfinished (advance_ne_finished _ q t status)

end step

/-- A step takes the best parse out of the line. What this becomes goes to its end. -/
theorem Lines.exists_isBest {p : BeamParser Rat} {t : DerivationTree} {q : Parse Rat}
    {queued : List (Parse Rat)} (h : p.Lines queued) (hq : p.Takes t q) :
    ∃ i added, q.IsBest queued i ∧ (p.step t).1.Lines (queued.eraseIdx i ++ added) ∧
      (added = [] ∨ ∃ state message,
        added = ({ q with state } : Parse Rat).successors p.lexicon message) := by
  obtain ⟨hpeek, hrun⟩ := hq
  rcases step_cases p t with ⟨status, -, heq⟩ |
    ⟨-, report, -, ⟨status, heq, -⟩ | ⟨q', beam, hpop, heq⟩⟩
  · exact absurd (congrArg (·.2.2) heq) (hrun status)
  · exact absurd (congrArg (·.2.2) heq) (hrun status)
  · obtain rfl : q = q' := Option.some.inj (hpeek.symm.trans (StableQueue.peek?_of_pop? hpop))
    obtain ⟨i, key, hnext, hserves⟩ := StableQueue.Serves.exists_isNext h hpop
    rw [List.eraseIdx_map] at hserves
    obtain ⟨added, state, message, hlines, hadded⟩ :=
      lines_advance (p := { p with report, beam, steps := p.steps + 1 }) hserves q t
    rw [heq]
    exact ⟨i, added, (Parse.isBest_of_isNext hnext).1, hlines,
      hadded.imp_right fun hadded => ⟨state, message, hadded⟩⟩

/-! ### Runs -/

/-- The parser after `n` steps. Each step is taken on a tree of its own, as other changes of the
tree may come in between. -/
def after {π : Type} [Probability π] (p : BeamParser π) (ts : Nat → DerivationTree) :
    Nat → BeamParser π
  | 0 => p
  | n + 1 => ((p.after ts n).step (ts n)).1

/-- What a step does to the line in which the parses wait: the best one is taken out of it, and what
this becomes goes to its end. The end of the run leaves it as it is. -/
structure Advances (p : BeamParser Rat) (t : DerivationTree)
    (queued queued' : List (Parse Rat)) : Prop where
  lines : (p.step t).1.Lines queued'
  taken {q : Parse Rat} (h : p.Takes t q) : ∃ i added, q.IsBest queued i ∧
    queued' = queued.eraseIdx i ++ added ∧ (added = [] ∨ ∃ state message,
      added = ({ q with state } : Parse Rat).successors p.lexicon message)
  finished {status : ParseStatus} (h : (p.step t).2.2 = .finished status) : queued' = queued

/-- The steps of a parser take the parses best first. `lines n` are the parses that wait after `n`
steps, in the order of their arrival. -/
structure IsBestFirst (p : BeamParser Rat) (ts : Nat → DerivationTree)
    (lines : Nat → List (Parse Rat)) : Prop where
  start : lines 0 = p.beam.toList
  waiting (n : Nat) : (p.after ts n).beam.toList.Perm (lines n)
  advances (n : Nat) : (p.after ts n).Advances (ts n) (lines n) (lines (n + 1))
  /-- The probabilities of the parses that are taken never increase. -/
  antitone {m n : Nat} {q q' : Parse Rat} (hmn : m ≤ n) (hq : (p.after ts m).Takes (ts m) q)
    (hq' : (p.after ts n).Takes (ts n) q') : q'.probability ≤ q.probability
  /-- No parse that waits is more probable than one that was taken before. -/
  bounded {m n : Nat} {q q' : Parse Rat} (hmn : m < n) (hq : (p.after ts m).Takes (ts m) q)
    (hq' : q' ∈ (p.after ts n).beam.toList) : q'.probability ≤ q.probability
  /-- No parse that comes from one that waits is more probable than this. -/
  descending {n : Nat} {q q' : Parse Rat} (hq : q ∈ (p.after ts n).beam.toList)
    (h : Relation.TransGen (Parse.Precedes p.lexicon) q q') : q'.probability ≤ q.probability

section run

variable {p : BeamParser Rat} {ts : Nat → DerivationTree} {t : DerivationTree}
  {queued queued' : List (Parse Rat)} {lines : Nat → List (Parse Rat)} {q q' : Parse Rat}
  {m n : Nat}

/-- A step takes a parse or ends the run. -/
theorem takes_or_finished (p : BeamParser Rat) (t : DerivationTree) :
    (∃ q, p.Takes t q) ∨ ∃ status, (p.step t).2.2 = .finished status := by
  rcases step_cases p t with ⟨status, -, heq⟩ |
    ⟨-, report, -, ⟨status, heq, -⟩ | ⟨q, beam, hpop, heq⟩⟩
  · exact Or.inr ⟨status, congrArg (·.2.2) heq⟩
  · exact Or.inr ⟨status, congrArg (·.2.2) heq⟩
  · refine Or.inl ⟨q, StableQueue.peek?_of_pop? hpop, fun status => ?_⟩
    rw [heq]
    exact advance_ne_finished _ q t status

theorem Lines.exists_advances (h : p.Lines queued) : ∃ queued', p.Advances t queued queued' := by
  rcases p.takes_or_finished t with ⟨q, hq⟩ | ⟨status, hstatus⟩
  · obtain ⟨i, added, hbest, hlines, hadded⟩ := h.exists_isBest hq
    refine ⟨_, hlines, fun hq' => ?_, fun hstatus => absurd hstatus (hq.2 _)⟩
    rw [Option.some.inj (hq'.1.symm.trans hq.1)]
    exact ⟨i, added, hbest, rfl, hadded⟩
  · exact ⟨queued, lines_of_finished h hstatus, fun hq => absurd hstatus (hq.2 status),
      fun _ => rfl⟩

/-- Who stands in the line after a step has stood in it before, or comes from the parse that was
taken. -/
theorem Advances.mem_cases (h : p.Advances t queued queued') (hq' : q' ∈ queued') :
    q' ∈ queued ∨ ∃ q ∈ queued, q.Precedes p.lexicon q' := by
  rcases p.takes_or_finished t with ⟨q, hq⟩ | ⟨status, hstatus⟩
  · obtain ⟨i, added, hbest, rfl, hadded⟩ := h.taken hq
    rcases List.mem_append.mp hq' with hq' | hq'
    · exact Or.inl (List.mem_of_mem_eraseIdx hq')
    · rcases hadded with rfl | ⟨state, message, rfl⟩
      · exact absurd hq' List.not_mem_nil
      · exact Or.inr ⟨q, List.mem_of_getElem? hbest.here, state, message, hq'⟩
  · rw [h.finished hstatus] at hq'
    exact Or.inl hq'

/-- After every number of steps there is a line, and each step advances it. -/
theorem exists_lines (h : p.Lines queued) (ts : Nat → DerivationTree) :
    ∃ lines : Nat → List (Parse Rat), lines 0 = queued ∧
      ∀ n, (p.after ts n).Advances (ts n) (lines n) (lines (n + 1)) := by
  choose next hnext using fun (n : Nat) (l : { l // (p.after ts n).Lines l }) =>
    l.2.exists_advances (t := ts n)
  let lines (n : Nat) : { l // (p.after ts n).Lines l } :=
    Nat.rec ⟨queued, h⟩ (fun n l => ⟨next n l, (hnext n l).lines⟩) n
  exact ⟨fun n => (lines n).1, rfl, fun n => hnext n (lines n)⟩

/-- No parse in a line is improbable below zero. -/
theorem probability_nonneg (h : ∀ n, (p.after ts n).Advances (ts n) (lines n) (lines (n + 1)))
    (hstart : ∀ q ∈ lines 0, 0 ≤ q.probability) (hq : q ∈ lines n) : 0 ≤ q.probability := by
  induction n generalizing q with
  | zero => exact hstart q hq
  | succ n ih =>
    rcases (h n).mem_cases hq with hq | ⟨q', hq', hprecedes⟩
    · exact ih hq
    · exact (hprecedes.probability_le (ih hq')).1

/-- All that stand in the line are at most as probable as a parse that was taken before. -/
theorem probability_le_of_takes (h : ∀ n, (p.after ts n).Advances (ts n) (lines n) (lines (n + 1)))
    (hstart : ∀ q ∈ lines 0, 0 ≤ q.probability) (hmn : m ≤ n) (hq : (p.after ts m).Takes (ts m) q)
    (hq' : q' ∈ lines n) : q'.probability ≤ q.probability := by
  induction n, hmn using Nat.le_induction generalizing q' with
  | base =>
    obtain ⟨i, added, hbest, -⟩ := (h m).taken hq
    exact hbest.probable hq'
  | succ n hmn ih =>
    rcases (h n).mem_cases hq' with hq' | ⟨q₁, hq₁, hprecedes⟩
    · exact ih hq'
    · exact (hprecedes.probability_le (probability_nonneg h hstart hq₁)).2.trans (ih hq₁)

/-- From a line on of parses that are not improbable below zero, the steps take the parses best
first. -/
theorem Lines.exists_isBestFirst (h : p.Lines queued) (hline : queued = p.beam.toList)
    (hnonneg : ∀ q ∈ queued, 0 ≤ q.probability) (ts : Nat → DerivationTree) :
    ∃ lines, p.IsBestFirst ts lines := by
  obtain ⟨lines, rfl, hadvances⟩ := exists_lines h ts
  have hperm (n : Nat) : (p.after ts n).beam.toList.Perm (lines n) := by
    have hlines : (p.after ts n).Lines (lines n) := by
      cases n with
      | zero => exact h
      | succ n => exact (hadvances n).lines
    have hitems : ((lines n).map Parse.entry).map (·.2) = lines n := by
      rw [List.map_map]
      exact List.map_id _
    exact hitems ▸ hlines.toList_perm
  refine ⟨lines, hline, hperm, hadvances, fun hmn hq hq' => ?_, fun hmn hq hq' => ?_,
    fun hq hfrom => ?_⟩
  · obtain ⟨i, added, hbest, -⟩ := (hadvances _).taken hq'
    exact probability_le_of_takes hadvances hnonneg hmn hq (List.mem_of_getElem? hbest.here)
  · exact probability_le_of_takes hadvances hnonneg (Nat.le_of_lt hmn) hq ((hperm _).mem_iff.mp hq')
  · have hq := probability_nonneg hadvances hnonneg ((hperm _).mem_iff.mp hq)
    exact (Parse.probability_le_of_transGen hfrom hq).2

end run

/-- Whatever the lexicon, the words, the start category and the settings, and whatever is done with
the tree between its steps, a run takes its parses best first. -/
theorem isBestFirst_start (p : BeamParser Rat) (words : List String) (start : String)
    (ts : Nat → DerivationTree) : ∃ lines, (p.start words start).1.IsBestFirst ts lines := by
  have hempty (p : BeamParser Rat) (hp : p.beam = {}) : p.Lines [] := by
    rw [Lines, hp]
    exact StableQueue.serves_empty
  rw [BeamParser.start]
  simp only
  split
  · exact (hempty _ rfl).exists_isBestFirst rfl (fun q hq => absurd hq List.not_mem_nil) ts
  · next root _ =>
    refine ((hempty (p.reset.log .info _) rfl).push _).exists_isBestFirst rfl (fun q hq => ?_) ts
    rw [List.mem_singleton.mp hq]
    exact zero_le_one

end BeamParser
end MinimalistGrammar
