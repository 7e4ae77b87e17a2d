import MinimalistGrammar.Proofs.Beam.Completion
import MinimalistGrammar.Proofs.Grammar.Unambiguous

/-!
# Expanding a parse

When a parse is expanded, the parses that take its place are completed by the same derivations, and
each derivation completes just one of them.

## Main definitions

* `Parse.IsCoherent` — the queue of a parse is in order, and its predictions and records hang
  together.
* `Parse.IsCompletedBy` — a derivation completes a parse.

## Main results

* `Parse.IsCoherent.extend` — an expansion keeps a parse coherent.
* `Parse.isCompletedBy_extend_iff` — what completes a parse after an expansion.
* `Parse.exists_isCompletedBy_extend`, `Parse.pairwise_extend` — a derivation that completes a parse
  completes exactly one of its continuations.
-/

namespace MinimalistGrammar
namespace Parse

variable {π : Type} {lex : Lexicon} {q : Parse π} {c : Category}
  {queue : StableQueue Address Category} {e : Expansion} {d : Derivation}

/-! ### Continuations -/

theorem records_extend (q : Parse π) (e : Expansion) (share : π) (message : String) :
    (q.extend lex e share message).records = q.records ++ e.records lex := by
  cases e <;> rfl

theorem input_extend (q : Parse π) (e : Expansion) (share : π) (message : String) :
    (q.extend lex e share message).input = e.rest q.input := by
  cases e <;> rfl

theorem queue_extend (q : Parse π) (e : Expansion) (share : π) (message : String) :
    (q.extend lex e share message).queue = e.parts.foldl enqueue q.queue := by
  cases e <;> rfl

theorem toList_foldl_enqueue_perm (parts : List Category) (queue : StableQueue Address Category) :
    (parts.foldl enqueue queue).toList.Perm (parts ++ queue.toList) := by
  induction parts generalizing queue with
  | nil => exact List.Perm.refl _
  | cons part parts ih =>
    refine (ih (enqueue queue part)).trans ?_
    refine ((queue.toList_push_perm part.minIndex part).append_left parts).trans ?_
    exact List.perm_middle

/-- The entries of a queue of predictions are in the order of their places. -/
structure IsInOrder (queue : StableQueue Address Category) : Prop where
  sorted : queue.entries.Pairwise fun x y => (compare x.1 y.1).isLE
  keys {x : Address × Category} : x ∈ queue.entries → x.1 = x.2.minIndex

theorem IsInOrder.foldl_enqueue (h : IsInOrder queue) (parts : List Category) :
    IsInOrder (parts.foldl enqueue queue) := by
  induction parts generalizing queue with
  | nil => exact h
  | cons part parts ih =>
    refine ih ⟨pairwise_placeEntry h.sorted, fun hx => ?_⟩
    rcases List.mem_cons.mp ((placeEntry_perm _ _).mem_iff.mp hx) with rfl | hx
    · rfl
    · exact h.keys hx

/-- The first prediction reaches furthest to the left. -/
theorem IsInOrder.isLE_of_mem_slots (h : IsInOrder q.queue)
    (hpop : q.queue.pop? = some (c, queue)) :
    IsInOrder queue ∧
      ∀ o ∈ queue.toList.flatMap Category.slots, (compare c.minIndex o).isLE := by
  rw [StableQueue.pop?] at hpop
  split at hpop
  · exact absurd hpop (by simp)
  · next first rest hentries =>
    rw [Option.some.injEq, Prod.mk.injEq] at hpop
    obtain ⟨rfl, rfl⟩ := hpop
    have hsorted := h.sorted
    rw [hentries] at hsorted
    obtain ⟨hfirst, hrest⟩ := List.pairwise_cons.mp hsorted
    refine ⟨⟨hrest, fun hx => h.keys (hentries ▸ List.mem_cons_of_mem _ hx)⟩, fun o ho => ?_⟩
    obtain ⟨b, hb, ho⟩ := List.mem_flatMap.mp ho
    obtain ⟨x, hx, rfl⟩ := List.mem_map.mp hb
    have hle := hfirst x hx
    rw [h.keys (hentries ▸ List.mem_cons_self ..),
      h.keys (hentries ▸ List.mem_cons_of_mem _ hx)] at hle
    exact Std.TransCmp.isLE_trans hle (Address.isLE_foldr_least ho)

/-! ### Coherent parses -/

/-- The queue of a parse is in order, its predictions and records fit together, and whatever fits
the predictions completes the parse. -/
structure IsCoherent (lex : Lexicon) (q : Parse π) : Prop where
  order : IsInOrder q.queue
  coherent : MinimalistGrammar.IsCoherent lex q.records q.queue.toList
  fillable : IsFillable lex q.records q.queue.toList q.input

/-- A derivation completes a parse. -/
def IsCompletedBy (lex : Lexicon) (q : Parse π) (d : Derivation) : Prop :=
  Completes lex q.records q.queue.toList q.input d

section extend

variable (hlex : lex.WellFormed) (hq : q.IsCoherent lex) (hpop : q.queue.pop? = some (c, queue))

include hlex hq hpop

/-- An expansion of the first prediction keeps a parse coherent. -/
theorem IsCoherent.extend (he : e ∈ c.expansions lex q.input) (share : π) (message : String) :
    ({ q with queue }.extend lex e share message).IsCoherent lex := by
  obtain ⟨horder, hleast⟩ := hq.order.isLE_of_mem_slots hpop
  have hcoherent := hq.coherent
  have hfillable := hq.fillable
  rw [StableQueue.toList_eq_of_pop? hpop] at hcoherent hfillable
  obtain ⟨target, hexpands⟩ :=
    Category.exists_expands_of_mem hlex (hcoherent.anchored (List.mem_cons_self ..)) he
  have hperm := (toList_foldl_enqueue_perm e.parts queue).symm
  refine ⟨?_, ?_, ?_⟩
  · rw [queue_extend]
    exact horder.foldl_enqueue e.parts
  · rw [records_extend, queue_extend]
    exact (hcoherent.expand hlex hexpands).of_perm hperm
  · rw [records_extend, queue_extend, input_extend]
    exact (hfillable.expand hlex hcoherent hleast hexpands).of_perm hperm

/-- A derivation completes a continuation if and only if it completes the parse and matches the
expansion. -/
theorem isCompletedBy_extend_iff (he : e ∈ c.expansions lex q.input) (share : π)
    (message : String) :
    ({ q with queue }.extend lex e share message).IsCompletedBy lex d ↔
      q.IsCompletedBy lex d ∧ ∃ d', d.at? c.path.branches = some d' ∧ e.Matches lex d' := by
  obtain ⟨-, hleast⟩ := hq.order.isLE_of_mem_slots hpop
  have hcoherent := hq.coherent
  rw [StableQueue.toList_eq_of_pop? hpop] at hcoherent
  obtain ⟨target, hexpands⟩ :=
    Category.exists_expands_of_mem hlex (hcoherent.anchored (List.mem_cons_self ..)) he
  have hiff := completes_expand_iff (d := d) hlex hcoherent hleast hexpands
  have hperm := toList_foldl_enqueue_perm e.parts queue
  rw [IsCompletedBy, IsCompletedBy, records_extend, queue_extend, input_extend,
    StableQueue.toList_eq_of_pop? hpop, ← hiff]
  exact ⟨(·.of_perm hperm), (·.of_perm hperm.symm)⟩

/-- A derivation that completes a parse completes one of its continuations. -/
theorem exists_isCompletedBy_extend (hd : q.IsCompletedBy lex d) (share : π)
    (message : Expansion → String) :
    ∃ e ∈ c.expansions lex q.input,
      ({ q with queue }.extend lex e share (message e)).IsCompletedBy lex d := by
  have hc : c ∈ q.queue.toList := by
    rw [StableQueue.toList_eq_of_pop? hpop]
    exact List.mem_cons_self ..
  obtain ⟨d', hd', hfits⟩ := hd.fits hc
  -- a word that begins here is next in the input
  obtain ⟨-, hleast⟩ := hq.order.isLE_of_mem_slots hpop
  have hcoherent := hq.coherent
  have hcompletes := hd
  rw [IsCompletedBy] at hcompletes
  rw [StableQueue.toList_eq_of_pop? hpop] at hcoherent hcompletes
  obtain ⟨e, he, hmatches⟩ : ∃ e ∈ c.expansions lex q.input, e.Matches lex d' :=
    Category.exists_matches hlex (hq.coherent.anchored hc) hfits fun leaf w hword hw =>
      prefix_of_completes hcoherent hleast hcompletes (hword ▸ hd') hw
  exact ⟨e, he, (isCompletedBy_extend_iff hlex hq hpop he _ _).mpr ⟨hd, d', hd', hmatches⟩⟩

/-- No derivation completes two continuations of a parse. -/
theorem pairwise_extend (share : π) (message : Expansion → String) :
    ((c.expansions lex q.input).map fun e =>
      { q with queue }.extend lex e share (message e)).Pairwise fun q₁ q₂ =>
        ∀ d, q₁.IsCompletedBy lex d → ¬q₂.IsCompletedBy lex d := by
  have hc : c ∈ q.queue.toList := by
    rw [StableQueue.toList_eq_of_pop? hpop]
    exact List.mem_cons_self ..
  refine List.pairwise_map.mpr (List.Pairwise.imp_of_mem ?_
    (Category.pairwise_expansions hlex (hq.coherent.anchored hc)))
  intro e₁ e₂ he₁ he₂ hne d hd₁ hd₂
  obtain ⟨-, d₁, hd₁, hmatches₁⟩ := (isCompletedBy_extend_iff hlex hq hpop he₁ _ _).mp hd₁
  obtain ⟨-, d₂, hd₂, hmatches₂⟩ := (isCompletedBy_extend_iff hlex hq hpop he₂ _ _).mp hd₂
  obtain rfl := Option.some.inj (hd₁.symm.trans hd₂)
  exact hne d₁ hmatches₁ hmatches₂

end extend

end Parse
end MinimalistGrammar
