import Mathlib.Data.List.Nodup
import Mathlib.Data.List.Perm.Basic
import MinimalistGrammar.Proofs.Tree.Landing
import MinimalistGrammar.Proofs.Tree.Spelling

/-!
# Every word is pronounced once

A node that has moved hangs below several others, and is pronounced below one of them. If every node
but the roots is pronounced below exactly one other node, then the words of the trees are those of
all their leaves, in some order.

## Main definitions

* `Store.leafWords` — the words of a leaf.
* `Store.Spans` — every one of some nodes is a root or is pronounced below exactly one of the
  others.

## Main results

* `Store.Spans.add`, `Store.Spans.land` — one more node on top of some roots, and a node that is
  raised.
* `Store.Spans.linearize_perm` — trees pronounce each leaf once.
-/

namespace MinimalistGrammar
namespace Store

/-- The words of a node itself: a leaf has those of its label, other nodes have none. -/
def leafWords (s : Store) (id : ConstituentId) : List String :=
  (s.outline? id).elim [] fun o => if o.parts.isEmpty then tokens o.label else []

/-- Some nodes make up the trees below some roots, and their leaves have some words. Each of the
nodes is a root or is pronounced below exactly one of the nodes. -/
structure Spans (s : Store) (nodes roots : List ConstituentId) (words : List String) : Prop where
  issued {id : ConstituentId} : id ∈ nodes → id.index < s.nextConstituent
  known {id : ConstituentId} : id ∈ nodes → ∃ o, s.outline? id = some o
  older {id part : ConstituentId} {o : Outline} : id ∈ nodes → s.outline? id = some o →
    part ∈ o.parts →
    part ∈ nodes ∧ part.index < id.index
  nodup : nodes.Nodup
  once : (roots ++ nodes.flatMap s.pronouncedParts).Perm nodes
  words : (nodes.flatMap s.leafWords).Perm words

variable {s s' : Store} {id node new root part : ConstituentId}
  {nodes roots parts : List ConstituentId} {words : List String} {o : Outline}

theorem spans_nil (s : Store) : s.Spans [] [] [] where
  issued hid := absurd hid List.not_mem_nil
  known hid := absurd hid List.not_mem_nil
  older hid := absurd hid List.not_mem_nil
  nodup := .nil
  once := .refl _
  words := .refl _

theorem leafWords_congr (h : s'.outline? id = s.outline? id) :
    s'.leafWords id = s.leafWords id := by
  rw [leafWords, h, leafWords]

theorem landing?_congr (h : s'.outline? id = s.outline? id) : s'.landing? id = s.landing? id := by
  rw [landing?, h, landing?]

/-- A node that lands does so below the new node. -/
theorem landing?_land (s : Store) (node top id : ConstituentId) : (s.land node top).landing? id =
    if id = node then (s.outline? id).map fun _ => top else s.landing? id := by
  rw [landing?, outline?_land, landing?]
  split
  · cases s.outline? id <;> rfl
  · rfl

/-- The words of a leaf do not depend on where it has landed. -/
theorem leafWords_land (s : Store) (node top id : ConstituentId) :
    (s.land node top).leafWords id = s.leafWords id := by
  rw [leafWords, outline?_land, leafWords]
  split
  · cases s.outline? id <;> rfl
  · rfl

namespace Spans

theorem mem_of_mem_roots (h : s.Spans nodes roots words) (hroot : root ∈ roots) : root ∈ nodes :=
  h.once.subset (List.mem_append_left _ hroot)

/-- The order of the roots and of the words does not matter. -/
theorem perm {roots' : List ConstituentId} {words' : List String} (h : s.Spans nodes roots words)
    (hroots : roots.Perm roots') (hwords : words.Perm words') : s.Spans nodes roots' words' :=
  { h with once := (hroots.symm.append_right _).trans h.once, words := h.words.trans hwords }

/-- What is pronounced below a node is one of its parts, and older. -/
theorem older_of_mem_pronouncedParts (h : s.Spans nodes roots words) (hid : id ∈ nodes)
    (hpart : part ∈ s.pronouncedParts id) : part ∈ nodes ∧ part.index < id.index := by
  obtain ⟨o, ho⟩ := h.known hid
  rw [pronouncedParts_eq ho] at hpart
  exact h.older hid ho (List.mem_filter.mp hpart).1

/-- Only the outlines of the nodes matter. -/
theorem congr (h : s.Spans nodes roots words) (hnext : s.nextConstituent ≤ s'.nextConstituent)
    (houtline : ∀ id ∈ nodes, s'.outline? id = s.outline? id) : s'.Spans nodes roots words where
  issued hid := Nat.lt_of_lt_of_le (h.issued hid) hnext
  known hid := houtline _ hid ▸ h.known hid
  older hid ho := h.older hid (houtline _ hid ▸ ho)
  nodup := h.nodup
  once := by
    rw [List.flatMap_congr fun id hid => ?_]
    · exact h.once
    · obtain ⟨o, ho⟩ := h.known hid
      rw [pronouncedParts_eq ho, pronouncedParts_eq ((houtline id hid).trans ho)]
      apply List.filter_congr
      intro part hpart
      rw [landing?_congr (houtline part (h.older hid ho hpart).1)]
  words := by
    rw [List.flatMap_congr fun id hid => leafWords_congr (houtline id hid)]
    exact h.words

/-! ### One more node -/

/-- A new node on top of some roots, each of them pronounced there, is a root in their place. -/
theorem add (h : s.Spans nodes (o.parts ++ roots) words)
    (hnew : new.index = s.nextConstituent) (hnext : new.index < s'.nextConstituent)
    (houtline : ∀ id, s'.outline? id = if id = new then some o else s.outline? id)
    (hlanding : ∀ part ∈ o.parts, s.landing? part = none ∨ s.landing? part = some new) :
    s'.Spans (new :: nodes) (new :: roots)
      ((if o.parts.isEmpty then tokens o.label else []) ++ words) := by
  have hne {id : ConstituentId} (hid : id ∈ nodes) : id ≠ new := by
    rintro rfl
    exact absurd (h.issued hid) (by omega)
  have hold (id : ConstituentId) (hid : id ∈ nodes) : s'.outline? id = s.outline? id := by
    rw [houtline, if_neg (hne hid)]
  have htop : s'.outline? new = some o := by rw [houtline, if_pos rfl]
  have h' : s'.Spans nodes (o.parts ++ roots) words := h.congr (by omega) hold
  have hmem {part : ConstituentId} (hpart : part ∈ o.parts) : part ∈ nodes :=
    h.mem_of_mem_roots (List.mem_append_left _ hpart)
  have hpronounced : s'.pronouncedParts new = o.parts := by
    rw [pronouncedParts_eq htop]
    apply List.filter_eq_self.mpr
    intro part hpart
    rw [landing?_congr (hold part (hmem hpart))]
    rcases hlanding part hpart with hnone | hsome
    · rw [hnone]
    · simp [hsome]
  refine ⟨?issued, ?known, ?older, List.nodup_cons.mpr ⟨fun hid => hne hid rfl, h.nodup⟩,
    ?once, ?words⟩
  case issued =>
    intro id hid
    rcases List.mem_cons.mp hid with rfl | hid
    · exact hnext
    · exact h'.issued hid
  case known =>
    intro id hid
    rcases List.mem_cons.mp hid with rfl | hid
    · exact ⟨o, htop⟩
    · exact h'.known hid
  case older =>
    intro id part o' hid ho' hpart
    rcases List.mem_cons.mp hid with rfl | hid
    · obtain rfl := Option.some.inj (htop.symm.trans ho')
      exact ⟨List.mem_cons_of_mem _ (hmem hpart), hnew ▸ h.issued (hmem hpart)⟩
    · obtain ⟨hmem', hlt⟩ := h'.older hid ho' hpart
      exact ⟨List.mem_cons_of_mem _ hmem', hlt⟩
  case once =>
    -- the parts are pronounced below the new node and are no longer among the roots
    have hperm : (roots ++ (o.parts ++ nodes.flatMap s'.pronouncedParts)).Perm nodes := by
      refine .trans ?_ h'.once
      rw [← List.append_assoc]
      exact List.perm_append_comm.append_right _
    rw [List.flatMap_cons, hpronounced]
    exact hperm.cons new
  case words =>
    rw [List.flatMap_cons, leafWords, htop, Option.elim_some]
    exact h'.words.append_left _

/-! ### Raising -/

/-- A node that lands keeps its parts. -/
theorem exists_outline?_land (node new : ConstituentId) (ho : s.outline? id = some o) :
    ∃ o', (s.land node new).outline? id = some o' ∧ o'.parts = o.parts := by
  rw [outline?_land, ho]
  split
  · exact ⟨_, rfl, rfl⟩
  · exact ⟨o, rfl, rfl⟩

/-- A node that lands above all others is taken from the parts of the node below which it was. -/
theorem pronouncedParts_land (h : s.Spans nodes roots words) (hnew : new ∉ nodes)
    (hid : id ∈ nodes) :
    (s.land node new).pronouncedParts id = (s.pronouncedParts id).filter (· != node) := by
  obtain ⟨o, ho⟩ := h.known hid
  obtain ⟨o', ho', hparts⟩ := exists_outline?_land node new ho
  rw [pronouncedParts_eq ho', pronouncedParts_eq ho, List.filter_filter, hparts]
  apply List.filter_congr
  intro part hpart
  obtain ⟨op, hop⟩ := h.known (h.older hid ho hpart).1
  rw [landing?_land]
  by_cases heq : part = node
  · have hne : new ≠ id := fun heq' => hnew (heq' ▸ hid)
    simp [heq, heq ▸ hop, hne]
  · simp [heq]

/-- A node that is raised is no longer pronounced where it was. -/
theorem land (h : s.Spans nodes roots words) (hnode : node ∈ nodes) (hroots : node ∉ roots)
    (hnew : new ∉ nodes) : (s.land node new).Spans nodes (node :: roots) words := by
  refine ⟨h.issued, ?known, ?older, h.nodup, ?once, ?words⟩
  case known =>
    intro id hid
    obtain ⟨o, ho⟩ := h.known hid
    obtain ⟨o', ho', -⟩ := exists_outline?_land node new ho
    exact ⟨o', ho'⟩
  case older =>
    intro id part o' hid ho' hpart
    obtain ⟨o, ho⟩ := h.known hid
    obtain ⟨o'', ho'', hparts⟩ := exists_outline?_land node new ho
    obtain rfl := Option.some.inj (ho''.symm.trans ho')
    exact h.older hid ho (hparts ▸ hpart)
  case once =>
    -- the node was pronounced once, and not as a root
    have hnodup : (roots ++ nodes.flatMap s.pronouncedParts).Nodup := h.once.nodup_iff.mpr h.nodup
    have hbelow : node ∈ nodes.flatMap s.pronouncedParts :=
      (List.mem_append.mp (h.once.mem_iff.mpr hnode)).resolve_left hroots
    have hrest : nodes.flatMap (s.land node new).pronouncedParts =
        (nodes.flatMap s.pronouncedParts).erase node := by
      rw [(List.Nodup.of_append_right hnodup).erase_eq_filter, List.filter_flatMap]
      exact List.flatMap_congr fun id hid => h.pronouncedParts_land hnew hid
    rw [hrest]
    refine .trans ?_ h.once
    rw [List.cons_append]
    exact List.perm_middle.symm.trans ((List.perm_cons_erase hbelow).symm.append_left roots)
  case words =>
    rw [List.flatMap_congr fun id _ => s.leafWords_land node new id]
    exact h.words

/-! ### Words -/

/-- The words of a node do not depend on the nodes above it, since these are younger. -/
theorem linearizeBelow_eq (h : s.Spans nodes roots words) (hid : id ∈ nodes)
    {path : List ConstituentId} (hpath : ∀ above ∈ path, id.index < above.index) :
    s.linearizeBelow path id = s.linearize id := by
  induction hn : id.index using Nat.strongRecOn generalizing id path with
  | ind n ih =>
    subst hn
    obtain ⟨o, ho⟩ := h.known hid
    have hnotMem : id ∉ path := fun hmem => Nat.lt_irrefl _ (hpath id hmem)
    rw [linearize, Store.linearizeBelow_eq ho hnotMem, Store.linearizeBelow_eq ho List.not_mem_nil]
    refine congrArg _ (List.flatMap_congr fun part hpart => ?_)
    obtain ⟨hmem, hlt⟩ := h.older_of_mem_pronouncedParts hid hpart
    rw [ih _ hlt hmem (fun above habove => ?_) rfl, ih _ hlt hmem (fun above habove => ?_) rfl]
    · rw [List.mem_singleton.mp habove]
      exact hlt
    · rcases List.mem_cons.mp habove with rfl | habove
      · exact hlt
      · exact Nat.lt_trans hlt (hpath above habove)

/-- A node is pronounced as its own words and those of the parts pronounced below it. -/
theorem linearize_eq (h : s.Spans nodes roots words) (hid : id ∈ nodes) :
    s.linearize id = s.leafWords id ++ (s.pronouncedParts id).flatMap s.linearize := by
  obtain ⟨o, ho⟩ := h.known hid
  rw [linearize, Store.linearizeBelow_eq ho List.not_mem_nil, leafWords, ho, Option.elim_some]
  refine congrArg _ (List.flatMap_congr fun part hpart => ?_)
  obtain ⟨hmem, hlt⟩ := h.older_of_mem_pronouncedParts hid hpart
  apply h.linearizeBelow_eq hmem
  intro above habove
  rw [List.mem_singleton.mp habove]
  exact hlt

/-- Trees pronounce each of their leaves once. -/
theorem linearize_perm (h : s.Spans nodes roots words) :
    (roots.flatMap s.linearize).Perm words := by
  -- all that is pronounced below some node is on both sides
  let below := (nodes.flatMap s.pronouncedParts).flatMap s.linearize
  have hroots : (roots.flatMap s.linearize ++ below).Perm (nodes.flatMap s.linearize) := by
    rw [← List.flatMap_append]
    exact h.once.flatMap_right _
  have hnodes : (nodes.flatMap s.leafWords ++ below).Perm (nodes.flatMap s.linearize) := by
    have hsplit : nodes.flatMap s.linearize =
        nodes.flatMap fun id => s.leafWords id ++ (s.pronouncedParts id).flatMap s.linearize :=
      List.flatMap_congr fun id hid => h.linearize_eq hid
    rw [hsplit, show below = nodes.flatMap fun id => (s.pronouncedParts id).flatMap s.linearize from
      List.flatMap_assoc]
    exact List.flatMap_append_perm ..
  exact ((List.perm_append_right_iff below).mp (hroots.trans hnodes.symm)).trans h.words

end Spans

end Store
end MinimalistGrammar
