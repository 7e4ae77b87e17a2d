import Mathlib.Logic.Relation
import MinimalistGrammar.Proofs.Tree.Circles
import MinimalistGrammar.Proofs.Tree.Projecting

/-!
# Nodes on top of older nodes

The tree of a derivation is built from the leaves up, and every new node is put on top of nodes that
are there already: the parts that have just been built, and a mover that is somewhere below them. A
mover has two nodes above it from then on, and both are younger. So the parts of every new node are
new nodes that are older, whatever was in the store before. Then no new node is below itself, and
the plain recursion from a new node down ends, which keeps no set of the nodes that it is below.

## Main definitions

* `Store.StacksOn` — the parts of new nodes are new nodes that are older.
* `Store.Shapes` — the plain recursion that reads off shapes.

## Main results

* `Store.StacksOn.trans` — new nodes are put on top of new nodes.
* `Store.StacksOn.shapes` — the plain recursion ends at new nodes, with their shapes.
* `Store.stacksOn_build` — the nodes of a tree that is built are on top of older ones.
-/

namespace MinimalistGrammar
namespace Store

variable {start s t u : Store} {id part root : ConstituentId}

/-- A node that was added since the store was `start` has only parts that were added as well, and
are older. -/
structure StacksOn (start s : Store) : Prop where
  nextConstituent : start.nextConstituent ≤ s.nextConstituent
  part {id part : ConstituentId} : start.Added s (.constituent id) → s.IsPart part id →
    start.Added s (.constituent part) ∧ part.index < id.index

/-! ### The plain recursion -/

/-- The plain recursion for shapes: those of the labels of leaves, and otherwise those around the
shapes of the parts. -/
def Shapes (s : Store) : List ConstituentId → List Shape → Prop :=
  s.Unfolds (fun label => (Shape.ofWord label).toList) fun below => (Shape.around below).toList

/-- No new node is below itself. -/
theorem StacksOn.isAcyclicBelow (h : start.StacksOn s) (hid : start.Added s (.constituent id)) :
    s.IsAcyclicBelow id := by
  have hlt {a b : ConstituentId} (hab : Relation.TransGen s.IsPart a b)
      (hb : start.Added s (.constituent b)) : a.index < b.index := by
    induction hab with
    | single hpart => exact (h.part hb hpart).2
    | tail _ hpart ih =>
      obtain ⟨hadded, hlt⟩ := h.part hb hpart
      exact Nat.lt_trans (ih hadded) hlt
  intro id' hbelow hcircle
  have hid' : start.Added s (.constituent id') := by
    induction hbelow with
    | refl => exact hid
    | tail _ hpart ih => exact ih (h.part hid hpart).1
  exact Nat.lt_irrefl _ (hlt hcircle hid')

/-- The plain recursion ends at new nodes, with their shapes. -/
theorem StacksOn.shapes (h : start.StacksOn s) {ids : List ConstituentId}
    (hids : ∀ id ∈ ids, start.Added s (.constituent id)) :
    s.Shapes ids (ids.flatMap fun id => (s.shape id).toList) := by
  have hbelow (n : Nat) : ∀ ids : List ConstituentId,
      (∀ id ∈ ids, start.Added s (.constituent id) ∧ id.index < n) →
        s.Shapes ids (ids.flatMap fun id => (s.shape id).toList) := by
    -- from a node to its parts the numbers become smaller
    induction n with
    | zero =>
      intro ids hids
      cases ids with
      | nil => exact .nil
      | cons id ids => exact absurd (hids id (List.mem_cons_self ..)).2 (Nat.not_lt_zero _)
    | succ n ihn =>
      intro ids hids
      induction ids with
      | nil => exact .nil
      | cons id ids ih =>
        obtain ⟨⟨hid, hlt⟩, hids⟩ := List.forall_mem_cons.mp hids
        rw [List.flatMap_cons]
        cases hc : s.constituent? id with
        | none =>
          rw [shape, shapeBelow_of_none hc]
          exact .missing hc (ih hids)
        | some c =>
          rw [shape_eq_of_isAcyclicBelow (h.isAcyclicBelow hid) hc]
          cases hleaf : c.isLeaf with
          | true => exact .leaf hc hleaf (ih hids)
          | false =>
            refine .node hc hleaf (ihn _ fun part hpart => ?_) (ih hids)
            obtain ⟨hadded, holder⟩ := h.part hid (isPart_of_mem_pronouncedParts hpart)
            exact ⟨hadded, Nat.lt_of_lt_of_le holder (Nat.le_of_lt_succ hlt)⟩
  exact hbelow s.nextConstituent ids fun id hid => ⟨hids id hid, (hids id hid).2⟩

/-! ### More nodes -/

theorem isPart_iff_body? :
    s.IsPart part id ↔ ∃ label parts, s.body? id = some (label, parts) ∧ part ∈ parts := by
  constructor
  · rintro ⟨c, hc, hpart⟩
    exact ⟨c.label, c.parts, by rw [body?, outline?, hc]; rfl, hpart⟩
  · rintro ⟨label, parts, hbody, hpart⟩
    obtain ⟨o, ho, hpair⟩ := Option.map_eq_some_iff.mp hbody
    obtain ⟨c, hc, rfl⟩ := Option.map_eq_some_iff.mp ho
    obtain ⟨rfl, rfl⟩ := Prod.mk.inj hpair
    exact ⟨c, hc, hpart⟩

theorem mem_of_isPart (h : s.IsPart part id) {label : String} {parts : List ConstituentId}
    (hbody : s.body? id = some (label, parts)) : part ∈ parts := by
  obtain ⟨label', parts', hbody', hmem⟩ := isPart_iff_body?.mp h
  obtain ⟨-, rfl⟩ := Prod.mk.inj (Option.some.inj (hbody'.symm.trans hbody))
  exact hmem

theorem isPart_congr (h : t.body? id = s.body? id) : t.IsPart part id ↔ s.IsPart part id := by
  rw [isPart_iff_body?, h, ← isPart_iff_body?]

theorem StacksOn.refl (s : Store) : s.StacksOn s where
  nextConstituent := Nat.le_refl _
  part h := absurd h.2 h.1

/-- New nodes are put on top of new nodes. -/
theorem StacksOn.trans (h : start.StacksOn s) (h' : s.StacksOn t)
    (hold : ∀ id : ConstituentId, id.index < s.nextConstituent → t.body? id = s.body? id) :
    start.StacksOn t where
  nextConstituent := Nat.le_trans h.nextConstituent h'.nextConstituent
  part {id part} hid hpart := by
    by_cases hissued : id.index < s.nextConstituent
    · obtain ⟨hadded, holder⟩ := h.part ⟨hid.1, hissued⟩ ((isPart_congr (hold id hissued)).mp hpart)
      exact ⟨⟨hadded.1, Nat.lt_of_lt_of_le hadded.2 h'.nextConstituent⟩, holder⟩
    · obtain ⟨hadded, holder⟩ := h'.part ⟨hissued, hid.2⟩ hpart
      exact ⟨⟨fun hlt => hadded.1 (Nat.lt_of_lt_of_le hlt h.nextConstituent), hadded.2⟩, holder⟩

/-- Nodes that stay have the parts that they had. -/
theorem StacksOn.of_isPart (h : start.StacksOn s) (hnext : t.nextConstituent = s.nextConstituent)
    (hpart : ∀ {part id}, t.IsPart part id → s.IsPart part id) : start.StacksOn t where
  nextConstituent := hnext ▸ h.nextConstituent
  part {id part} hid hmem := by
    have hsame {id : ConstituentId} :
        start.Added t (.constituent id) ↔ start.Added s (.constituent id) := by
      rw [Added, Added, Issued, Issued, Issued, hnext]
    exact (h.part (hsame.mp hid) (hpart hmem)).imp_left hsame.mpr

/-- One more node is put on top of new nodes. -/
theorem StacksOn.succ (h : start.StacksOn s) (hnext : t.nextConstituent = s.nextConstituent + 1)
    (hold : ∀ id, id ≠ ⟨s.nextConstituent⟩ → t.body? id = s.body? id)
    (hnew : ∀ part, t.IsPart part ⟨s.nextConstituent⟩ → start.Added s (.constituent part)) :
    start.StacksOn t where
  nextConstituent := hnext ▸ Nat.le_succ_of_le h.nextConstituent
  part {id part} hid hpart := by
    have hle : s.nextConstituent ≤ t.nextConstituent := hnext ▸ Nat.le_succ _
    rcases (added_succ_iff h.nextConstituent hnext).mp hid with rfl | hid
    · have hadded := hnew part hpart
      exact ⟨⟨hadded.1, Nat.lt_of_lt_of_le hadded.2 hle⟩, hadded.2⟩
    · obtain ⟨hadded, holder⟩ :=
        h.part hid ((isPart_congr (hold id (ne_next_of_lt hid.2))).mp hpart)
      exact ⟨⟨hadded.1, Nat.lt_of_lt_of_le hadded.2 hle⟩, holder⟩

/-! ### Building a tree -/

theorem StacksOn.finishNode (h : start.StacksOn s) (path : Address) (id : ConstituentId)
    (pending : PendingMovers) : start.StacksOn (s.finishNode path id pending).1 :=
  h.of_isPart rfl (isPart_congr (body?_congr _ (outline?_finishNode ..))).mp

/-- A leaf has no parts. -/
theorem stacksOn_buildLeaf (s : Store) (r : NodeRecord) : s.StacksOn (s.buildLeaf r).1 := by
  obtain ⟨ids, houtline, -, -, -, -, hnext, -⟩ := s.buildLeaf_spec r
  refine (StacksOn.refl s).succ hnext (fun id hid => ?_) fun part hpart => ?_
  · exact body?_congr id ((houtline id).trans (if_neg hid))
  · obtain ⟨c, hc, hmem⟩ := hpart
    rw [constituent?_buildLeaf, if_pos rfl] at hc
    obtain rfl := Option.some.inj hc
    exact absurd hmem List.not_mem_nil

/-- A node above one part is put on top of this and of the mover that it attracts, if any. -/
theorem StacksOn.buildUnary (h : start.StacksOn s) (hpart : start.Added s (.constituent part))
    {pending : PendingMovers}
    (hpending : ∀ {name m}, pending.get? name = some m → start.Added s (.constituent m))
    (r : NodeRecord) : start.StacksOn (s.buildUnary r part pending).1.1 := by
  obtain ⟨hnext, -⟩ := s.next_buildUnary r part pending
  refine h.succ hnext (fun id hid => ?_) fun node hnode => ?_
  · rw [body?_buildUnary, if_neg hid]
  · have hbody := s.body?_buildUnary r ⟨s.nextConstituent⟩ part pending
    rw [if_pos rfl] at hbody
    cases hattracted : s.attracted? part pending with
    | none =>
      rw [hattracted] at hbody
      rwa [List.mem_singleton.mp (mem_of_isPart hnode hbody)]
    | some x =>
      rw [hattracted] at hbody
      rcases List.mem_cons.mp (mem_of_isPart hnode hbody) with rfl | hmem
      · exact hpending (get?_of_attracted? hattracted)
      · rwa [List.mem_singleton.mp hmem]

/-- A node above two parts is put on top of these. -/
theorem StacksOn.buildMerge (h : start.StacksOn s) {selector selected : ConstituentId}
    (hselector : start.Added s (.constituent selector))
    (hselected : start.Added s (.constituent selected)) (r : NodeRecord) (isLexical : Bool) :
    start.StacksOn (s.buildMerge r isLexical selector selected).1 := by
  obtain ⟨hnext, -, -⟩ := s.next_buildMerge r isLexical selector selected
  refine h.succ hnext (fun id hid => ?_) fun node hnode => ?_
  · exact body?_congr id (by rw [outline?_buildMerge, if_neg hid])
  · have hbody : (s.buildMerge r isLexical selector selected).1.body? ⟨s.nextConstituent⟩ =
        some (s.mergeParts isLexical selector selected) := by
      rw [body?, outline?_buildMerge, if_pos rfl]
      rfl
    rcases mem_mergeParts_iff.mp (mem_of_isPart hnode hbody) with rfl | rfl
    · exact hselector
    · exact hselected

/-- All nodes of a tree that is built are on top of older ones, and what is left to move is one of
them. -/
theorem stacksOn_build (s : Store) (path : Address) (tree : RecordTree) :
    s.StacksOn (s.build path tree).1 ∧
      ∀ {name m}, (s.build path tree).2.pending.get? name = some m →
        s.Added (s.build path tree).1 (.constituent m) := by
  induction tree generalizing s path with
  | leaf r =>
    refine ⟨(s.stacksOn_buildLeaf r).finishNode .., fun hm => ?_⟩
    rcases eq_or_get?_of_finishNode path hm with rfl | hm
    · exact s.added_build path (.leaf r)
    · exact absurd hm (by simp)
  | unary r side part ih =>
    obtain ⟨hstacks, hpending⟩ := ih s (path.child side)
    have hpart := s.added_build (path.child side) part
    have hroot := s.added_build path (.unary r side part)
    simp only [build_unary] at hroot ⊢
    generalize s.build (path.child side) part = b at hstacks hpending hpart hroot
    have hretains := b.1.retains_buildUnary r b.2.id b.2.pending
    refine ⟨(hstacks.buildUnary hpart hpending r).finishNode .., fun hm => ?_⟩
    rcases eq_or_get?_of_finishNode path hm with rfl | hm
    · exact hroot
    · exact (hpending (get?_of_buildUnary hm)).mono hretains.nextConstituent hretains.nextFeature
  | binary r left right ih₁ ih₂ =>
    obtain ⟨hleft, hpending⟩ := ih₁ s path.left
    have hselector := s.added_build path.left left
    have hroot := s.added_build path (.binary r left right)
    simp only [build_binary] at hroot ⊢
    generalize s.build path.left left = b at hleft hpending hselector hroot
    obtain ⟨hright, hpending'⟩ := ih₂ b.1 path.right
    have hselected := b.1.added_build path.right right
    have hb := b.1.retains_build path.right right
    generalize b.1.build path.right right = u at hright hpending' hselected hb hroot
    have hretains := u.1.retains_buildMerge r left.record.isLexical b.2.id u.2.id
    -- what has been added for either part has been added for the whole
    have hold {l : Link} (hl : s.Added b.1 l) :
        s.Added u.1 l := hl.mono hb.nextConstituent hb.nextFeature
    have hnew {m : ConstituentId} (hm : b.1.Added u.1 (.constituent m)) :
        s.Added u.1 (.constituent m) :=
      (added_trans_iff hleft.nextConstituent hb.nextConstituent).mpr (Or.inr hm)
    have hboth := hleft.trans hright fun id hid => hb.body? hid
    refine ⟨(hboth.buildMerge (hold hselector) (hnew hselected) ..).finishNode ..,
      fun {name m} hm => ?_⟩
    rcases eq_or_get?_of_finishNode path hm with rfl | hm
    · exact hroot
    · have hadded : s.Added u.1 (.constituent m) := by
        rw [Dict.get?_unite] at hm
        rcases Option.or_eq_some_iff.mp hm with hm | ⟨-, hm⟩
        · exact hold (hpending hm)
        · exact hnew (hpending' hm)
      exact hadded.mono hretains.nextConstituent hretains.nextFeature

end Store
end MinimalistGrammar
