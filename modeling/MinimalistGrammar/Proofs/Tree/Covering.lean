import Mathlib.Data.List.Basic
import MinimalistGrammar.Proofs.Bracketing.Roundtrip
import MinimalistGrammar.Proofs.Bracketing.Squeezing
import MinimalistGrammar.Proofs.Tree.Outline
import MinimalistGrammar.Tree.Linearize

/-!
# Trees that a bracketing covers

The shape of a tree has the words that the tree is pronounced as: both readings leave out the same
copies, silent leaves and circles. So a bracketing covers a tree only if its words are those of the
tree. And every bracketing covers some tree, the one that is planted node by node, so bracketings
cover the same trees exactly if they differ in what shapes leave out.

## Main definitions

* `Store.IsAcyclic` — no node is below itself.
* `Store.plant` — a tree for a bracketing, made of new nodes.

## Main results

* `Store.wordsOf?_shape` — the words of the shape of a tree are those of the tree.
* `Store.shape_eq_of_isAcyclicBelow` — without circles, a shape is made of the shapes of the parts.
* `Bracketing.exists_covers` — every bracketing covers a tree without circles.
* `Bracketing.covers_up_to_alike` — what it says about a tree that a bracketing covers it.
-/

namespace MinimalistGrammar
namespace Store

variable {s s' : Store} {id part root : ConstituentId} {path path' : List ConstituentId}
  {c : Constituent}

/-! ### Shapes and words -/

theorem shapeBelow_of_none (hc : s.constituent? id = none) : s.shapeBelow path id = none := by
  rw [shapeBelow]
  split
  · rfl
  · next c hc' => exact absurd (hc.symm.trans hc') (by simp)

theorem shapeBelow_of_mem (hp : id ∈ path) : s.shapeBelow path id = none := by
  rw [shapeBelow]
  split
  · rfl
  · rw [dif_pos hp]

theorem shapeBelow_eq (hc : s.constituent? id = some c) (hp : id ∉ path) :
    s.shapeBelow path id =
      if c.isLeaf then Shape.ofWord c.label
      else Shape.around ((s.pronouncedParts id).flatMap fun part =>
        (s.shapeBelow (id :: path) part).toList) := by
  rw [shapeBelow]
  split
  · next hnone => exact absurd (hnone.symm.trans hc) (by simp)
  · next c' hc' =>
    obtain rfl := Option.some.inj (hc'.symm.trans hc)
    rw [dif_neg hp]

theorem pronouncedParts_of_isLeaf (hc : s.constituent? id = some c) (hleaf : c.isLeaf = true) :
    s.pronouncedParts id = [] := by
  rw [pronouncedParts, hc, Option.elim_some, List.isEmpty_iff.mp hleaf, List.filter_nil]

/-- The words of the shape of a tree are those of the tree, whatever nodes are above it. -/
theorem wordsOf?_shapeBelow (s : Store) (path : List ConstituentId) (id : ConstituentId) :
    Shape.wordsOf? (s.shapeBelow path id) = s.linearizeBelow path id := by
  fun_induction linearizeBelow s path id with
  | case1 path id hc => rw [shapeBelow_of_none hc]; rfl
  | case2 path id c hc hp => rw [shapeBelow_of_mem hp]; rfl
  | case3 path id c hc hp ih =>
    rw [shapeBelow_eq hc hp]
    split
    · next hleaf =>
      rw [Shape.wordsOf?_ofWord, pronouncedParts_of_isLeaf hc hleaf, List.flatMap_nil,
        List.append_nil]
    · rw [Shape.wordsOf?_around, List.flatMap_assoc, List.nil_append]
      simp only [Shape.flatMap_words_toList, ih]

/-- The words of the shape of a tree are those of the tree. -/
theorem wordsOf?_shape (s : Store) (root : ConstituentId) :
    Shape.wordsOf? (s.shape root) = s.linearize root := s.wordsOf?_shapeBelow [] root

/-! ### Stores without circles -/

/-- Whether a node is one of the parts of another. -/
def IsPart (s : Store) (part id : ConstituentId) : Prop :=
  ∃ c, s.constituent? id = some c ∧ part ∈ c.parts

/-- No node is below itself. -/
def IsAcyclic (s : Store) : Prop := ∀ id, ¬ Relation.TransGen s.IsPart id id

theorem isPart_of_mem_pronouncedParts (h : part ∈ s.pronouncedParts id) : s.IsPart part id := by
  rw [pronouncedParts, List.mem_filter] at h
  cases hc : s.constituent? id with
  | none => simp [hc] at h
  | some c => exact ⟨c, hc, by simpa [hc] using h.1⟩

/-- Neither a node nor any node below it is below itself. -/
def IsAcyclicBelow (s : Store) (id : ConstituentId) : Prop :=
  ∀ id', Relation.ReflTransGen s.IsPart id' id → ¬Relation.TransGen s.IsPart id' id'

/-- Where no node is below itself, it does not matter which nodes above a tree are kept in mind. -/
theorem shapeBelow_congr_path (h : s.IsAcyclicBelow id)
    (hpath : ∀ above ∈ path, Relation.TransGen s.IsPart id above)
    (hpath' : ∀ above ∈ path', Relation.TransGen s.IsPart id above) :
    s.shapeBelow path id = s.shapeBelow path' id := by
  induction hn : s.offPath path using Nat.strongRecOn generalizing path path' id with
  | _ n ih =>
    cases hc : s.constituent? id with
    | none => rw [shapeBelow_of_none hc, shapeBelow_of_none hc]
    | some c =>
      have hp : id ∉ path := fun hmem => h id .refl (hpath id hmem)
      have hp' : id ∉ path' := fun hmem => h id .refl (hpath' id hmem)
      rw [shapeBelow_eq hc hp, shapeBelow_eq hc hp']
      have hparts : ∀ part ∈ s.pronouncedParts id,
          s.shapeBelow (id :: path) part = s.shapeBelow (id :: path') part := by
        intro part hpart
        have hpart := isPart_of_mem_pronouncedParts hpart
        have hbelow := Relation.TransGen.single hpart
        exact ih _ (hn ▸ offPath_cons_lt hc hp) (fun id' hid' => h id' (hid'.tail hpart))
          (List.forall_mem_cons.mpr ⟨hbelow, fun a ha => hbelow.trans (hpath a ha)⟩)
          (List.forall_mem_cons.mpr ⟨hbelow, fun a ha => hbelow.trans (hpath' a ha)⟩) rfl
      rw [List.flatMap_congr fun part hpart => congrArg Option.toList (hparts part hpart)]

/-- Without circles, a shape is made of the shapes of the parts, and no part is left out. -/
theorem shape_eq_of_isAcyclicBelow (h : s.IsAcyclicBelow id) (hc : s.constituent? id = some c) :
    s.shape id =
      if c.isLeaf then Shape.ofWord c.label
      else Shape.around ((s.pronouncedParts id).flatMap fun part => (s.shape part).toList) := by
  rw [shape, shapeBelow_eq hc List.not_mem_nil]
  have hparts : ∀ part ∈ s.pronouncedParts id, s.shapeBelow [id] part = s.shape part := by
    intro part hpart
    have hpart := isPart_of_mem_pronouncedParts hpart
    have hbelow := Relation.TransGen.single hpart
    exact shapeBelow_congr_path (fun id' hid' => h id' (hid'.tail hpart)) (by simpa using hbelow)
      (by simp)
  rw [List.flatMap_congr fun part hpart => congrArg Option.toList (hparts part hpart)]

/-- All parts of all nodes are older than the nodes. -/
def HasOlderParts (s : Store) : Prop :=
  ∀ part id, s.IsPart part id → part.index < id.index

/-- A store in which parts are older has no circles. -/
theorem HasOlderParts.isAcyclic (h : s.HasOlderParts) : s.IsAcyclic := by
  have hlt : ∀ {a b : ConstituentId}, Relation.TransGen s.IsPart a b → a.index < b.index := by
    intro a b hab
    induction hab with
    | single hpart => exact h _ _ hpart
    | tail _ hpart ih => exact Nat.lt_trans ih (h _ _ hpart)
  exact fun id hid => absurd (hlt hid) (Nat.lt_irrefl _)

/-! ### Planting a tree -/

mutual

/-- A tree of new nodes for a bracketing, with its root. -/
def plant (s : Store) : Bracketing → Store × ConstituentId
  | .word w => s.addNode { label := w }
  | .node _ parts =>
    let (s, ids) := s.plantParts parts
    s.addNode { parts := ids }

/-- Trees of new nodes for some bracketings, with their roots. -/
def plantParts (s : Store) : List Bracketing → Store × List ConstituentId
  | [] => (s, [])
  | p :: ps =>
    let (s, id) := s.plant p
    let (s, ids) := s.plantParts ps
    (s, id :: ids)

end

/-- The nodes with numbers below `k` are the same in two stores. -/
def SameBelow (s s' : Store) (k : Nat) : Prop :=
  ∀ id : ConstituentId, id.index < k → s'.constituent? id = s.constituent? id

theorem SameBelow.trans {s'' : Store} {k l : Nat} (h : s.SameBelow s' k) (h' : s'.SameBelow s'' l)
    (hkl : k ≤ l) : s.SameBelow s'' k :=
  fun id hid => (h' id (Nat.lt_of_lt_of_le hid hkl)).trans (h id hid)

theorem sameBelow_addNode (s : Store) (c : Constituent) :
    s.SameBelow (s.addNode c).1 s.nextConstituent := by
  intro id hid
  rw [constituent?_addNode, if_neg]
  rintro rfl
  exact absurd hid (Nat.lt_irrefl _)

/-- Some new nodes are the roots of trees that have these shapes and will keep them, whatever nodes
are added. -/
structure Grown (s s' : Store) (roots : List ConstituentId) (shapes : List Shape) : Prop where
  le : s.nextConstituent ≤ s'.nextConstituent
  same : s.SameBelow s' s.nextConstituent
  hasOlderParts : s.HasOlderParts → s'.HasOlderParts
  lt {id : ConstituentId} : id ∈ roots → id.index < s'.nextConstituent
  stays {id : ConstituentId} : id ∈ roots → ∃ c, s'.constituent? id = some c ∧ c.landing = none
  shapes_eq {s'' : Store} {path : List ConstituentId} : s'.SameBelow s'' s'.nextConstituent →
    (∀ above ∈ path, s'.nextConstituent ≤ above.index) →
    roots.flatMap (fun id => (s''.shapeBelow path id).toList) = shapes

theorem grown_nil (s : Store) : s.Grown s [] [] where
  le := Nat.le_refl _
  same _ _ := rfl
  hasOlderParts h := h
  lt h := absurd h List.not_mem_nil
  stays h := absurd h List.not_mem_nil
  shapes_eq _ _ := rfl

theorem Grown.append {s'' : Store} {ids ids' : List ConstituentId} {ps ps' : List Shape}
    (h : s.Grown s' ids ps) (h' : s'.Grown s'' ids' ps') :
    s.Grown s'' (ids ++ ids') (ps ++ ps') where
  le := Nat.le_trans h.le h'.le
  same := h.same.trans h'.same h.le
  hasOlderParts holder := h'.hasOlderParts (h.hasOlderParts holder)
  lt hid := by
    rcases List.mem_append.mp hid with hid | hid
    · exact Nat.lt_of_lt_of_le (h.lt hid) h'.le
    · exact h'.lt hid
  stays hid := by
    rcases List.mem_append.mp hid with hid | hid
    · rw [h'.same _ (h.lt hid)]
      exact h.stays hid
    · exact h'.stays hid
  shapes_eq hsame hpath := by
    have hold := h'.same.trans hsame h'.le
    rw [List.flatMap_append, h'.shapes_eq hsame hpath,
      h.shapes_eq hold fun a ha => Nat.le_trans h'.le (hpath a ha)]

/-- The roots have these shapes in the store itself. -/
theorem Grown.flatMap_shape {ids : List ConstituentId} {ps : List Shape} (h : s.Grown s' ids ps) :
    ids.flatMap (fun id => (s'.shape id).toList) = ps :=
  h.shapes_eq (fun _ _ => rfl) (List.forall_mem_nil _)

/-- A new leaf has the shape of its label, and a new node above trees the shape around theirs. -/
theorem Grown.addNode {ids : List ConstituentId} {ps : List Shape} (h : s.Grown s' ids ps)
    (label : String) :
    s.Grown (s'.addNode { label, parts := ids }).1 [⟨s'.nextConstituent⟩]
      (if ids.isEmpty then Shape.ofWord label else Shape.around ps).toList where
  le := Nat.le_succ_of_le h.le
  same := h.same.trans (sameBelow_addNode s' _) h.le
  hasOlderParts holder := by
    rintro part id ⟨c, hc, hpart⟩
    rw [constituent?_addNode] at hc
    split at hc
    · next hid =>
      obtain rfl := Option.some.inj hc
      rw [hid]
      exact h.lt hpart
    · exact h.hasOlderParts holder part id ⟨c, hc, hpart⟩
  lt hid := by
    rw [List.mem_singleton.mp hid]
    exact Nat.lt_succ_self _
  stays hid := by
    refine ⟨{ label, parts := ids }, ?_, rfl⟩
    rw [List.mem_singleton.mp hid, constituent?_addNode, if_pos rfl]
  shapes_eq {s'' path} hsame hpath := by
    have hold : s'.SameBelow s'' s'.nextConstituent :=
      (sameBelow_addNode s' _).trans hsame (Nat.le_succ _)
    have hnew : s''.constituent? ⟨s'.nextConstituent⟩ = some { label, parts := ids } := by
      rw [hsame _ (Nat.lt_succ_self _), constituent?_addNode, if_pos rfl]
    have hnotMem : (⟨s'.nextConstituent⟩ : ConstituentId) ∉ path := fun hmem =>
      absurd (hpath _ hmem) (Nat.not_succ_le_self _)
    -- no part has landed anywhere, so all are pronounced here
    have hparts : s''.pronouncedParts ⟨s'.nextConstituent⟩ = ids := by
      rw [pronouncedParts, hnew]
      refine List.filter_eq_self.mpr fun part hpart => ?_
      obtain ⟨c, hc, hlanding⟩ := h.stays hpart
      rw [hold part (h.lt hpart), hc, Option.bind_some, hlanding]
    have habove : ∀ above ∈ (⟨s'.nextConstituent⟩ : ConstituentId) :: path,
        s'.nextConstituent ≤ above.index :=
      List.forall_mem_cons.mpr ⟨Nat.le_refl _, fun a ha => Nat.le_of_succ_le (hpath a ha)⟩
    rw [List.flatMap_singleton, shapeBelow_eq hnew hnotMem, hparts, h.shapes_eq hold habove]
    rfl

mutual

/-- A planted tree has the shape of its bracketing. -/
theorem grown_plant (s : Store) (b : Bracketing) :
    s.Grown (s.plant b).1 [(s.plant b).2] b.shape.toList := by
  cases b with
  | word w => exact (grown_nil s).addNode w
  | node label parts =>
    have hparts := grown_plantParts s parts
    have hnode := hparts.addNode ""
    have hshape : (if (s.plantParts parts).2.isEmpty then Shape.ofWord ""
        else Shape.around (Bracketing.shapes parts)) = Shape.around (Bracketing.shapes parts) := by
      split
      · next hids =>
        -- a node without parts is a silent leaf
        have hnone := hparts.flatMap_shape
        rw [List.isEmpty_iff.mp hids, List.flatMap_nil] at hnone
        rw [← hnone]
        exact Shape.ofWord_of_isSilent (by decide)
      · rfl
    rw [hshape] at hnode
    exact hnode

theorem grown_plantParts (s : Store) (ps : List Bracketing) :
    s.Grown (s.plantParts ps).1 (s.plantParts ps).2 (Bracketing.shapes ps) := by
  cases ps with
  | nil => exact grown_nil s
  | cons p ps => exact (grown_plant s p).append (grown_plantParts (s.plant p).1 ps)

end

end Store

namespace Bracketing

/-- A bracketing covers the trees that are planted for the bracketings of its shape. -/
theorem covers_plant_iff (b b' : Bracketing) :
    b.covers (Store.plant {} b').1 (Store.plant {} b').2 = true ↔ b.shape = b'.shape := by
  have hshape := (Store.grown_plant {} b').flatMap_shape
  rw [List.flatMap_singleton] at hshape
  have hhead := congrArg List.head? hshape
  rw [Option.head?_toList, Option.head?_toList] at hhead
  rw [covers, beq_iff_eq, hhead]

/-- Every bracketing covers a tree without circles. -/
theorem exists_covers (b : Bracketing) :
    ∃ (s : Store) (root : ConstituentId), s.IsAcyclic ∧ b.covers s root = true := by
  have hempty : ({} : Store).HasOlderParts := by
    rintro part id ⟨c, hc, -⟩
    simp [Store.constituent?] at hc
  have holder := (Store.grown_plant {} b).hasOlderParts hempty
  exact ⟨_, _, holder.isAcyclic, (covers_plant_iff b b).mpr rfl⟩

/-- A bracketing that was read covers only trees that are pronounced as its words. Alike bracketings
cover the same trees; and bracketings that cover the same trees, of those without circles, are
alike. -/
theorem covers_up_to_alike {text : String} {b : Bracketing} (h : parse text = .ok b) :
    (∀ (s : Store) root, b.covers s root = true → b.yield = s.linearize root) ∧
      (∀ b', Alike b b' → ∀ (s : Store) root, b'.covers s root = b.covers s root) ∧
      ∀ text' b', parse text' = .ok b' →
        (∀ (s : Store) root, s.IsAcyclic → b'.covers s root = b.covers s root) → Alike b b' := by
  have hlegible := isLegible_of_parse h
  refine ⟨?_, ?_, ?_⟩
  · intro s root hcovers
    rw [covers, beq_iff_eq] at hcovers
    rw [← words_shape b hlegible, hcovers, s.wordsOf?_shape]
  · intro b' halike s root
    rw [covers, covers, halike.shape_eq]
  · intro text' b' h' hsame
    obtain ⟨s, root, hacyclic, hcovers⟩ := exists_covers b
    have hcovers' := (hsame s root hacyclic).trans hcovers
    rw [covers, beq_iff_eq] at hcovers hcovers'
    exact (shape_eq_iff_alike hlegible (isLegible_of_parse h')).mp (hcovers'.trans hcovers.symm)

/-- A label, a silent word, an empty node and brackets around all the words make no difference. -/
theorem covers_up_to_alike_pair :
    let flat := node (some "D") [word "a", word "b"]
    let silent := node (some "D") [word "∅", word "a", word "b"]
    let nested := node none [node none [], node none [word "a", word "b"]]
    parse "[.D a b]" = .ok flat ∧ parse "[[] [a b]]" = .ok nested ∧
      flat.covers (Store.plant {} silent).1 (Store.plant {} silent).2 = true ∧
      flat.yield = (Store.plant {} silent).1.linearize (Store.plant {} silent).2 ∧
      silent.covers (Store.plant {} silent).1 (Store.plant {} silent).2 = true ∧
      Alike flat nested := by
  intro flat silent nested
  have hflat : parse "[.D a b]" = .ok flat := by
    simp [flat, parse, scanBrackets_cons, scanBrackets_nil, splitLabel, isWordPiece, Text.isBlank,
      assemble, bind, Except.bind]
  have hnested : parse "[[] [a b]]" = .ok nested := by
    simp [nested, parse, scanBrackets_cons, scanBrackets_nil, splitLabel, isWordPiece, Text.isBlank,
      assemble, bind, Except.bind]
  obtain ⟨hwords, hsame, halike⟩ := covers_up_to_alike hflat
  have hcovers := (covers_plant_iff flat silent).mpr (by decide)
  have hsilent : Alike flat silent := .of_edit (.silentWord (some "D") [] _ (by decide))
  refine ⟨hflat, hnested, hcovers, hwords _ _ hcovers, ?_, ?_⟩
  · exact (hsame silent hsilent _ _).trans hcovers
  · refine halike _ nested hnested fun s root _ => ?_
    have hshape : nested.shape = flat.shape := by decide
    rw [covers, covers, hshape]

end Bracketing
end MinimalistGrammar
