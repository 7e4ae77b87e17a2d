import MinimalistGrammar.Proofs.Tree.Appearance

/-!
# Landings that are seen later

A node may land when trees that contain it have been shown already. Then these trees look as if the
node had landed at once. As long as nothing else is changed, what is seen of a tree is decided by
what was seen of it first and by the landings since.

## Main definitions

* `Store.land`, `Store.landAll` — some nodes have landed, one after the other.
* `Store.Lands` — of all nodes that there were the same is seen, once some nodes have landed.

## Main results

* `Store.Lands.trans` — landings add up.
* `Store.Separate.lands` — nothing lands by an addition that is kept apart.
* `Store.linearize_eq_of_face?`, `Store.display_eq_of_face?` — how trees look after some landings.
-/

namespace MinimalistGrammar
namespace Store

variable {s s' s'' : Store} {root id node top : ConstituentId} {l : Link} {o : Outline}
  {raised raised' : List (ConstituentId × ConstituentId)}

/-! ### Landing -/

/-- A node is pronounced below another one from now on. -/
def land (s : Store) (node top : ConstituentId) : Store :=
  s.modifyConstituent node fun c => { c with landing := some top }

/-- Some nodes land, one after the other. -/
def landAll (s : Store) (raised : List (ConstituentId × ConstituentId)) : Store :=
  raised.foldl (fun s r => s.land r.1 r.2) s

theorem landAll_append (s : Store) (raised raised' : List (ConstituentId × ConstituentId)) :
    s.landAll (raised ++ raised') = (s.landAll raised).landAll raised' := List.foldl_append ..

/-- Of the node that lands only the landing is seen to change. -/
theorem face?_land (s : Store) (node top id : ConstituentId) : (s.land node top).face? id =
    if id = node then (s.face? id).map fun f => { f with landing := some top } else s.face? id := by
  have hnode := s.constituent?_modifyConstituent node id fun c => { c with landing := some top }
  have hvalues : (s.land node top).featureValues id = s.featureValues id := by
    rw [featureValues, land, hnode, featureValues]
    split
    · cases s.constituent? id with
      | none => rfl
      | some c => rfl
    · rfl
  rw [face?, hvalues, land, hnode, face?]
  split
  · rw [Option.map_map, Option.map_map]
    rfl
  · rfl

/-- What is seen after some landings is decided by what was seen before. -/
theorem face?_landAll_congr (h : s'.face? id = s.face? id) :
    (s'.landAll raised).face? id = (s.landAll raised).face? id := by
  induction raised generalizing s s' with
  | nil => exact h
  | cons r raised ih =>
    refine ih ?_
    rw [face?_land, face?_land, h]

theorem outline?_land (s : Store) (node top id : ConstituentId) : (s.land node top).outline? id =
      if id = node then (s.outline? id).map fun o => { o with landing := some top }
      else s.outline? id := by
  rw [outline?, land, constituent?_modifyConstituent, outline?]
  split
  · rw [Option.map_map, Option.map_map]
    rfl
  · rfl

/-- A landing does not change what hangs below a node. -/
theorem hangs_of_hangs_landAll (h : (s.landAll raised).Hangs root l) : s.Hangs root l := by
  induction raised generalizing s with
  | nil => exact h
  | cons r raised ih =>
    refine (ih h).mono ⟨fun {id o} ho => ?_⟩
    rw [outline?_land] at ho
    split at ho
    · obtain ⟨o', ho', rfl⟩ := Option.map_eq_some_iff.mp ho
      exact ⟨o'.landing, ho'⟩
    · exact ⟨o.landing, ho⟩

theorem keeps_land (s : Store) (node top : ConstituentId) : s.Keeps (s.land node top) := by
  refine ⟨fun {id o} ho => ?_⟩
  rw [outline?_land, ho]
  split
  · exact ⟨some top, rfl⟩
  · exact ⟨o.landing, rfl⟩

theorem keeps_landAll (s : Store) (raised : List (ConstituentId × ConstituentId)) :
    s.Keeps (s.landAll raised) := by
  induction raised generalizing s with
  | nil => exact .of_outline? fun _ _ ho => ho
  | cons r raised ih => exact (s.keeps_land r.1 r.2).trans (ih _)

/-- Of nodes that have not landed the same is seen. -/
theorem face?_landAll_of_forall_ne (h : ∀ r ∈ raised, r.1 ≠ id) :
    (s.landAll raised).face? id = s.face? id := by
  induction raised generalizing s with
  | nil => rfl
  | cons r raised ih =>
    have hrest : (s.landAll (r :: raised)).face? id = (s.land r.1 r.2).face? id :=
      ih fun r' hr' => h r' (List.mem_cons_of_mem _ hr')
    rw [hrest, face?_land, if_neg (Ne.symm (h r (List.mem_cons_self ..)))]

section looks

variable (h : ∀ id, s.Hangs root (.constituent id) → s'.face? id = (s.landAll raised).face? id)

include h

/-- The words of a tree after some landings. -/
theorem linearize_eq_of_face? : s'.linearize root = (s.landAll raised).linearize root :=
  linearize_congr fun id hid => h id (hangs_of_hangs_landAll hid)

/-- The text of a tree after some landings. -/
theorem display_eq_of_face? : s'.display root = (s.landAll raised).display root :=
  display_congr fun id hid => h id (hangs_of_hangs_landAll hid)

end looks

/-- What hangs below a node with a number has numbers. -/
theorem IsClosed.issued_of_hangs (hs : s.IsClosed) (hroot : s.Issued (.constituent root))
    (h : s.Hangs root l) : s.Issued l := by
  induction h with
  | node => exact hroot
  | feature ho hf => exact hs.links ((mem_linksOf_of_outline? ho).1 _ hf)
  | part ho hpart _ ih => exact ih (hs.links ((mem_linksOf_of_outline? ho).2 _ hpart))

/-! ### Later stores -/

/-- Of all nodes that there were the same is seen, once some nodes have landed. -/
structure Lands (s s' : Store) (raised : List (ConstituentId × ConstituentId)) : Prop where
  nextConstituent : s.nextConstituent ≤ s'.nextConstituent
  face? {id : ConstituentId} :
    s.Issued (.constituent id) → s'.face? id = (s.landAll raised).face? id

theorem Lands.refl (s : Store) : s.Lands s [] := ⟨Nat.le_refl _, fun _ => rfl⟩

/-- Landings add up. -/
theorem Lands.trans (h : s.Lands s' raised) (h' : s'.Lands s'' raised') :
    s.Lands s'' (raised ++ raised') where
  nextConstituent := Nat.le_trans h.nextConstituent h'.nextConstituent
  face? {id} hid := by
    have hid' : s'.Issued (.constituent id) := Nat.lt_of_lt_of_le hid h.nextConstituent
    rw [h'.face? hid', landAll_append, face?_landAll_congr (h.face? hid)]

theorem lands_land (s : Store) (node top : ConstituentId) :
    s.Lands (s.land node top) [(node, top)] :=
  ⟨Nat.le_refl _, fun _ => rfl⟩

/-- What is kept apart lets nothing land. -/
theorem Separate.lands (h : s.Separate s') (hs : s.IsClosed) : s.Lands s' [] where
  nextConstituent := h.nextConstituent
  face? {id} hid := by
    refine face?_congr (constituent?_of_linked? (h.old hid)) fun o ho f hf => ?_
    exact feature?_of_linked? (h.old (hs.issued_of_hangs hid (.feature ho hf)))

/-- A change that touches neither labels, parts, landings nor features lets nothing land. -/
theorem Lands.of_constituent? (hnext : s.nextConstituent ≤ s'.nextConstituent)
    (hnode : ∀ id, s.Issued (.constituent id) → s'.constituent? id = s.constituent? id)
    (hfeature : ∀ f, (s'.feature? f).map (·.feature) = (s.feature? f).map (·.feature)) :
    s.Lands s' [] where
  nextConstituent := hnext
  face? {id} hid := by
    have hvalues : s'.featureValues id = s.featureValues id := by
      simp only [featureValues, hnode id hid, hfeature]
    show s'.face? id = s.face? id
    rw [Store.face?, Store.face?, hnode id hid, hvalues]

end Store
end MinimalistGrammar
