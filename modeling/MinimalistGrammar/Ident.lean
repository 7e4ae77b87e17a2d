import Std.Data.TreeMap
import Std.Data.TreeSet

/-!
# Identifiers

States, constituents, feature occurrences and groups are named by numbers. An identifier carries
the kind of object it names in its type, so that a number of one kind is never taken for one of
another.

## Main definitions

* `Kind` — the four kinds of numbered objects.
* `Ident k` — the name of an object of kind `k`.
* `IdentMap k α` — a finite map whose keys are names of kind `k`, gone through in increasing order.
* `IdentSet k` — a finite set of names of kind `k`.
-/

namespace MinimalistGrammar

/-- The kinds of objects that have a number. -/
inductive Kind
  /-- A step of a derivation. -/
  | state
  /-- A node of a syntax tree. -/
  | constituent
  /-- An occurrence of a feature. -/
  | feature
  /-- A named set of nodes. -/
  | group
deriving DecidableEq, Repr

/-- The name of an object of kind `k`. -/
structure Ident (k : Kind) where
  /-- The number of the object among those of its kind. -/
  index : Nat
deriving DecidableEq, Repr

abbrev StateId := Ident .state
abbrev ConstituentId := Ident .constituent
abbrev FeatureId := Ident .feature
abbrev GroupId := Ident .group

namespace Ident

variable {k : Kind}

instance : Ord (Ident k) := ⟨fun a b => compare a.index b.index⟩

theorem compare_def (a b : Ident k) : compare a b = compare a.index b.index := rfl

instance : Std.TransOrd (Ident k) where
  eq_swap := by
    intro a b
    show compare a.index b.index = (compare b.index a.index).swap
    exact Std.OrientedCmp.eq_swap
  isLE_trans := by
    intro a b c hab hbc
    show (compare a.index c.index).isLE = true
    have hab' : (compare a.index b.index).isLE = true := hab
    have hbc' : (compare b.index c.index).isLE = true := hbc
    exact Std.TransCmp.isLE_trans hab' hbc'

instance : Std.LawfulEqOrd (Ident k) where
  compare_self := by
    intro a
    show compare a.index a.index = .eq
    exact Std.ReflCmp.compare_self
  eq_of_compare := by
    intro a b h
    have hab : compare a.index b.index = .eq := h
    exact congrArg Ident.mk (Std.LawfulEqCmp.eq_of_compare hab)

instance : Max (Ident k) := ⟨fun a b => ⟨max a.index b.index⟩⟩

instance : Std.Associative (max : Ident k → Ident k → Ident k) :=
  ⟨fun a b c => congrArg Ident.mk (Nat.max_assoc a.index b.index c.index)⟩

/-- The greatest of some names is one of them, and none is greater. -/
theorem mem_and_le_of_max? {ids : List (Ident k)} {id : Ident k} (h : ids.max? = some id) :
    id ∈ ids ∧ ∀ a ∈ ids, a.index ≤ id.index := by
  induction ids generalizing id with
  | nil => exact absurd h (by simp)
  | cons a ids ih =>
    rw [List.max?_cons] at h
    cases hids : ids.max? with
    | none =>
      rw [hids, Option.elim_none] at h
      obtain rfl := Option.some.inj h
      rw [List.max?_eq_none_iff.mp hids]
      exact ⟨List.mem_singleton_self _, fun b hb => Nat.le_of_eq (List.mem_singleton.mp hb ▸ rfl)⟩
    | some b =>
      obtain ⟨hb, hle⟩ := ih hids
      rw [hids, Option.elim_some] at h
      obtain rfl := Option.some.inj h
      refine ⟨?_, List.forall_mem_cons.mpr ⟨Nat.le_max_left .., fun c hc =>
        Nat.le_trans (hle c hc) (Nat.le_max_right ..)⟩⟩
      rcases Nat.le_total a.index b.index with hab | hab
      · rw [show max a b = b from congrArg Ident.mk (Nat.max_eq_right hab)]
        exact List.mem_cons_of_mem _ hb
      · rw [show max a b = a from congrArg Ident.mk (Nat.max_eq_left hab)]
        exact List.mem_cons_self ..

end Ident

/-- A finite map from names of kind `k`, in increasing order of the names. -/
abbrev IdentMap (k : Kind) (α : Type) := Std.TreeMap (Ident k) α

/-- A finite set of names of kind `k`, in increasing order. -/
abbrev IdentSet (k : Kind) := Std.TreeSet (Ident k)

namespace IdentMap

variable {k : Kind} {α : Type} (m : IdentMap k α) (id id' : Ident k)

theorem getElem?_insert (a : α) : (m.insert id a)[id']? = if id' = id then some a else m[id']? := by
  rw [Std.TreeMap.getElem?_insert]
  simp only [Std.LawfulEqCmp.compare_eq_iff_eq]
  exact ite_congr (propext eq_comm) (fun _ => rfl) fun _ => rfl

theorem getElem?_modify (f : α → α) :
    (m.modify id f)[id']? = if id' = id then m[id']?.map f else m[id']? := by
  rw [Std.TreeMap.getElem?_modify]
  simp only [Std.LawfulEqCmp.compare_eq_iff_eq]
  by_cases h : id' = id
  · rw [if_pos h.symm, if_pos h, h]
  · rw [if_neg (Ne.symm h), if_neg h]

theorem getElem?_erase : (m.erase id)[id']? = if id' = id then none else m[id']? := by
  rw [Std.TreeMap.getElem?_erase]
  simp only [Std.LawfulEqCmp.compare_eq_iff_eq]
  exact ite_congr (propext eq_comm) (fun _ => rfl) fun _ => rfl

theorem getElem?_alter (f : Option α → Option α) :
    (m.alter id f)[id']? = if id' = id then f m[id]? else m[id']? := by
  rw [Std.TreeMap.getElem?_alter]
  simp only [Std.LawfulEqCmp.compare_eq_iff_eq]
  exact ite_congr (propext eq_comm) (fun _ => rfl) fun _ => rfl

theorem mem_keys_iff : id ∈ m.keys ↔ ∃ a, m[id]? = some a := by
  rw [Std.TreeMap.mem_keys, Std.TreeMap.mem_iff_isSome_getElem?, Option.isSome_iff_exists]

theorem values_eq : m.values = m.toList.map (·.2) := by
  have hfoldr : m.values = m.foldr (fun _ a l => a :: l) [] := rfl
  rw [hfoldr, Std.TreeMap.foldr_eq_foldr_toList]
  induction m.toList with
  | nil => rfl
  | cons e l ih => rw [List.foldr_cons, ih, List.map_cons]

theorem mem_values_iff {a : α} : a ∈ m.values ↔ ∃ id : Ident k, m[id]? = some a := by
  rw [values_eq, List.mem_map]
  constructor
  · rintro ⟨⟨id, a⟩, hmem, rfl⟩
    exact ⟨id, Std.TreeMap.mem_toList_iff_getElem?_eq_some.mp hmem⟩
  · rintro ⟨id, ha⟩
    exact ⟨(id, a), Std.TreeMap.mem_toList_iff_getElem?_eq_some.mpr ha, rfl⟩

theorem increasing_keys : m.keys.Pairwise (·.index < ·.index) :=
  (Std.TreeMap.ordered_keys (t := m)).imp fun {a b} h => by
    rw [Ident.compare_def] at h
    exact Nat.compare_eq_lt.mp h

end IdentMap

/-- Two lists of names in increasing order with the same members are equal. -/
theorem eq_of_increasing {k : Kind} {l m : List (Ident k)}
    (hl : l.Pairwise fun a b => compare a b = .lt) (hm : m.Pairwise fun a b => compare a b = .lt)
    (h : ∀ a, a ∈ l ↔ a ∈ m) : l = m := by
  induction l generalizing m with
  | nil =>
    cases m with
    | nil => rfl
    | cons b m => exact absurd ((h b).mpr (List.mem_cons_self ..)) (by simp)
  | cons a l ih =>
    cases m with
    | nil => exact absurd ((h a).mp (List.mem_cons_self ..)) (by simp)
    | cons b m =>
      obtain ⟨hal, hl'⟩ := List.pairwise_cons.mp hl
      obtain ⟨hbm, hm'⟩ := List.pairwise_cons.mp hm
      -- each head is in the other list, and neither can come behind the other
      have hab : a = b := by
        rcases List.mem_cons.mp ((h a).mp (List.mem_cons_self ..)) with rfl | ha
        · rfl
        rcases List.mem_cons.mp ((h b).mpr (List.mem_cons_self ..)) with rfl | hb
        · rfl
        exact absurd (hal b hb) (Std.OrientedCmp.not_lt_of_lt (hbm a ha))
      subst hab
      refine congrArg _ (ih hl' hm' fun c => ⟨fun hc => ?_, fun hc => ?_⟩)
      · rcases List.mem_cons.mp ((h c).mp (List.mem_cons_of_mem _ hc)) with rfl | hc'
        · exact absurd (hal c hc) (by simp [Std.ReflCmp.compare_self])
        · exact hc'
      · rcases List.mem_cons.mp ((h c).mpr (List.mem_cons_of_mem _ hc)) with rfl | hc'
        · exact absurd (hbm c hc) (by simp [Std.ReflCmp.compare_self])
        · exact hc'

/-- Changing a value keeps the keys. -/
theorem keys_modify {k : Kind} {α : Type} (m : IdentMap k α) (id : Ident k) (f : α → α) :
    (m.modify id f).keys = m.keys :=
  eq_of_increasing Std.TreeMap.ordered_keys Std.TreeMap.ordered_keys fun a => by
    rw [Std.TreeMap.mem_keys, Std.TreeMap.mem_keys, Std.TreeMap.mem_modify]

end MinimalistGrammar
