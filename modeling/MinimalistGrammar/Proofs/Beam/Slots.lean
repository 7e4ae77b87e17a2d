import MinimalistGrammar.Address

/-!
# Places in the surface order

Where phrases are pronounced is told by addresses. Two places are apart if their ways part
somewhere; the one that goes left there is before the other. Places that are pairwise apart are in
one order, which is their order as addresses, and dividing one of them into its left and right part
does not change where it stands among the others.

## Main definitions

* `Address.Before`, `Address.Apart` — the order of places.
* `Arranges` — some words are those of some pieces, put in the order of their places.

## Main results

* `Address.Apart.before_of_isLE` — of two places that are apart, the lesser address is before the
  other.
* `arranges_split` — a piece may be divided into its left and right part.
* `arranges_cons_iff` — the first piece has the first words.
-/

namespace MinimalistGrammar
namespace Address

variable {a b i o : Address}

/-- The ways to two places part, and the one to `a` goes left there. -/
def Before (a b : Address) : Prop :=
  ∃ common left right, a.branches = common ++ .left :: left ∧ b.branches = common ++ .right :: right

/-- The ways to two places part. -/
def Apart (a b : Address) : Prop := a.Before b ∨ b.Before a

theorem Apart.symm (h : a.Apart b) : b.Apart a := Or.symm h

/-! ### The order of addresses -/

theorem compare_eq (a b : Address) : compare a b = compare a.branches b.branches := rfl

theorem compare_append (common left right : List Branch) :
    compare (common ++ left) (common ++ right) = compare left right := by
  induction common with
  | nil => rfl
  | cons c common ih =>
    rw [List.cons_append, List.cons_append, List.compare_cons_cons, ih]
    simp

theorem Before.compare_eq_lt (h : a.Before b) : compare a b = .lt := by
  obtain ⟨common, left, right, ha, hb⟩ := h
  rw [compare_eq, ha, hb, compare_append, List.compare_cons_cons]
  rfl

theorem Before.not_before (h : a.Before b) : ¬b.Before a := fun h' =>
  absurd h.compare_eq_lt (Std.OrientedCmp.not_lt_of_lt h'.compare_eq_lt)

theorem Before.not_begins (h : a.Before b) : ¬b.branches <+: a.branches := by
  rintro ⟨rest, hrest⟩
  obtain ⟨common, left, right, ha, hb⟩ := h
  rw [ha, hb, List.append_assoc, List.append_cancel_left_eq] at hrest
  exact absurd (List.cons.inj hrest).1 (by decide)

/-- Of two places that are apart, neither is above the other. -/
theorem Apart.not_begins (h : a.Apart b) : ¬a.branches <+: b.branches := by
  rcases h with h | h
  · rintro ⟨rest, hrest⟩
    obtain ⟨common, left, right, ha, hb⟩ := h
    rw [ha, hb, List.append_assoc, List.append_cancel_left_eq] at hrest
    exact absurd (List.cons.inj hrest).1 (by decide)
  · exact h.not_begins

/-- Of two places that are apart, the lesser address is before the other. -/
theorem Apart.before_of_isLE (h : a.Apart b) (hle : (compare a b).isLE) : a.Before b := by
  rcases h with h | h
  · exact h
  · have hgt := Std.OrientedCmp.gt_of_lt h.compare_eq_lt
    rw [hgt] at hle
    exact absurd hle (by decide)

/-! ### Places one branch below -/

theorem child_inj {side side' : Branch} :
    a.child side = b.child side' ↔ a = b ∧ side = side' := by
  cases a
  cases b
  simp [child]

theorem before_left_right (i : Address) : i.left.Before i.right :=
  ⟨i.branches, [], [], rfl, rfl⟩

theorem Before.child_left (h : a.Before b) (side : Branch) : (a.child side).Before b := by
  obtain ⟨common, left, right, ha, hb⟩ := h
  exact ⟨common, left ++ [side], right, by rw [child, ha, List.append_assoc]; rfl, hb⟩

theorem Before.child_right (h : a.Before b) (side : Branch) : a.Before (b.child side) := by
  obtain ⟨common, left, right, ha, hb⟩ := h
  exact ⟨common, left, right ++ [side], ha, by rw [child, hb, List.append_assoc]; rfl⟩

theorem Apart.child (h : a.Apart b) (side : Branch) : (a.child side).Apart b :=
  h.imp (·.child_left side) (·.child_right side)

/-- A way parts from another one at its last branch or before. -/
theorem append_singleton_eq {way common rest : List Branch} {last branch : Branch}
    (h : way ++ [last] = common ++ branch :: rest) :
    (way = common ∧ last = branch ∧ rest = []) ∨ ∃ rest', way = common ++ branch :: rest' := by
  rcases List.eq_nil_or_concat rest with rfl | ⟨rest', _, rfl⟩
  · obtain ⟨hway, hlast⟩ := List.append_inj' h rfl
    exact Or.inl ⟨hway, (List.cons.inj hlast).1, rfl⟩
  · rw [List.concat_eq_append, ← List.cons_append, ← List.append_assoc] at h
    exact Or.inr ⟨rest', List.append_inj_left' h rfl⟩

/-- What is before a left part is before the whole. -/
theorem Before.of_left (h : o.Before i.left) : o.Before i := by
  obtain ⟨common, left, right, ho, hi⟩ := h
  rcases append_singleton_eq hi with ⟨-, hlast, -⟩ | ⟨right', hi'⟩
  · exact absurd hlast (by decide)
  · exact ⟨common, left, right', ho, hi'⟩

/-- What is behind a right part is behind the whole. -/
theorem Before.of_right (h : i.right.Before o) : i.Before o := by
  obtain ⟨common, left, right, hi, ho⟩ := h
  rcases append_singleton_eq hi with ⟨-, hlast, -⟩ | ⟨left', hi'⟩
  · exact absurd hlast (by decide)
  · exact ⟨common, left', right, hi', ho⟩

/-- Nothing is between a left part and the right part beside it. -/
theorem Before.not_before_right (h : i.left.Before o) : ¬o.Before i.right := by
  intro h'
  obtain ⟨common, left, right, hi, ho⟩ := h
  rcases append_singleton_eq hi with ⟨rfl, -, -⟩ | ⟨left', hi'⟩
  · -- then the right part is above the other place
    refine h'.not_begins ⟨right, ?_⟩
    rw [ho, Address.right, Address.child, List.append_assoc]
    rfl
  · have hbefore : i.Before o := ⟨common, left', right, hi', ho⟩
    exact (hbefore.child_left .right).not_before h'

/-! ### The least of some places -/

theorem isLE_least_left (a b : Address) : (compare (a.least b) a).isLE := by
  rw [least]
  split
  · next h => exact Ordering.isLE_of_eq_lt (Ordering.isLT_iff_eq_lt.mp h)
  · exact Std.ReflCmp.isLE_rfl

theorem isLE_least_right (a b : Address) : (compare (a.least b) b).isLE := by
  rw [least]
  split
  · exact Std.ReflCmp.isLE_rfl
  · next h =>
    refine Std.OrientedCmp.isLE_of_isGE ?_
    cases hba : compare b a <;> simp_all

theorem isLE_foldr_least {places : List Address} (ho : o ∈ i :: places) :
    (compare (places.foldr least i) o).isLE := by
  induction places with
  | nil =>
    obtain rfl := List.mem_singleton.mp ho
    exact Std.ReflCmp.isLE_rfl
  | cons p places ih =>
    rw [List.foldr_cons]
    have hrest (hq : o ∈ i :: places) : (compare (p.least (places.foldr least i)) o).isLE :=
      Std.TransCmp.isLE_trans (isLE_least_right ..) (ih hq)
    rcases List.mem_cons.mp ho with rfl | ho
    · exact hrest (List.mem_cons_self ..)
    · rcases List.mem_cons.mp ho with rfl | ho
      · exact isLE_least_left ..
      · exact hrest (List.mem_cons_of_mem _ ho)

end Address

/-! ### Pieces in order -/

/-- Some words and the place where they are pronounced. -/
abbrev Piece := Address × List String

/-- The words are those of the pieces in the order of their places, which are pairwise apart. -/
def Arranges (pieces : List Piece) (words : List String) : Prop :=
  ∃ sorted : List Piece, sorted.Perm pieces ∧ (sorted.Pairwise fun p q => p.1.Before q.1) ∧
    sorted.flatMap (·.2) = words

theorem arranges_nil {words : List String} : Arranges [] words ↔ words = [] := by
  constructor
  · rintro ⟨sorted, hperm, -, rfl⟩
    rw [hperm.eq_nil]
    rfl
  · rintro rfl
    exact ⟨[], List.Perm.refl _, List.Pairwise.nil, rfl⟩

theorem arranges_congr {pieces pieces' : List Piece} (h : pieces.Perm pieces')
    (words : List String) : Arranges pieces words ↔ Arranges pieces' words :=
  exists_congr fun _ => and_congr_left fun _ => ⟨(·.trans h), (·.trans h.symm)⟩

theorem pairwise_append_cons_iff {α : Type} {R : α → α → Prop} {before behind : List α} {a : α} :
    (before ++ a :: behind).Pairwise R ↔
      (before ++ behind).Pairwise R ∧ (∀ x ∈ before, R x a) ∧ ∀ x ∈ behind, R a x := by
  simp only [List.pairwise_append, List.pairwise_cons, List.mem_cons, forall_eq_or_imp]
  constructor
  · rintro ⟨hbefore, ⟨hnext, hbehind⟩, hcross⟩
    exact ⟨⟨hbefore, hbehind, fun x hx => (hcross x hx).2⟩, fun x hx => (hcross x hx).1, hnext⟩
  · rintro ⟨⟨hbefore, hbehind, hcross⟩, hlast, hnext⟩
    exact ⟨hbefore, ⟨hnext, hbehind⟩, fun x hx => ⟨hlast x hx, hcross x hx⟩⟩

/-- A piece divides the others into those before it and those behind it. -/
theorem exists_of_perm_cons {p : Piece} {sorted rest : List Piece} (h : sorted.Perm (p :: rest)) :
    ∃ before behind, sorted = before ++ p :: behind ∧ (before ++ behind).Perm rest := by
  obtain ⟨before, behind, rfl⟩ := List.append_of_mem (h.mem_iff.mpr (List.mem_cons_self ..))
  exact ⟨before, behind, rfl, (List.perm_cons _).mp (List.perm_middle.symm.trans h)⟩

/-- A piece may be divided into its left and right part. -/
theorem arranges_split (i : Address) (u v : List String) (rest : List Piece)
    (words : List String) :
    Arranges ((i, u ++ v) :: rest) words ↔
      Arranges ((i.left, u) :: (i.right, v) :: rest) words := by
  constructor
  · rintro ⟨sorted, hperm, hsorted, rfl⟩
    obtain ⟨before, behind, rfl, hrest⟩ := exists_of_perm_cons hperm
    obtain ⟨hothers, hbefore, hbehind⟩ := pairwise_append_cons_iff.mp hsorted
    refine ⟨before ++ (i.left, u) :: (i.right, v) :: behind, ?_, ?_, by simp⟩
    · exact List.perm_middle.trans ((List.perm_middle.trans (hrest.cons _)).cons _)
    · refine pairwise_append_cons_iff.mpr ⟨pairwise_append_cons_iff.mpr ⟨hothers, ?_, ?_⟩, ?_, ?_⟩
      · exact fun p hp => (hbefore p hp).child_right .right
      · exact fun p hp => (hbehind p hp).child_left .right
      · exact fun p hp => (hbefore p hp).child_right .left
      · intro p hp
        rcases List.mem_cons.mp hp with rfl | hp
        · exact i.before_left_right
        · exact (hbehind p hp).child_left .left
  · rintro ⟨sorted, hperm, hsorted, rfl⟩
    obtain ⟨before, behind, rfl, hrest⟩ := exists_of_perm_cons hperm
    obtain ⟨hothers, hbefore, hbehind⟩ := pairwise_append_cons_iff.mp hsorted
    -- the right part comes behind the left one
    have hright : (i.right, v) ∈ behind := by
      rcases List.mem_append.mp (hrest.mem_iff.mpr (List.mem_cons_self ..)) with hmem | hmem
      · exact absurd (hbefore _ hmem) i.before_left_right.not_before
      · exact hmem
    obtain ⟨between, behind, rfl⟩ := List.append_of_mem hright
    rw [← List.append_assoc] at hothers hrest
    obtain ⟨hothers, hbefore', hbehind'⟩ := pairwise_append_cons_iff.mp hothers
    -- and nothing comes between them
    have hbetween : between = [] := by
      refine List.eq_nil_iff_forall_not_mem.mpr fun p hp => ?_
      have hp' : p ∈ between ++ (i.right, v) :: behind := List.mem_append_left _ hp
      exact (hbehind p hp').not_before_right (hbefore' p (List.mem_append_right _ hp))
    subst hbetween
    rw [List.append_nil] at hothers hrest
    refine ⟨before ++ (i, u ++ v) :: behind, ?_, ?_, by simp⟩
    · have hrest' : (before ++ behind).Perm rest :=
        (List.perm_cons _).mp (List.perm_middle.symm.trans hrest)
      exact List.perm_middle.trans (hrest'.cons _)
    · refine pairwise_append_cons_iff.mpr ⟨hothers, ?_, ?_⟩
      · exact fun p hp => (hbefore p hp).of_left
      · exact fun p hp => (hbehind' p hp).of_right

/-- The first piece has the first words. -/
theorem arranges_cons_iff {i : Address} {u : List String} {rest : List Piece}
    (hfirst : ∀ p ∈ rest, i.Before p.1) {words : List String} :
    Arranges ((i, u) :: rest) words ↔ ∃ others, words = u ++ others ∧ Arranges rest others := by
  constructor
  · rintro ⟨sorted, hperm, hsorted, rfl⟩
    obtain ⟨before, behind, rfl, hrest⟩ := exists_of_perm_cons hperm
    obtain ⟨hothers, hbefore, -⟩ := pairwise_append_cons_iff.mp hsorted
    have hnil : before = [] := by
      refine List.eq_nil_iff_forall_not_mem.mpr fun p hp => ?_
      have hp' : p ∈ rest := hrest.mem_iff.mp (List.mem_append_left _ hp)
      exact (hfirst p hp').not_before (hbefore p hp)
    subst hnil
    exact ⟨behind.flatMap (·.2), rfl, behind, hrest, hothers, rfl⟩
  · rintro ⟨others, rfl, sorted, hperm, hsorted, rfl⟩
    refine ⟨(i, u) :: sorted, hperm.cons _, List.pairwise_cons.mpr ⟨?_, hsorted⟩, rfl⟩
    exact fun p hp => hfirst p (hperm.mem_iff.mp hp)

end MinimalistGrammar
