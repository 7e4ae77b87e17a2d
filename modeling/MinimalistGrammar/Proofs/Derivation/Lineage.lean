import MinimalistGrammar.Derivation.Tree

/-!
# Where states come from

The parent of a state is a state with a lesser number. So the way up from a state comes to an end,
and has no more states than the tree. The lists of children say the same as the parents. So the way
down that takes the first child everywhere comes to an end as well, at a state without children.

## Main definitions

* `DerivationTree.ComesFrom` — a state comes from the states on the way up from it.
* `DerivationTree.IsOrdered` — parents are states with lesser numbers.
* `DerivationTree.IsKeyed` — states are kept under their numbers, whatever their parents are.
* `DerivationTree.IsLinked` — the lists of children say the same as the parents.

## Main results

* `DerivationTree.IsOrdered.mem_ancestors_iff`, `DerivationTree.IsOrdered.mem_branch_iff` — the way
  up has all states from which a state comes.
* `DerivationTree.IsOrdered.ancestors_eq` — the way up goes on as the way up from the parent.
* `DerivationTree.IsOrdered.parent?_of_getElem?_succ` — on a branch every state comes behind its
  parent.
* `DerivationTree.IsLinked.isTerminal_firstTerminal`,
  `DerivationTree.IsLinked.comesFrom_firstTerminal` — the way down ends at a state without children.
-/

namespace MinimalistGrammar
namespace DerivationTree

variable {t : DerivationTree} {id a b p : StateId}

/-! ### States and parents -/

theorem contains_iff : t.contains id = true ↔ ∃ s, t.state? id = some s := by
  rw [contains, Std.TreeMap.contains_eq_isSome_getElem?, Option.isSome_iff_exists]
  rfl

theorem mem_keys_states_iff : id ∈ t.states.keys ↔ t.contains id = true := by
  rw [IdentMap.mem_keys_iff, contains_iff]
  rfl

theorem contains_of_parent? (h : t.parent? id = some p) : t.contains id = true := by
  obtain ⟨s, hs, -⟩ := Option.bind_eq_some_iff.mp h
  exact contains_iff.mpr ⟨s, hs⟩

theorem isEmpty_eq_false (h : t.contains id = true) : t.isEmpty = false :=
  Std.TreeMap.isEmpty_eq_false_of_contains h

theorem contains_eq_false_of_isEmpty (h : t.isEmpty = true) : t.contains id = false :=
  Std.TreeMap.isEmpty_iff_forall_contains.mp h id

/-- A state comes from itself, and from all states from which its parent comes. -/
inductive ComesFrom (t : DerivationTree) : StateId → StateId → Prop
  | refl (id : StateId) : ComesFrom t id id
  | up {id p a : StateId} (h : t.parent? id = some p) (ha : ComesFrom t p a) : ComesFrom t id a

theorem comesFrom_iff :
    t.ComesFrom id a ↔ a = id ∨ ∃ p, t.parent? id = some p ∧ t.ComesFrom p a := by
  constructor
  · intro h
    cases h with
    | refl => exact Or.inl rfl
    | up h ha => exact Or.inr ⟨_, h, ha⟩
  · rintro (rfl | ⟨p, h, ha⟩)
    · exact .refl a
    · exact .up h ha

theorem ComesFrom.trans (h : t.ComesFrom id a) (ha : t.ComesFrom a b) : t.ComesFrom id b := by
  induction h with
  | refl => exact ha
  | up h _ ih => exact .up h (ih ha)

theorem ComesFrom.of_parent? (h : t.parent? id = some p) : t.ComesFrom id p := .up h (.refl p)

/-- Only states come from others. -/
theorem ComesFrom.contains (h : t.ComesFrom id a) (ha : t.contains a = true) :
    t.contains id = true := by
  cases h with
  | refl => exact ha
  | up h _ => exact contains_of_parent? h

/-- Where a state comes from depends on the parents alone. -/
theorem ComesFrom.of_parent?_eq {t' : DerivationTree} (h : t.ComesFrom id a)
    (hparent : ∀ b p, t.ComesFrom id b → t.parent? b = some p → t'.parent? b = some p) :
    t'.ComesFrom id a := by
  induction h with
  | refl => exact .refl _
  | @up id p a h _ ih =>
    refine .up (hparent id p (.refl id) h) (ih fun b q hb hq => ?_)
    exact hparent b q (.up h hb) hq

/-! ### The way up -/

/-- Every state is kept under its number, and its parent is a state with a lesser one. -/
structure IsOrdered (t : DerivationTree) : Prop where
  id {id : StateId} {s : SyntaxState} (h : t.state? id = some s) : s.id = id
  parent {id p : StateId} (h : t.parent? id = some p) : t.contains p = true ∧ p.index < id.index

/-- Every state is kept under its number. -/
def IsKeyed (t : DerivationTree) : Prop := ∀ id s, t.state? id = some s → s.id = id

theorem IsOrdered.isKeyed (h : t.IsOrdered) : t.IsKeyed := fun _ _ => h.id

/-- All from which a state comes are states. -/
theorem IsOrdered.contains_of_comesFrom (h : t.IsOrdered) (hid : t.contains id = true)
    (ha : t.ComesFrom id a) : t.contains a = true := by
  induction ha with
  | refl => exact hid
  | up hp _ ih => exact ih (h.parent hp).1

/-- Fewer states have a number below that of the parent, which is one of them itself. -/
theorem IsOrdered.length_filter_lt_of_parent? (h : t.IsOrdered) (hp : t.parent? id = some p) :
    (t.states.keys.filter (·.index < p.index)).length <
      (t.states.keys.filter (·.index < id.index)).length := by
  obtain ⟨hcontains, hlt⟩ := h.parent hp
  refine length_filter_lt_length_filter (fun b hb => ?_) (mem_keys_states_iff.mpr hcontains)
    (decide_eq_true hlt) (decide_eq_false (Nat.lt_irrefl _))
  exact decide_eq_true (Nat.lt_trans (of_decide_eq_true hb) hlt)

theorem length_filter_lt_size (t : DerivationTree) (id : StateId) :
    (t.states.keys.filter (·.index < id.index)).length < t.size + 1 := by
  refine Nat.lt_succ_of_le (Nat.le_trans (List.length_filter_le ..) ?_)
  exact Nat.le_of_eq Std.TreeMap.length_keys

theorem IsOrdered.mem_ancestorsWithin_iff (h : t.IsOrdered) {n : Nat}
    (hn : (t.states.keys.filter (·.index < id.index)).length < n) :
    a ∈ t.ancestorsWithin n (some id) ↔ t.ComesFrom id a := by
  induction n generalizing id with
  | zero => exact absurd hn (Nat.not_lt_zero _)
  | succ n ih =>
    rw [ancestorsWithin, List.mem_cons, comesFrom_iff]
    cases hp : t.parent? id with
    | none => simp
    | some p =>
      rw [ih (Nat.lt_of_lt_of_le (h.length_filter_lt_of_parent? hp) (Nat.le_of_lt_succ hn))]
      simp

theorem IsOrdered.mem_ancestors_iff (h : t.IsOrdered) :
    a ∈ t.ancestors id ↔ t.contains id = true ∧ t.ComesFrom id a := by
  rw [ancestors]
  split
  · next hid =>
    rw [h.mem_ancestorsWithin_iff (t.length_filter_lt_size id)]
    exact (and_iff_right hid).symm
  · next hid => simp [hid]

theorem IsOrdered.mem_branch_iff (h : t.IsOrdered) :
    a ∈ t.branch id ↔ t.contains id = true ∧ t.ComesFrom id a := by
  rw [branch, List.mem_reverse, h.mem_ancestors_iff]

/-- With steps enough for the whole way up it does not matter how many there are. -/
theorem IsOrdered.ancestorsWithin_eq (h : t.IsOrdered) {n m : Nat}
    (hn : (t.states.keys.filter (·.index < id.index)).length < n)
    (hm : (t.states.keys.filter (·.index < id.index)).length < m) :
    t.ancestorsWithin n (some id) = t.ancestorsWithin m (some id) := by
  induction n generalizing id m with
  | zero => exact absurd hn (Nat.not_lt_zero _)
  | succ n ih =>
    obtain ⟨m, rfl⟩ := Nat.exists_eq_succ_of_ne_zero (Nat.ne_zero_of_lt hm)
    rw [ancestorsWithin, ancestorsWithin]
    cases hp : t.parent? id with
    | none => rw [ancestorsWithin_none, ancestorsWithin_none]
    | some p =>
      have hfewer := h.length_filter_lt_of_parent? hp
      rw [ih (Nat.lt_of_lt_of_le hfewer (Nat.le_of_lt_succ hn))
        (Nat.lt_of_lt_of_le hfewer (Nat.le_of_lt_succ hm))]

/-- The way up from a state goes on as the way up from its parent. -/
theorem IsOrdered.ancestors_eq (h : t.IsOrdered) (hid : t.contains id = true) :
    t.ancestors id = id :: (t.parent? id).elim [] t.ancestors := by
  rw [ancestors, if_pos hid, ancestorsWithin]
  congr 1
  cases hp : t.parent? id with
  | none => exact ancestorsWithin_none ..
  | some p =>
    rw [Option.elim_some, ancestors, if_pos (h.parent hp).1]
    refine h.ancestorsWithin_eq ?_ (t.length_filter_lt_size p)
    exact Nat.lt_of_lt_of_le (h.length_filter_lt_of_parent? hp)
      (Nat.le_of_lt_succ (t.length_filter_lt_size id))

/-- What holds of a state as soon as it holds of its parent holds of all states. -/
theorem IsOrdered.induction {P : StateId → Prop} (h : t.IsOrdered)
    (hstep : ∀ id, t.contains id = true → (∀ p, t.parent? id = some p → P p) → P id)
    (hid : t.contains id = true) : P id := by
  induction hn : id.index using Nat.strongRecOn generalizing id with
  | ind n ih =>
    refine hstep id hid fun p hp => ?_
    obtain ⟨hcontains, hlt⟩ := h.parent hp
    exact ih p.index (hn ▸ hlt) hcontains rfl

theorem IsOrdered.index_le_of_comesFrom (h : t.IsOrdered) (ha : t.ComesFrom id a) :
    a.index ≤ id.index := by
  induction ha with
  | refl => exact Nat.le_refl _
  | up hp _ ih => exact Nat.le_trans ih (Nat.le_of_lt (h.parent hp).2)

/-- On the way up the numbers decrease. -/
theorem IsOrdered.decreasing_ancestors (h : t.IsOrdered) (hid : t.contains id = true) :
    (t.ancestors id).Pairwise (fun a b => b.index < a.index) := by
  refine h.induction (P := fun id => (t.ancestors id).Pairwise _) (fun id hid ih => ?_) hid
  rw [h.ancestors_eq hid]
  cases hp : t.parent? id with
  | none => exact List.pairwise_singleton ..
  | some p =>
    refine List.pairwise_cons.mpr ⟨fun a ha => ?_, ih p hp⟩
    exact Nat.lt_of_le_of_lt (h.index_le_of_comesFrom (h.mem_ancestors_iff.mp ha).2) (h.parent hp).2

/-- The branch to a state is the one to its parent with the state itself. -/
theorem IsOrdered.branch_eq (h : t.IsOrdered) (hid : t.contains id = true) :
    t.branch id = (t.parent? id).elim [] t.branch ++ [id] := by
  rw [branch, h.ancestors_eq hid, List.reverse_cons]
  cases t.parent? id <;> rfl

theorem IsOrdered.getLast?_branch (h : t.IsOrdered) (hid : t.contains id = true) :
    (t.branch id).getLast? = some id := by
  rw [h.branch_eq hid, List.getLast?_concat]

/-- Down a branch the numbers increase. -/
theorem IsOrdered.increasing_branch (h : t.IsOrdered) (hid : t.contains id = true) :
    (t.branch id).Pairwise (·.index < ·.index) :=
  List.pairwise_reverse.mpr (h.decreasing_ancestors hid)

theorem IsOrdered.nodup_branch (h : t.IsOrdered) (hid : t.contains id = true) :
    (t.branch id).Nodup :=
  (h.increasing_branch hid).imp fun {a b} (hlt : a.index < b.index) heq => Nat.ne_of_lt hlt
    (congrArg _ heq)

/-- A branch begins with a state without a parent. -/
theorem IsOrdered.parent?_of_getElem?_zero (h : t.IsOrdered) (hid : t.contains id = true)
    (ha : (t.branch id)[0]? = some a) : t.parent? a = none := by
  refine h.induction (P := fun id => (t.branch id)[0]? = some a → t.parent? a = none)
    (fun id hid ih ha => ?_) hid ha
  rw [h.branch_eq hid] at ha
  cases hp : t.parent? id with
  | none =>
    rw [hp] at ha
    obtain rfl := Option.some.inj ha
    exact hp
  | some p =>
    have hne : 0 < (t.branch p).length := List.length_pos_of_mem
      (h.mem_branch_iff.mpr ⟨(h.parent hp).1, .refl p⟩)
    rw [hp, Option.elim_some, List.getElem?_append_left hne] at ha
    exact ih p hp ha

/-- On a branch every state comes behind its parent. -/
theorem IsOrdered.parent?_of_getElem?_succ (h : t.IsOrdered) (hid : t.contains id = true) {k : Nat}
    (ha : (t.branch id)[k + 1]? = some a) : t.parent? a = (t.branch id)[k]? := by
  refine h.induction
    (P := fun id => (t.branch id)[k + 1]? = some a → t.parent? a = (t.branch id)[k]?)
    (fun id hid ih ha => ?_) hid ha
  rw [h.branch_eq hid] at ha ⊢
  cases hp : t.parent? id with
  | none =>
    rw [hp] at ha
    exact absurd ha (by simp)
  | some p =>
    rw [hp, Option.elim_some] at ha
    rw [Option.elim_some]
    rcases Nat.lt_or_ge (k + 1) (t.branch p).length with hlt | hle
    · rw [List.getElem?_append_left hlt] at ha
      rw [List.getElem?_append_left (Nat.lt_of_succ_lt hlt)]
      exact ih p hp ha
    · -- only the state itself comes behind the branch to its parent
      rw [List.getElem?_append_right hle, List.getElem?_singleton] at ha
      obtain ⟨hk, heq⟩ := Option.ite_none_right_eq_some.mp ha
      obtain rfl := Option.some.inj heq
      have hlength : (t.branch p).length = k + 1 := Nat.le_antisymm hle (Nat.le_of_sub_eq_zero hk)
      rw [hp, List.getElem?_append_left (by omega), ← h.getLast?_branch (h.parent hp).1,
        List.getLast?_eq_getElem?, hlength]
      rfl

/-- The first state of some kind on the way up comes from all others of that kind. -/
theorem IsOrdered.find?_ancestors (h : t.IsOrdered) (hid : t.contains id = true)
    {q : StateId → Bool} (hfind : (t.ancestors id).find? q = some a) :
    t.ComesFrom id a ∧ ∀ b, t.ComesFrom id b → q b = true → t.ComesFrom a b := by
  refine h.induction (P := fun id => (t.ancestors id).find? q = some a →
    t.ComesFrom id a ∧ ∀ b, t.ComesFrom id b → q b = true → t.ComesFrom a b)
    (fun id hid ih hfind => ?_) hid hfind
  rw [h.ancestors_eq hid, List.find?_cons] at hfind
  split at hfind
  · obtain rfl := Option.some.inj hfind
    exact ⟨.refl id, fun b hb _ => hb⟩
  · next hq =>
    cases hp : t.parent? id with
    | none =>
      rw [hp] at hfind
      exact absurd hfind (by simp)
    | some p =>
      rw [hp] at hfind
      obtain ⟨hcomes, hothers⟩ := ih p hp hfind
      refine ⟨.up hp hcomes, fun b hb hqb => ?_⟩
      rcases comesFrom_iff.mp hb with rfl | ⟨p', hp', hb⟩
      · exact absurd (hqb.symm.trans hq) (by simp)
      · obtain rfl := Option.some.inj (hp.symm.trans hp')
        exact hothers b hb hqb

/-! ### The way down -/

/-- The lists of children say the same as the parents: every state has a list, in which the states
come whose parent it is, in increasing order. -/
structure IsLinked (t : DerivationTree) : Prop extends IsOrdered t where
  listed (id : StateId) : t.children.contains id = t.contains id
  increasing (p : StateId) : (t.childrenOf p).Pairwise (·.index < ·.index)
  mem_childrenOf_iff {p id : StateId} : id ∈ t.childrenOf p ↔ t.parent? id = some p

theorem IsLinked.firstTerminalWithin_spec (h : t.IsLinked) {n : Nat}
    (hn : (t.children.keys.filter (id.index < ·.index)).length ≤ n) :
    t.isTerminal (t.firstTerminalWithin n id) = true ∧
      t.ComesFrom (t.firstTerminalWithin n id) id := by
  -- a child is among those with a list and a greater number
  have hchild {id child : StateId} {rest : List StateId} (hc : t.childrenOf id = child :: rest) :
      t.parent? child = some id ∧ id.index < child.index ∧ child ∈ t.children.keys := by
    have hp := h.mem_childrenOf_iff.mp (hc ▸ List.mem_cons_self ..)
    refine ⟨hp, (h.parent hp).2, Std.TreeMap.mem_keys.mpr (Std.TreeMap.contains_iff_mem.mp ?_)⟩
    rw [h.listed, contains_of_parent? hp]
  induction n generalizing id with
  | zero =>
    refine ⟨?_, .refl id⟩
    rw [firstTerminalWithin, isTerminal, List.isEmpty_iff]
    cases hc : t.childrenOf id with
    | nil => rfl
    | cons child rest =>
      obtain ⟨-, hlt, hmem⟩ := hchild hc
      have hnil := List.eq_nil_of_length_eq_zero (Nat.le_zero.mp hn)
      exact absurd (hnil ▸ List.mem_filter.mpr ⟨hmem, decide_eq_true hlt⟩) (by simp)
  | succ n ih =>
    rw [firstTerminalWithin]
    split
    · next hc => exact ⟨List.isEmpty_iff.mpr hc, .refl id⟩
    · next child rest hc =>
      obtain ⟨hp, hlt, hmem⟩ := hchild hc
      have hfewer : (t.children.keys.filter (child.index < ·.index)).length <
          (t.children.keys.filter (id.index < ·.index)).length := by
        refine length_filter_lt_length_filter (fun b hb => ?_) hmem (decide_eq_true hlt)
          (decide_eq_false (Nat.lt_irrefl _))
        exact decide_eq_true (Nat.lt_trans hlt (of_decide_eq_true hb))
      obtain ⟨hterminal, hcomes⟩ := ih (Nat.le_of_lt_succ (Nat.lt_of_lt_of_le hfewer hn))
      exact ⟨hterminal, hcomes.trans (.of_parent? hp)⟩

theorem IsLinked.firstTerminal_spec (h : t.IsLinked) (id : StateId) :
    t.isTerminal (t.firstTerminal id) = true ∧ t.ComesFrom (t.firstTerminal id) id := by
  refine h.firstTerminalWithin_spec (Nat.le_trans (List.length_filter_le ..) ?_)
  exact Nat.le_of_eq Std.TreeMap.length_keys

/-- The way down ends at a state without children. -/
theorem IsLinked.isTerminal_firstTerminal (h : t.IsLinked) (id : StateId) :
    t.isTerminal (t.firstTerminal id) = true :=
  (h.firstTerminal_spec id).1

/-- The end of the way down comes from where the way began. -/
theorem IsLinked.comesFrom_firstTerminal (h : t.IsLinked) (id : StateId) :
    t.ComesFrom (t.firstTerminal id) id :=
  (h.firstTerminal_spec id).2

theorem IsLinked.contains_firstTerminal (h : t.IsLinked) (hid : t.contains id = true) :
    t.contains (t.firstTerminal id) = true :=
  (h.comesFrom_firstTerminal id).contains hid

theorem IsLinked.mem_branch_firstTerminal (h : t.IsLinked) (hid : t.contains id = true) :
    id ∈ t.branch (t.firstTerminal id) :=
  h.mem_branch_iff.mpr ⟨h.contains_firstTerminal hid, h.comesFrom_firstTerminal id⟩

end DerivationTree
end MinimalistGrammar
