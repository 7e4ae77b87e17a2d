import Mathlib.Data.List.Rotate
import MinimalistGrammar.Proofs.Derivation.Evolution

/-!
# Walking through a derivation tree

The cursor is always at some place of the active branch. One step down or up takes it to the next
place or the previous one, and the branch stays active; so the one undoes the other, and steps down
from the root visit the branch from one end to the other. The active branch in turn has a place
among all branches. Going to the next or the previous one takes it around the circle of branches, in
which every branch is met once.

## Main definitions

* `DerivationTree.StandsAt` — the cursor is at some place of a branch.
* `DerivationTree.EndsAt` — the active branch has some place among all branches.
* `DerivationTree.IsWalkable` — how one gets around in a tree.

## Main results

* `DerivationTree.isWalkable_of_evolves` — however a tree has evolved from a new one, one gets
  around in it.
-/

namespace MinimalistGrammar
namespace DerivationTree

variable {t u : DerivationTree} {id a b : StateId} {i j k : Nat}

/-! ### Steps along a branch -/

/-- In a list without repetitions the successor is what has the next place. -/
theorem successor?_eq {ids : List StateId} (hnodup : ids.Nodup) (hk : ids[k]? = some id) :
    successor? id ids = ids[k + 1]? := by
  induction ids generalizing k with
  | nil => exact absurd hk (by simp)
  | cons c ids ih =>
    obtain ⟨hc, hnodup⟩ := List.nodup_cons.mp hnodup
    rw [successor?]
    cases k with
    | zero =>
      obtain rfl := Option.some.inj hk
      rw [if_pos (beq_self_eq_true c), List.getElem?_cons_succ, List.head?_eq_getElem?]
    | succ k =>
      rw [List.getElem?_cons_succ] at hk
      have hne : c ≠ id := fun heq => hc (heq ▸ List.mem_of_getElem? hk)
      rw [if_neg (by simpa using hne), ih hnodup hk, List.getElem?_cons_succ]

theorem onActive_iff : t.onActive id = true ↔ ∃ a, t.active = some a ∧ id ∈ t.branch a := by
  simp only [onActive, Option.any_eq_true, List.contains_iff_mem, branch, List.mem_reverse]

/-- When the cursor goes to a state of the active branch, the branch stays active. -/
theorem goTo_of_mem_branch (hid : t.contains id = true) (ha : t.active = some a)
    (hmem : id ∈ t.branch a) :
    t.goTo (some id) = ({ t with current := some id }.notify (.jumped id), some id) := by
  rw [goTo_of_contains hid, moveTo, if_pos (onActive_iff.mpr ⟨a, ha, hmem⟩)]

/-- In a tree with the states of `t` the cursor is at place `k` of the branch to `a`, which is
active. -/
structure StandsAt (t u : DerivationTree) (a : StateId) (k : Nat) : Prop where
  states : u.states = t.states
  active : u.active = some a
  lt : k < (t.branch a).length
  current : u.current = (t.branch a)[k]?

namespace StandsAt

theorem exists_current (h : t.StandsAt u a k) :
    ∃ id, u.current = some id ∧ (t.branch a)[k]? = some id := by
  have hid := List.getElem?_eq_getElem h.lt
  exact ⟨_, h.current.trans hid, hid⟩

theorem previousStep_eq (h : t.StandsAt u a k) :
    u.previousStep = u.goTo (((t.branch a)[k]?).bind t.parent?) := by
  obtain ⟨id, hcurrent, hid⟩ := h.exists_current
  have hstate : u.state? id = t.state? id := by rw [state?, h.states, state?]
  rw [DerivationTree.previousStep, currentState?, hcurrent, hid, Option.bind_some, hstate]
  rfl

variable (ht : t.IsOrdered) (ha : t.contains a = true)

include ht ha

/-- From one place of the active branch one goes to any other one, and the branch stays active. -/
theorem goTo (h : t.StandsAt u a k) (hj : j < (t.branch a).length) :
    (u.goTo (t.branch a)[j]?).2 = (t.branch a)[j]? ∧
      t.StandsAt (u.goTo (t.branch a)[j]?).1 a j := by
  obtain ⟨id, hid⟩ : ∃ id, (t.branch a)[j]? = some id := ⟨_, List.getElem?_eq_getElem hj⟩
  obtain ⟨-, hcomes⟩ := ht.mem_branch_iff.mp (List.mem_of_getElem? hid)
  have hcontains : u.contains id = true := by
    rw [contains, h.states]
    exact ht.contains_of_comesFrom ha hcomes
  rw [hid,
    goTo_of_mem_branch hcontains h.active (branch_congr h.states a ▸ List.mem_of_getElem? hid)]
  exact ⟨rfl, h.states, h.active, hj, hid.symm⟩

theorem nextStep_eq (h : t.StandsAt u a k) : u.nextStep = u.goTo (t.branch a)[k + 1]? := by
  obtain ⟨id, hcurrent, hid⟩ := h.exists_current
  rw [DerivationTree.nextStep, hcurrent, h.active]
  show u.goTo (successor? id (u.branch a)) = _
  rw [branch_congr h.states, successor?_eq (ht.nodup_branch ha) hid]

/-- A step down goes to the next place, if there is one. -/
theorem nextStep (h : t.StandsAt u a k) (hk : k + 1 < (t.branch a).length) :
    u.nextStep.2 = (t.branch a)[k + 1]? ∧ t.StandsAt u.nextStep.1 a (k + 1) := by
  rw [h.nextStep_eq ht ha]
  exact h.goTo ht ha hk

theorem nextStep_snd (h : t.StandsAt u a k) : u.nextStep.2 = (t.branch a)[k + 1]? := by
  rcases Nat.lt_or_ge (k + 1) (t.branch a).length with hk | hk
  · exact (h.nextStep ht ha hk).1
  · rw [h.nextStep_eq ht ha, List.getElem?_eq_none hk]
    rfl

/-- At the first place there is no step up. -/
theorem previousStep_zero (h : t.StandsAt u a 0) : u.previousStep.2 = none := by
  obtain ⟨id, -, hid⟩ := h.exists_current
  rw [h.previousStep_eq, hid, Option.bind_some, ht.parent?_of_getElem?_zero ha hid]
  rfl

/-- A step up goes to the previous place. -/
theorem previousStep_succ (h : t.StandsAt u a (k + 1)) :
    u.previousStep.2 = (t.branch a)[k]? ∧ t.StandsAt u.previousStep.1 a k := by
  obtain ⟨id, -, hid⟩ := h.exists_current
  rw [h.previousStep_eq, hid, Option.bind_some, ht.parent?_of_getElem?_succ ha hid]
  exact h.goTo ht ha (Nat.lt_of_succ_lt h.lt)

/-- To the root of the active branch. -/
theorem firstStep (h : t.StandsAt u a k) :
    u.firstStep.2 = (t.branch a)[0]? ∧ t.StandsAt u.firstStep.1 a 0 := by
  rw [DerivationTree.firstStep, h.active, Option.bind_some, branch_congr h.states,
    List.head?_eq_getElem?]
  exact h.goTo ht ha (Nat.zero_lt_of_lt h.lt)

/-- Steps down go from place to place. -/
theorem nextSteps (h : t.StandsAt u a 0) (hk : k < (t.branch a).length) :
    t.StandsAt ((·.nextStep.1)^[k] u) a k := by
  induction k with
  | zero => exact h
  | succ k ih =>
    rw [Function.iterate_succ_apply']
    exact ((ih (Nat.lt_of_succ_lt hk)).nextStep ht ha hk).2

/-- There is no step down exactly at the end of the branch. -/
theorem nextStep_eq_none_iff (h : t.StandsAt u a k) : u.nextStep.2 = none ↔ u.current = some a := by
  have hlast := ht.getLast?_branch ha
  rw [List.getLast?_eq_getElem?] at hlast
  rw [h.nextStep_snd ht ha, List.getElem?_eq_none_iff, h.current, ← hlast,
    List.getElem?_inj h.lt (ht.nodup_branch ha)]
  have hlt := h.lt
  omega

end StandsAt

/-- Where the cursor of a consistent tree is. -/
theorem IsAt.exists_standsAt (h : t.IsAt id a) : ∃ k, t.StandsAt t a k := by
  obtain ⟨k, hk, hid⟩ := List.mem_iff_getElem.mp h.mem_branch
  exact ⟨k, rfl, h.active_eq, hk, h.current_eq.trans (hid ▸ (List.getElem?_eq_getElem hk).symm)⟩

/-! ### Branches in turn -/

theorem nodup_branches (t : DerivationTree) : t.branches.Nodup :=
  ((IdentMap.increasing_keys t.states).imp fun {a b} (hlt : a.index < b.index) heq =>
    Nat.ne_of_lt hlt (congrArg _ heq)).filter _

theorem branches_congr (hstates : u.states = t.states) (hchildren : u.children = t.children) :
    u.branches = t.branches := by
  have hterminal : u.isTerminal = t.isTerminal := by
    funext id
    rw [isTerminal, childrenOf, hchildren]
    rfl
  rw [branches, hstates, hterminal, branches]

/-- In a tree with the states of `t` the active branch has place `i` among all branches. -/
structure EndsAt (t u : DerivationTree) (i : Nat) : Prop where
  states : u.states = t.states
  children : u.children = t.children
  lt : i < t.branches.length
  active : u.active = t.branches[i]?

namespace EndsAt

/-- Another branch becomes active, and the cursor goes to its end. -/
theorem cycle (ht : t.IsOrdered) (h : t.EndsAt u i) {choose : Nat → Nat → Nat}
    (hj : choose i t.branches.length = j) (hlt : j < t.branches.length) :
    (u.cycle choose).2 = t.branches[j]? ∧ (u.cycle choose).1.current = t.branches[j]? ∧
      t.EndsAt (u.cycle choose).1 j := by
  obtain ⟨a, ha⟩ : ∃ a, t.branches[i]? = some a := ⟨_, List.getElem?_eq_getElem h.lt⟩
  obtain ⟨b, hb⟩ : ∃ b, t.branches[j]? = some b := ⟨_, List.getElem?_eq_getElem hlt⟩
  have hbranches : u.branches = t.branches := branches_congr h.states h.children
  have hindex : t.branches.idxOf? a = some i := by
    obtain ⟨hi, rfl⟩ := List.getElem?_eq_some_iff.mp ha
    refine List.idxOf?_eq_some_iff.mpr ⟨hi, rfl, fun k hk heq => ?_⟩
    exact Nat.ne_of_lt hk ((t.nodup_branches).getElem_inj_iff.mp heq)
  have hcontains := (mem_branches_iff.mp (List.mem_of_getElem? hb)).1
  -- the new branch is active before the cursor goes to its end, so it stays active
  have hgoes : u.cycle choose = { u with active := some b }.goTo (some b) := by
    rw [DerivationTree.cycle, hbranches, h.active, ha, Option.bind_some, hindex]
    simp only [Option.elim_some, hj, hb]
  have hstates : ({ u with active := some b } : DerivationTree).states = t.states := h.states
  have hcontains' : ({ u with active := some b } : DerivationTree).contains b = true := by
    rw [contains, hstates]
    exact hcontains
  have hmem : b ∈ ({ u with active := some b } : DerivationTree).branch b := by
    rw [branch_congr hstates]
    exact ht.mem_branch_iff.mpr ⟨hcontains, .refl b⟩
  rw [hgoes, goTo_of_mem_branch hcontains' rfl hmem, hb]
  exact ⟨rfl, rfl, h.states, h.children, hlt, hb.symm⟩

/-- The next branch, the first one being next after the last. -/
theorem nextParse (ht : t.IsOrdered) (h : t.EndsAt u i) :
    u.nextParse.2 = t.branches[(i + 1) % t.branches.length]? ∧
      u.nextParse.1.current = t.branches[(i + 1) % t.branches.length]? ∧
        t.EndsAt u.nextParse.1 ((i + 1) % t.branches.length) :=
  h.cycle ht rfl (Nat.mod_lt _ (Nat.zero_lt_of_lt h.lt))

theorem previousParse (ht : t.IsOrdered) (h : t.EndsAt u i) :
    t.EndsAt u.previousParse.1 ((i + t.branches.length - 1) % t.branches.length) := by
  obtain ⟨-, -, hends⟩ : u.previousParse.2 = _ ∧ u.previousParse.1.current = _ ∧ _ :=
    h.cycle ht rfl (Nat.mod_lt _ (Nat.zero_lt_of_lt h.lt))
  exact hends

/-- From branch to branch. -/
theorem nextParses (ht : t.IsOrdered) (h : t.EndsAt u i) (k : Nat) :
    t.EndsAt ((·.nextParse.1)^[k] u) ((i + k) % t.branches.length) := by
  induction k with
  | zero => rwa [Nat.add_zero, Nat.mod_eq_of_lt h.lt]
  | succ k ih =>
    rw [Function.iterate_succ_apply', ← Nat.add_assoc, ← Nat.mod_add_mod]
    exact (ih.nextParse ht).2.2

/-- All the way around the branches each of them is met once. -/
theorem perm_branches (ht : t.IsOrdered) (h : t.EndsAt u i) :
    ((List.range t.branches.length).map fun k => ((·.nextParse.1)^[k] u).nextParse.2).Perm
      (t.branches.map some) := by
  have hrotate : ((List.range t.branches.length).map fun k => ((·.nextParse.1)^[k] u).nextParse.2) =
      (t.branches.rotate (i + 1)).map some := by
    refine List.ext_getElem? fun k => ?_
    rcases Nat.lt_or_ge k t.branches.length with hk | hk
    · rw [List.getElem?_map, List.getElem?_range hk, Option.map_some,
        ((h.nextParses ht k).nextParse ht).1, List.getElem?_map, List.getElem?_rotate hk,
        Nat.mod_add_mod]
      rw [show i + k + 1 = k + (i + 1) by omega, List.getElem?_eq_getElem (Nat.mod_lt _ (by omega))]
      rfl
    · rw [List.getElem?_eq_none (by simpa using hk), List.getElem?_eq_none (by simpa using hk)]
  rw [hrotate]
  exact (t.branches.rotate_perm (i + 1)).map some

end EndsAt

theorem mod_pred_mod_succ {i n : Nat} (h : i < n) : ((i + 1) % n + n - 1) % n = i := by
  rcases Nat.lt_or_ge (i + 1) n with hlt | hle
  · rw [Nat.mod_eq_of_lt hlt, show i + 1 + n - 1 = i + n
      by omega, Nat.add_mod_right, Nat.mod_eq_of_lt h]
  · rw [show i + 1 = n by omega, Nat.mod_self, Nat.zero_add, Nat.mod_eq_of_lt (by omega)]
    omega

theorem mod_succ_mod_pred {i n : Nat} (h : i < n) : ((i + n - 1) % n + 1) % n = i := by
  rw [Nat.mod_add_mod, show i + n - 1 + 1 = i + n by omega, Nat.add_mod_right, Nat.mod_eq_of_lt h]

/-- The active branch of a consistent tree is one of its branches. -/
theorem IsAt.exists_endsAt (h : t.IsAt id a) : ∃ i, t.EndsAt t i := by
  obtain ⟨i, hi, ha⟩ :=
    List.mem_iff_getElem.mp (mem_branches_iff.mpr ⟨h.contains_active, h.isTerminal⟩)
  exact ⟨i, rfl, rfl, hi, h.active_eq.trans (ha ▸ (List.getElem?_eq_getElem hi).symm)⟩

/-! ### Getting around -/

/-- How one gets around in a tree: with steps along the active branch, and from branch to branch. -/
structure IsWalkable (t : DerivationTree) : Prop where
  /-- A step down undoes a step up. -/
  next_previous {id : StateId} : t.previousStep.2 = some id →
    t.previousStep.1.nextStep.2 = t.current ∧
    t.previousStep.1.nextStep.1.current = t.current ∧ t.previousStep.1.nextStep.1.active = t.active
  /-- A step up undoes a step down. -/
  previous_next {id : StateId} : t.nextStep.2 = some id →
    t.nextStep.1.previousStep.2 = t.current ∧
    t.nextStep.1.previousStep.1.current = t.current ∧ t.nextStep.1.previousStep.1.active = t.active
  /-- The steps down from the root visit the active branch from place to place. -/
  first {a : StateId} : t.active = some a → t.firstStep.2 = (t.branch a)[0]?
  walk {a : StateId} {k : Nat} : t.active = some a → k < (t.branch a).length →
    let u := (·.nextStep.1)^[k] t.firstStep.1
    u.current = (t.branch a)[k]? ∧ u.active = some a ∧ u.nextStep.2 = (t.branch a)[k + 1]?
  stop : t.nextStep.2 = none ↔ t.current = t.active
  jump {a id : StateId} : t.active = some a → id ∈ t.branch a →
    ∃ u, t.jumpTo id = .ok u ∧ u.current = some id ∧ u.active = some a
  /-- Going to the next and to the previous branch undo each other. -/
  previousParse_nextParse : t.nextParse.1.previousParse.1.active = t.active
  nextParse_previousParse : t.previousParse.1.nextParse.1.active = t.active
  /-- The branches are the states without children, each of which comes once. -/
  terminal {a : StateId} : a ∈ t.branches ↔ t.contains a = true ∧ t.childrenOf a = []
  nodup : t.branches.Nodup
  /-- With as many steps as there are branches one meets each of them once, and gets back to the
  first. -/
  visits : ((List.range t.branches.length).map fun k => ((·.nextParse.1)^[k] t).nextParse.2).Perm
    (t.branches.map some)
  arrives {k : Nat} : k < t.branches.length →
    ((·.nextParse.1)^[k + 1] t).current = ((·.nextParse.1)^[k] t).nextParse.2 ∧
      ((·.nextParse.1)^[k + 1] t).active = ((·.nextParse.1)^[k] t).nextParse.2
  returns : ((·.nextParse.1)^[t.branches.length] t).active = t.active

/-- In a tree without states there is nowhere to go. -/
theorem isWalkable_of_isEmpty (hempty : t.isEmpty = true) (hcurrent : t.current = none)
    (hactive : t.active = none) : t.IsWalkable := by
  have hbranches : t.branches = [] := by
    refine List.eq_nil_iff_forall_not_mem.mpr fun a ha => ?_
    exact absurd (mem_branches_iff.mp ha).1 (by simp [contains_eq_false_of_isEmpty hempty])
  have hprevious : t.previousStep.2 = none := by
    rw [previousStep, currentState?, hcurrent]
    rfl
  have hnext : t.nextStep.2 = none := by
    rw [nextStep, hcurrent]
    rfl
  have hcycle (choose : Nat → Nat → Nat) : t.cycle choose = (t, none) := by
    simp only [cycle, hbranches, List.getElem?_nil]
  exact
    { next_previous := fun hid => absurd (hprevious.symm.trans hid) (by simp)
      previous_next := fun hid => absurd (hnext.symm.trans hid) (by simp)
      first := fun ha => absurd (hactive.symm.trans ha) (by simp)
      walk := fun ha => absurd (hactive.symm.trans ha) (by simp)
      stop := iff_of_true hnext (hcurrent.trans hactive.symm)
      jump := fun ha => absurd (hactive.symm.trans ha) (by simp)
      previousParse_nextParse := by rw [nextParse, previousParse, hcycle, hcycle]
      nextParse_previousParse := by rw [nextParse, previousParse, hcycle, hcycle]
      terminal := mem_branches_iff
      nodup := t.nodup_branches
      visits := by simp [hbranches]
      arrives := fun hk => absurd hk (by simp [hbranches])
      returns := by simp [hbranches] }

/-- In a consistent tree one gets around. -/
theorem IsConsistent.isWalkable (ht : t.IsConsistent) : t.IsWalkable := by
  cases hempty : t.isEmpty with
  | true => exact isWalkable_of_isEmpty hempty (ht.empty hempty).1 (ht.empty hempty).2
  | false =>
    obtain ⟨current, a, hat⟩ := ht.cursor hempty
    have hord := ht.toIsOrdered
    have ha := hat.contains_active
    obtain ⟨k, h⟩ := hat.exists_standsAt
    obtain ⟨i, hend⟩ := hat.exists_endsAt
    have heq {b : StateId} (hb : t.active = some b) : b = a :=
      Option.some.inj (hb.symm.trans hat.active_eq)
    have hcurrent {u : DerivationTree} (hu : t.StandsAt u a k) :
        u.current = t.current ∧ u.active = t.active :=
      ⟨hu.current.trans h.current.symm, hu.active.trans h.active.symm⟩
    refine
      { next_previous := ?nextPrevious
        previous_next := ?previousNext
        first := fun hb => heq hb ▸ (h.firstStep hord ha).1
        walk := ?walk
        stop := by rw [h.nextStep_eq_none_iff hord ha, h.active]
        jump := ?jump
        previousParse_nextParse := ?previousParse
        nextParse_previousParse := ?nextParse
        terminal := mem_branches_iff
        nodup := t.nodup_branches
        visits := hend.perm_branches hord
        arrives := ?arrives
        returns := ?returns }
    case nextPrevious =>
      -- there is a step up, so the cursor is not at the first place
      intro id hid
      cases k with
      | zero => exact absurd ((h.previousStep_zero hord ha).symm.trans hid) (by simp)
      | succ k =>
        obtain ⟨-, hup⟩ := h.previousStep_succ hord ha
        obtain ⟨hdown, hback⟩ := hup.nextStep hord ha h.lt
        exact ⟨hdown.trans h.current.symm, hcurrent hback⟩
    case previousNext =>
      intro id hid
      have hk : k + 1 < (t.branch a).length :=
        (List.getElem?_eq_some_iff.mp ((h.nextStep_snd hord ha).symm.trans hid)).1
      obtain ⟨-, hdown⟩ := h.nextStep hord ha hk
      obtain ⟨hup, hback⟩ := hdown.previousStep_succ hord ha
      exact ⟨hup.trans h.current.symm, hcurrent hback⟩
    case walk =>
      intro b j hb hj
      obtain rfl := heq hb
      have hu := (h.firstStep hord ha).2.nextSteps hord ha hj
      exact ⟨hu.current, hu.active, hu.nextStep_snd hord ha⟩
    case jump =>
      intro b id hb hid
      obtain rfl := heq hb
      obtain ⟨j, hj, rfl⟩ := List.mem_iff_getElem.mp hid
      have hcontains := hord.contains_of_comesFrom ha (hord.mem_branch_iff.mp hid).2
      have hgoes := (h.goTo hord ha hj).2
      rw [List.getElem?_eq_getElem hj, goTo_of_contains hcontains] at hgoes
      exact ⟨_, jumpTo_eq_ok_iff.mpr ⟨hcontains, rfl⟩,
        hgoes.current.trans (List.getElem?_eq_getElem hj), hgoes.active⟩
    case previousParse =>
      have hback := ((hend.nextParse hord).2.2.previousParse hord).active
      rw [mod_pred_mod_succ hend.lt] at hback
      exact hback.trans hend.active.symm
    case nextParse =>
      have hback := ((hend.previousParse hord).nextParse hord).2.2.active
      rw [mod_succ_mod_pred hend.lt] at hback
      exact hback.trans hend.active.symm
    case arrives =>
      intro j _
      obtain ⟨hresult, hcurrent, hnext⟩ := (hend.nextParses hord j).nextParse hord
      rw [Function.iterate_succ_apply', hresult]
      exact ⟨hcurrent, hnext.active⟩
    case returns =>
      -- as many steps as there are branches lead around once
      have hback := (hend.nextParses hord t.branches.length).active
      rw [Nat.add_mod_right, Nat.mod_eq_of_lt hend.lt] at hback
      exact hback.trans hend.active.symm

/-- However a tree has evolved from a new one, steps up and down undo each other and follow the
active branch, and one gets from branch to branch and around to where one began. -/
theorem isWalkable_of_evolves (h : Evolves {} t) : t.IsWalkable :=
  (h.isConsistent_and_le isConsistent_empty).1.isWalkable

/-- A state with two children, which end the two branches; the cursor goes from the second one to
the first. -/
theorem isWalkable_fork :
    let step : Step := { roots := [], message := "", type := .scan }
    let t := (((({} : DerivationTree).addStep step none).1.addStep step (some ⟨0⟩)).1.addStep step
      (some ⟨0⟩)).1
    Evolves {} t ∧ t.branches = [⟨1⟩, ⟨2⟩] ∧ t.branch ⟨2⟩ = [⟨0⟩, ⟨2⟩] ∧ t.active = some ⟨2⟩ ∧
      t.nextParse.2 = some ⟨1⟩ ∧ t.previousStep.2 = some ⟨0⟩ ∧ t.IsWalkable := by
  intro step t
  have h : Evolves {} t := (((Evolves.refl {}).addStep step none).addStep step _).addStep step _
  refine ⟨h, ?_, ?_, ?_, ?_, ?_, isWalkable_of_evolves h⟩
  all_goals decide +kernel

end DerivationTree
end MinimalistGrammar
