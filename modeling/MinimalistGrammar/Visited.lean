import Std.Data.TreeSet

/-!
# What has not been visited

A search through finitely many objects keeps the set of those that it has visited. It comes to an
end since every visit to a new one leaves fewer to visit.

## Main statements

* `length_filter_lt_length_filter` — fewer elements meet a stronger condition.
* `filter_insert` — a visit leaves all others that had not been visited.
* `length_filter_insert_lt` — a visit to a new object leaves fewer.
-/

namespace MinimalistGrammar

/-- A stronger condition that some element does not meet leaves fewer. -/
theorem length_filter_lt_length_filter {α : Type} {l : List α} {p q : α → Bool} {a : α}
    (himp : ∀ b, p b = true → q b = true) (hl : a ∈ l) (hq : q a = true) (hp : p a = false) :
    (l.filter p).length < (l.filter q).length := by
  have heq : l.filter p = (l.filter q).filter p := by
    rw [List.filter_filter]
    refine List.filter_congr fun b _ => ?_
    cases hb : p b with
    | false => rfl
    | true => rw [himp b hb, Bool.true_and]
  rw [heq]
  refine List.length_filter_lt_length_iff_exists.mpr ⟨a, List.mem_filter.mpr ⟨hl, hq⟩, ?_⟩
  simp [hp]

variable {α : Type} [Ord α] [Std.TransOrd α] [Std.LawfulEqOrd α] [DecidableEq α]

/-- A visit leaves all others that had not been visited. -/
theorem filter_insert (l : List α) (visited : Std.TreeSet α) (a : α) :
    l.filter (! (visited.insert a).contains ·) =
      (l.filter (! visited.contains ·)).filter (· ≠ a) := by
  rw [List.filter_filter]
  refine List.filter_congr fun x _ => ?_
  rw [Std.TreeSet.contains_insert, Bool.eq_iff_iff]
  simp [Std.LawfulEqCmp.compare_eq_iff_eq, eq_comm (a := a)]

/-- A visit to a new object leaves fewer. -/
theorem length_filter_insert_lt {l : List α} {visited : Std.TreeSet α} {a : α} (hl : a ∈ l)
    (hnew : visited.contains a = false) :
    (l.filter (! (visited.insert a).contains ·)).length <
      (l.filter (! visited.contains ·)).length := by
  rw [filter_insert]
  refine List.length_filter_lt_length_iff_exists.mpr ⟨a, ?_, by simp⟩
  exact List.mem_filter.mpr ⟨hl, by simp [hnew]⟩

end MinimalistGrammar
