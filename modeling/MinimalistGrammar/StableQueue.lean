import Std.Data.TreeMap

/-!
# Stable priority queues

A queue hands out the item with the least key, and of items with equal keys the one that came
first. It is kept as the list of its entries in the order in which they leave, so that list is the
view in which every operation is described.

## Main definitions

* `StableQueue` — the entries, first to leave first.
* `StableQueue.push` — places an entry behind all entries whose keys are not greater.
* `StableQueue.pop?` — the first item and the queue without it.
-/

namespace MinimalistGrammar

variable {κ α : Type} [Ord κ]

/-- The entries with `e` behind all whose keys are not greater. -/
def placeEntry (e : κ × α) : List (κ × α) → List (κ × α)
  | [] => [e]
  | f :: rest => if compare e.1 f.1 = .lt then e :: f :: rest else f :: placeEntry e rest

@[simp] theorem placeEntry_nil (e : κ × α) : placeEntry e [] = [e] := rfl

/-- Placing an entry adds it and nothing else. -/
theorem placeEntry_perm (e : κ × α) (l : List (κ × α)) : (placeEntry e l).Perm (e :: l) := by
  induction l with
  | nil => exact List.Perm.refl _
  | cons f rest ih =>
    rw [placeEntry]
    split
    · exact List.Perm.refl _
    · exact (List.Perm.cons f ih).trans (List.Perm.swap e f rest)

/-- Placing an entry keeps the keys in order. -/
theorem pairwise_placeEntry [Std.TransOrd κ] {e : κ × α} {l : List (κ × α)}
    (h : l.Pairwise fun x y => (compare x.1 y.1).isLE) :
    (placeEntry e l).Pairwise fun x y => (compare x.1 y.1).isLE := by
  induction l with
  | nil => exact List.pairwise_singleton ..
  | cons f rest ih =>
    obtain ⟨hfirst, hrest⟩ := List.pairwise_cons.mp h
    rw [placeEntry]
    split
    · next hlt =>
      have hle : (compare e.1 f.1).isLE := Ordering.isLE_of_eq_lt hlt
      refine List.pairwise_cons.mpr ⟨fun x hx => ?_, h⟩
      rcases List.mem_cons.mp hx with rfl | hx
      · exact hle
      · exact Std.TransCmp.isLE_trans hle (hfirst x hx)
    · next hnot =>
      refine List.pairwise_cons.mpr ⟨fun x hx => ?_, ih hrest⟩
      rcases List.mem_cons.mp ((placeEntry_perm e rest).mem_iff.mp hx) with rfl | hx
      · exact Std.OrientedCmp.isLE_of_isGE (Ordering.isGE_iff_ne_lt.mpr hnot)
      · exact hfirst x hx

/-- A queue of items with keys. -/
structure StableQueue (κ α : Type) where
  /-- The entries, first to leave first. -/
  entries : List (κ × α) := []
deriving Repr

namespace StableQueue

/-- The queue without entries. -/
def empty : StableQueue κ α := {}

/-- Adds an item. -/
def push (q : StableQueue κ α) (key : κ) (item : α) : StableQueue κ α :=
  ⟨placeEntry (key, item) q.entries⟩

@[simp] theorem entries_push (q : StableQueue κ α) (key : κ) (item : α) :
    (q.push key item).entries = placeEntry (key, item) q.entries := rfl

/-- The item that leaves next, and what is left. -/
def pop? (q : StableQueue κ α) : Option (α × StableQueue κ α) :=
  match q.entries with
  | [] => none
  | e :: rest => some (e.2, ⟨rest⟩)

/-- The item that leaves next. -/
def peek? (q : StableQueue κ α) : Option α := q.entries.head?.map (·.2)

/-- How many items wait. -/
def size (q : StableQueue κ α) : Nat := q.entries.length

@[simp] theorem size_push (q : StableQueue κ α) (key : κ) (item : α) :
    (q.push key item).size = q.size + 1 := by
  simp [size, (placeEntry_perm (key, item) q.entries).length_eq]

/-- Whether no item waits. -/
def isEmpty (q : StableQueue κ α) : Bool := q.entries.isEmpty

/-- The items, first to leave first. -/
def toList (q : StableQueue κ α) : List α := q.entries.map (·.2)

theorem toList_push_perm (q : StableQueue κ α) (key : κ) (item : α) :
    (q.push key item).toList.Perm (item :: q.toList) :=
  (placeEntry_perm (key, item) q.entries).map Prod.snd

omit [Ord κ] in
theorem toList_eq_of_pop? {q q' : StableQueue κ α} {item : α} (h : q.pop? = some (item, q')) :
    q.toList = item :: q'.toList := by
  rw [pop?] at h
  split at h
  · exact absurd h (by simp)
  · next e rest heq =>
    rw [Option.some.injEq, Prod.mk.injEq] at h
    rw [toList, heq, ← h.1, ← h.2]
    rfl

omit [Ord κ] in
/-- What leaves the queue was waiting in it. -/
theorem mem_toList_of_pop? {q q' : StableQueue κ α} {item : α} (h : q.pop? = some (item, q')) :
    item ∈ q.toList := by
  rw [toList_eq_of_pop? h]
  exact List.mem_cons_self ..

omit [Ord κ] in
theorem toList_eq_nil_of_pop? {q : StableQueue κ α} (h : q.pop? = none) : q.toList = [] := by
  rw [pop?] at h
  split at h
  · next heq => rw [toList, heq, List.map_nil]
  · exact absurd h (by simp)

end StableQueue
end MinimalistGrammar
