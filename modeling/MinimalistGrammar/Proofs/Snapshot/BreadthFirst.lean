import Mathlib.Data.List.Basic
import MinimalistGrammar.Proofs.Snapshot.Walk

/-!
# Walks go breadth first

A walk visits what waits now before what waits for later. All that waits now is equally far from the
root or has been visited, so the objects are visited in the order of their distances. What waits
comes in the order in which it is referred to. So each object comes where the references of the
objects before it lead to it first.

A walk that ends with an error has come to a reference that leads to no record.

## Main definitions

* `Source.LeadsWithin` — some number of references at most lead from one object to another.
* `Source.IsBreadthFirst` — the objects to which references lead from a root, breadth first.
* `Source.IsOnLevel` — what holds while the objects of one distance are visited.

## Main results

* `Source.IsOnLevel.visit` — what holds in the end.
* `Source.isBreadthFirst_walk` — **a walk goes breadth first.**
* `Source.exists_of_walk_error` — where a walk ends with an error.
-/

namespace MinimalistGrammar

section eraseDups

variable {α : Type} [BEq α] [LawfulBEq α] {l : List α} {a : α}

theorem eraseDups_concat_of_mem (h : a ∈ l) : (l ++ [a]).eraseDups = l.eraseDups := by
  rw [List.eraseDups_append]
  simp [List.removeAll, h]

theorem eraseDups_concat_of_notMem (h : a ∉ l) : (l ++ [a]).eraseDups = l.eraseDups ++ [a] := by
  rw [List.eraseDups_append]
  simp [List.removeAll, h, List.eraseDups_cons]

end eraseDups

namespace Source

variable {ε : Type} {s : Source ε} {missing : Reference → ε} {visited : Std.TreeSet String}
  {found result : List (String × Record)} {read now : List Reference}
  {later : List (List Reference)} {root key : String} {r : Record} {ref : Reference} {m n : Nat}

/-! ### Orders of objects -/

/-- The objects to which the record of an object refers, in order. -/
def successors (s : Source ε) (key : String) : List String :=
  match s.record key with
  | .ok (some r) => (r.references key).map (·.key)
  | _ => []

theorem successors_eq (h : s.record key = .ok (some r)) :
    s.successors key = (r.references key).map (·.key) := by
  rw [successors, h]

/-- At most `n` references lead from a root to an object. -/
inductive LeadsWithin (s : Source ε) (root : String) : Nat → String → Prop
  | refl (n : Nat) : LeadsWithin s root n root
  | step {n : Nat} {key : String} {r : Record} {ref : Reference} (h : LeadsWithin s root n key)
      (hr : s.record key = .ok (some r)) (href : ref ∈ r.references key) :
      LeadsWithin s root (n + 1) ref.key

theorem LeadsWithin.mono (h : s.LeadsWithin root m key) (hmn : m ≤ n) :
    s.LeadsWithin root n key := by
  induction h generalizing n with
  | refl => exact .refl n
  | step _ hr href ih =>
    obtain ⟨n, rfl⟩ := Nat.exists_eq_add_of_lt (Nat.lt_of_succ_le hmn)
    exact .step (ih (by omega)) hr href

/-- The objects to which references lead from a root, breadth first. -/
structure IsBreadthFirst (s : Source ε) (root : String) (keys : List String) : Prop where
  mem_iff {key : String} : key ∈ keys ↔ s.Leads root key
  nodup : keys.Nodup
  head : keys.head? = some root
  /-- An object is not farther from the root than those behind it. -/
  nearest : keys.Pairwise fun k l => ∀ n, s.LeadsWithin root n l → s.LeadsWithin root n k
  /-- Each object stands where the objects of the list refer to it first, in the order of the
  list. -/
  firsts : keys = (root :: keys.flatMap s.successors).eraseDups

/-! ### One level after the other -/

/-- What holds while the objects are visited that `n` references lead to. The references in `read`
have been followed. -/
structure IsOnLevel (s : Source ε) (root : String) (n : Nat) (visited : Std.TreeSet String)
    (found : List (String × Record)) (read : List Reference) (later : List (List Reference))
    (now : List Reference) : Prop extends s.IsUnderway visited found later now where
  within {e : String × Record} : e ∈ found → s.LeadsWithin root n e.1
  nearer {m : Nat} {key : String} : m < n → s.LeadsWithin root m key → visited.contains key = true
  level {key : String} : s.LeadsWithin root n key →
    visited.contains key = true ∨ ∃ ref ∈ now, ref.key = key
  withinNow {ref : Reference} : ref ∈ now → s.LeadsWithin root n ref.key
  withinLater {refs : List Reference} {ref : Reference} : refs ∈ later → ref ∈ refs →
    s.LeadsWithin root (n + 1) ref.key
  nearest : found.Pairwise fun e f => ∀ m, s.LeadsWithin root m e.1 → s.LeadsWithin root m f.1
  keys : found.reverse.map (·.1) = (read.map (·.key)).eraseDups
  waits : read ++ now ++ later.reverse.flatten =
    { path := root, key := root } :: found.reverse.flatMap fun e => e.2.references e.1

theorem isOnLevel_start (s : Source ε) (root : String) :
    s.IsOnLevel root 0 ∅ [] [] [] [{ path := root, key := root }] where
  record h := absurd h List.not_mem_nil
  visited_iff := by simp
  distinct := .nil
  closed h := absurd h List.not_mem_nil
  within h := absurd h List.not_mem_nil
  nearer hm := absurd hm (Nat.not_lt_zero _)
  level h := by
    cases h
    exact Or.inr ⟨_, List.mem_singleton_self _, rfl⟩
  withinNow h := by
    rw [List.mem_singleton.mp h]
    exact .refl 0
  withinLater h := absurd h List.not_mem_nil
  nearest := .nil
  keys := rfl
  waits := rfl

theorem IsOnLevel.mem_read (h : s.IsOnLevel root n visited found read later now) :
    key ∈ read.map (·.key) ↔ visited.contains key = true := by
  rw [h.visited_iff, ← List.mem_eraseDups, ← h.keys]
  simp

/-- A visit to a new object, which is not nearer to the root than what was found before. -/
theorem IsOnLevel.cons (h : s.IsOnLevel root n visited found read later (ref :: now))
    (hr : s.record ref.key = .ok (some r)) (hnew : ¬visited.contains ref.key = true) :
    s.IsOnLevel root n (visited.insert ref.key) ((ref.key, r) :: found) (read ++ [ref])
      (r.references ref.key :: later) now where
  toIsUnderway := h.toIsUnderway.cons hr hnew
  within he := by
    rcases List.mem_cons.mp he with rfl | he
    · exact h.withinNow (List.mem_cons_self ..)
    · exact h.within he
  nearer hm hkey := by
    rw [Std.TreeSet.contains_insert, h.nearer hm hkey, Bool.or_true]
  level hkey := by
    rcases h.level hkey with hvisited | ⟨ref', href', rfl⟩
    · exact Or.inl (by rw [Std.TreeSet.contains_insert, hvisited, Bool.or_true])
    · rcases List.mem_cons.mp href' with rfl | href'
      · exact Or.inl Std.TreeSet.contains_insert_self
      · exact Or.inr ⟨ref', href', rfl⟩
  withinNow href := h.withinNow (List.mem_cons_of_mem _ href)
  withinLater hrefs href := by
    rcases List.mem_cons.mp hrefs with rfl | hrefs
    · exact .step (h.withinNow (List.mem_cons_self ..)) hr href
    · exact h.withinLater hrefs href
  nearest := by
    refine List.pairwise_cons.mpr ⟨fun e he m hm => ?_, h.nearest⟩
    -- all that is nearer than this level has been visited
    rcases Nat.lt_or_ge m n with hlt | hge
    · exact absurd (h.nearer hlt hm) hnew
    · exact (h.within he).mono hge
  keys := by
    have hread : ref.key ∉ read.map (·.key) := fun hmem => hnew (h.mem_read.mp hmem)
    rw [List.reverse_cons, List.map_append, h.keys, List.map_append]
    exact (eraseDups_concat_of_notMem hread).symm
  waits := by
    rw [List.reverse_cons (a := (ref.key, r)), List.flatMap_append, List.flatMap_singleton,
      ← List.cons_append, ← h.waits]
    simp

/-- What was visited is not visited again. -/
theorem IsOnLevel.skip (h : s.IsOnLevel root n visited found read later (ref :: now))
    (hvisited : visited.contains ref.key = true) :
    s.IsOnLevel root n visited found (read ++ [ref]) later now where
  toIsUnderway := h.toIsUnderway.skip hvisited
  within := h.within
  nearer := h.nearer
  level hkey := by
    rcases h.level hkey with hvisited' | ⟨ref', href', rfl⟩
    · exact Or.inl hvisited'
    · rcases List.mem_cons.mp href' with rfl | href'
      · exact Or.inl hvisited
      · exact Or.inr ⟨ref', href', rfl⟩
  withinNow href := h.withinNow (List.mem_cons_of_mem _ href)
  withinLater := h.withinLater
  nearest := h.nearest
  keys := by
    have hread : ref.key ∈ read.map (·.key) := h.mem_read.mpr hvisited
    rw [h.keys, List.map_append]
    exact (eraseDups_concat_of_mem hread).symm
  waits := by rw [← h.waits, List.append_assoc read, List.singleton_append]

/-- When all is visited on a level, what waits is on the next one. -/
theorem IsOnLevel.turn (h : s.IsOnLevel root n visited found read later []) :
    s.IsOnLevel root (n + 1) visited found read [] later.reverse.flatten where
  toIsUnderway := h.toIsUnderway.turn
  within he := (h.within he).mono (Nat.le_succ n)
  nearer hm hkey := by
    rcases h.level (hkey.mono (Nat.le_of_lt_succ hm)) with hvisited | ⟨ref, href, -⟩
    · exact hvisited
    · exact absurd href List.not_mem_nil
  level {key} hkey := by
    have hall {key : String} (hkey : s.LeadsWithin root n key) : visited.contains key = true := by
      rcases h.level hkey with hvisited | ⟨ref, href, -⟩
      · exact hvisited
      · exact absurd href List.not_mem_nil
    -- the last reference on the way leads from this level to the next one
    cases hkey with
    | refl => exact Or.inl (hall (.refl n))
    | step hkey hr href =>
      obtain ⟨r', hr'⟩ := h.visited_iff.mp (hall hkey)
      obtain rfl := Option.some.inj (Except.ok.inj (hr.symm.trans (h.record hr')))
      rcases h.closed hr' href with hvisited | hnow | ⟨refs, hrefs, hmem⟩
      · exact Or.inl hvisited
      · exact absurd hnow List.not_mem_nil
      · exact Or.inr ⟨_, List.mem_flatten.mpr ⟨refs, List.mem_reverse.mpr hrefs, hmem⟩, rfl⟩
  withinNow href := by
    obtain ⟨refs, hrefs, hmem⟩ := List.mem_flatten.mp href
    exact h.withinLater (List.mem_reverse.mp hrefs) hmem
  withinLater hrefs := absurd hrefs List.not_mem_nil
  nearest := h.nearest
  keys := h.keys
  waits := by
    rw [← h.waits]
    simp

/-- What holds when nothing waits. -/
theorem IsOnLevel.visit (h : s.IsOnLevel root n visited found read later now)
    (hresult : s.visit missing visited found later now = .ok result) :
    ∃ n visited read, s.IsOnLevel root n visited result.reverse read [] [] := by
  fun_induction s.visit missing visited found later now generalizing n read with
  | case1 visited found =>
    obtain rfl := Except.ok.inj hresult
    rw [List.reverse_reverse]
    exact ⟨n, visited, read, h⟩
  | case2 visited found later hlater ih =>
    rw [List.unattach_reverse, List.unattach_attach] at ih
    exact ih h.turn hresult
  | case3 visited found later ref now hvisited ih => exact ih (h.skip hvisited) hresult
  | case4 => exact absurd hresult (by simp)
  | case5 => exact absurd hresult (by simp)
  | case6 visited found later ref now hnew r hr ih => exact ih (h.cons hr hnew) hresult

/-- **A walk goes breadth first.** -/
theorem isBreadthFirst_walk (h : s.walk missing root = .ok result) :
    s.IsBreadthFirst root (result.map (·.1)) := by
  obtain ⟨n, visited, read, hend⟩ := (s.isOnLevel_start root).visit h
  have hread :
      read = { path := root, key := root } :: result.flatMap fun e => e.2.references e.1 := by
    have hwaits := hend.waits
    rw [List.append_nil, List.reverse_nil, List.flatten_nil, List.append_nil, List.reverse_reverse]
      at hwaits
    exact hwaits
  have hsuccessors : (result.map (·.1)).flatMap s.successors =
      (result.flatMap fun e => e.2.references e.1).map (·.key) := by
    rw [List.flatMap_map, List.map_flatMap]
    refine List.flatMap_congr fun e he => successors_eq ?_
    exact hend.record (List.mem_reverse.mpr he)
  have hfirsts :
      result.map (·.1) = (root :: (result.map (·.1)).flatMap s.successors).eraseDups := by
    have hkeys := hend.keys
    rw [List.reverse_reverse, hread, List.map_cons] at hkeys
    rw [hsuccessors]
    exact hkeys
  refine ⟨?mem_iff, ?nodup, ?head, ?nearest, hfirsts⟩
  case mem_iff =>
    intro key
    rw [← exists_mem_walk_iff h]
    simp
  case nodup =>
    rw [List.nodup_iff_pairwise_ne, List.pairwise_map]
    exact (isWalk_of_walk h).distinct
  case head => rw [hfirsts, List.eraseDups_cons, List.head?_cons]
  case nearest =>
    rw [List.pairwise_map]
    exact List.pairwise_reverse.mp hend.nearest

/-! ### Errors -/

/-- A walk that ends with an error has come to a reference that leads to no record, or to a record
that cannot be read. -/
theorem exists_of_visit_error {e : ε} {P : Reference → Prop}
    (h : s.visit missing visited found later now = .error e)
    (hP : ∀ {ref r}, P ref → s.record ref.key = .ok (some r) → ∀ ref' ∈ r.references ref.key,
      P ref')
    (hlater : ∀ refs ∈ later, ∀ ref ∈ refs, P ref) (hnow : ∀ ref ∈ now, P ref) :
    ∃ ref, P ref ∧
      (s.record ref.key = .ok none ∧ e = missing ref ∨ s.record ref.key = .error e) := by
  fun_induction s.visit missing visited found later now with
  | case1 => exact absurd h (by simp)
  | case2 visited found later hlater' ih =>
    rw [List.unattach_reverse, List.unattach_attach] at ih
    refine ih h (fun refs hrefs => absurd hrefs List.not_mem_nil) fun ref href => ?_
    obtain ⟨refs, hrefs, hmem⟩ := List.mem_flatten.mp href
    exact hlater refs (List.mem_reverse.mp hrefs) ref hmem
  | case3 visited found later ref now hvisited ih =>
    exact ih h hlater fun ref href => hnow ref (List.mem_cons_of_mem _ href)
  | case4 visited found later ref now hnew e' herror =>
    obtain rfl := Except.error.inj h
    exact ⟨ref, hnow ref (List.mem_cons_self ..), Or.inr herror⟩
  | case5 visited found later ref now hnew hnone =>
    exact ⟨ref, hnow ref (List.mem_cons_self ..), Or.inl ⟨hnone, (Except.error.inj h).symm⟩⟩
  | case6 visited found later ref now hnew r hr ih =>
    refine ih h (fun refs hrefs => ?_) fun ref href => hnow ref (List.mem_cons_of_mem _ href)
    rcases List.mem_cons.mp hrefs with rfl | hrefs
    · exact hP (hnow ref (List.mem_cons_self ..)) hr
    · exact hlater refs hrefs

end Source
end MinimalistGrammar
