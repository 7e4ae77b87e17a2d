import MinimalistGrammar.Snapshot.Graph

/-!
# What a walk finds

A walk through a graph of records starts at a root and follows references. What it finds has the
root in it, has with a record all records to which this refers, and has every record under its key.

## Main definitions

* `Source.IsUnderway` — what holds while objects are visited.
* `Source.IsWalk` — what holds of the records that a walk finds.
* `Source.Leads` — references lead from one object to another.
* `Source.Resolves` — a reference leads to a record.
* `Source.visitWithin` — a walk of at most some number of visits, which can be computed.

## Main results

* `Source.isWalk_of_walk` — a walk that finds no object missing is one.
* `Source.exists_mem_walk_iff` — a walk finds exactly what references lead to.
* `Source.exists_walk_iff` — when a walk finds no object missing.
* `Source.walk_map` — a walk through records that refer to the same objects finds the same.
* `Source.visit_eq_of_visitWithin` — a walk that ends within its bound is the walk.
-/

namespace MinimalistGrammar
namespace Source

variable {ε : Type} {s : Source ε} {missing : Reference → ε} {visited : Std.TreeSet String}
  {found result : List (String × Record)} {later : List (List Reference)} {now : List Reference}
  {root : String}

/-- What holds while objects are visited: those that were visited are found, and every reference in
what is found leads to a visited object or waits. -/
structure IsUnderway (s : Source ε) (visited : Std.TreeSet String) (found : List (String × Record))
    (later : List (List Reference)) (now : List Reference) : Prop where
  record {key : String} {r : Record} (h : (key, r) ∈ found) : s.record key = .ok (some r)
  visited_iff {key : String} : visited.contains key = true ↔ ∃ r, (key, r) ∈ found
  distinct : found.Pairwise (·.1 ≠ ·.1)
  closed {key : String} {r : Record} (h : (key, r) ∈ found) {ref : Reference}
    (href : ref ∈ r.references key) :
    visited.contains ref.key = true ∨ ref ∈ now ∨ ∃ refs ∈ later, ref ∈ refs

/-- The records of a walk are those of their keys, each of them once, and what one refers to is
found. -/
structure IsWalk (s : Source ε) (root : String) (records : List (String × Record)) : Prop where
  record {key : String} {r : Record} (h : (key, r) ∈ records) : s.record key = .ok (some r)
  distinct : records.Pairwise (·.1 ≠ ·.1)
  root : ∃ r, (root, r) ∈ records
  closed {key : String} {r : Record} (h : (key, r) ∈ records) {ref : Reference}
    (href : ref ∈ r.references key) : ∃ r, (ref.key, r) ∈ records

/-- A visit to a new object adds its record, whose references wait from then on. -/
theorem IsUnderway.cons {ref : Reference} {r : Record}
    (h : s.IsUnderway visited found later (ref :: now)) (hr : s.record ref.key = .ok (some r))
    (hnew : ¬visited.contains ref.key = true) :
    s.IsUnderway (visited.insert ref.key) ((ref.key, r) :: found) (r.references ref.key :: later)
      now where
  record hmem := by
    rcases List.mem_cons.mp hmem with heq | hmem
    · obtain ⟨rfl, rfl⟩ := Prod.mk.inj heq
      exact hr
    · exact h.record hmem
  visited_iff {key} := by
    rw [Std.TreeSet.contains_insert, Bool.or_eq_true, h.visited_iff, beq_iff_eq,
      Std.LawfulEqCmp.compare_eq_iff_eq]
    constructor
    · rintro (rfl | ⟨r', hr'⟩)
      · exact ⟨r, List.mem_cons_self ..⟩
      · exact ⟨r', List.mem_cons_of_mem _ hr'⟩
    · rintro ⟨r', hr'⟩
      rcases List.mem_cons.mp hr' with heq | hr'
      · exact Or.inl (Prod.mk.inj heq).1.symm
      · exact Or.inr ⟨r', hr'⟩
  distinct := by
    refine List.pairwise_cons.mpr ⟨fun e he heq => hnew (h.visited_iff.mpr ⟨e.2, ?_⟩), h.distinct⟩
    rw [show ref.key = e.1 from heq]
    exact he
  closed hmem ref' href' := by
    rw [Std.TreeSet.contains_insert, Bool.or_eq_true]
    rcases List.mem_cons.mp hmem with heq | hmem
    · obtain ⟨rfl, rfl⟩ := Prod.mk.inj heq
      exact Or.inr (Or.inr ⟨_, List.mem_cons_self .., href'⟩)
    -- the reference that has been followed no longer waits: its object is visited now
    · rcases h.closed hmem href' with hvisited | hnow | ⟨refs, hrefs, hmem'⟩
      · exact Or.inl (Or.inr hvisited)
      · rcases List.mem_cons.mp hnow with rfl | hnow
        · exact Or.inl (Or.inl (by simp))
        · exact Or.inr (Or.inl hnow)
      · exact Or.inr (Or.inr ⟨refs, List.mem_cons_of_mem _ hrefs, hmem'⟩)

/-- What was visited is not visited again. -/
theorem IsUnderway.skip {ref : Reference} (h : s.IsUnderway visited found later (ref :: now))
    (hvisited : visited.contains ref.key = true) : s.IsUnderway visited found later now where
  record := h.record
  visited_iff := h.visited_iff
  distinct := h.distinct
  closed hmem ref' href' := by
    rcases h.closed hmem href' with hvisited' | hnow | hlater
    · exact Or.inl hvisited'
    · rcases List.mem_cons.mp hnow with rfl | hnow
      · exact Or.inl hvisited
      · exact Or.inr (Or.inl hnow)
    · exact Or.inr (Or.inr hlater)

/-- What is for later is visited when there is nothing else to visit. -/
theorem IsUnderway.turn (h : s.IsUnderway visited found later []) :
    s.IsUnderway visited found [] later.reverse.flatten where
  record := h.record
  visited_iff := h.visited_iff
  distinct := h.distinct
  closed hmem ref href := by
    rcases h.closed hmem href with hvisited | hnow | ⟨refs, hrefs, hmem'⟩
    · exact Or.inl hvisited
    · simp at hnow
    · exact Or.inr (Or.inl (List.mem_flatten.mpr ⟨refs, List.mem_reverse.mpr hrefs, hmem'⟩))

/-- All that was found stays, and all that waits is found. -/
theorem IsUnderway.visit (h : s.IsUnderway visited found later now)
    (hresult : s.visit missing visited found later now = .ok result) :
    (∃ visited', s.IsUnderway visited' result.reverse [] []) ∧ (∀ e ∈ found, e ∈ result) ∧
      ∀ ref, ref ∈ now ∨ (∃ refs ∈ later, ref ∈ refs) → ∃ r, (ref.key, r) ∈ result := by
  -- one case for each branch of the walk; failures have no result
  fun_induction s.visit missing visited found later now with
  | case1 visited found =>
    obtain rfl := Except.ok.inj hresult
    rw [List.reverse_reverse]
    exact ⟨⟨visited, h⟩, fun e he => List.mem_reverse.mpr he, fun ref href => by simp at href⟩
  | case2 visited found later hlater ih =>
    rw [List.unattach_reverse, List.unattach_attach] at ih
    obtain ⟨hend, hfound, hwaits⟩ := ih h.turn hresult
    refine ⟨hend, hfound, fun ref href => ?_⟩
    rcases href with hnow | ⟨refs, hrefs, hmem⟩
    · simp at hnow
    · exact hwaits ref (Or.inl (List.mem_flatten.mpr ⟨refs, List.mem_reverse.mpr hrefs, hmem⟩))
  | case3 visited found later ref now hvisited ih =>
    obtain ⟨hend, hfound, hwaits⟩ := ih (h.skip hvisited) hresult
    refine ⟨hend, hfound, fun ref' href' => ?_⟩
    rcases href' with hnow | hlater
    · rcases List.mem_cons.mp hnow with rfl | hnow
      · obtain ⟨r, hr⟩ := h.visited_iff.mp hvisited
        exact ⟨r, hfound _ hr⟩
      · exact hwaits ref' (Or.inl hnow)
    · exact hwaits ref' (Or.inr hlater)
  | case4 => exact absurd hresult (by simp)
  | case5 => exact absurd hresult (by simp)
  | case6 visited found later ref now hnew r hr ih =>
    obtain ⟨hend, hfound, hwaits⟩ := ih (h.cons hr hnew) hresult
    refine ⟨hend, fun e he => hfound e (List.mem_cons_of_mem _ he), fun ref' href' => ?_⟩
    rcases href' with hnow | ⟨refs, hrefs, hmem⟩
    · rcases List.mem_cons.mp hnow with rfl | hnow
      · exact ⟨r, hfound _ (List.mem_cons_self ..)⟩
      · exact hwaits ref' (Or.inl hnow)
    · exact hwaits ref' (Or.inr ⟨refs, List.mem_cons_of_mem _ hrefs, hmem⟩)

/-- A walk that finds no object missing is closed under references. -/
theorem isWalk_of_walk (h : s.walk missing root = .ok result) : s.IsWalk root result := by
  have hstart : s.IsUnderway ∅ [] [] [{ path := root, key := root }] :=
    ⟨fun h => by simp at h, by simp, .nil, fun h => by simp at h⟩
  obtain ⟨⟨visited, hend⟩, -, hwaits⟩ := hstart.visit h
  refine ⟨fun hmem => hend.record (List.mem_reverse.mpr hmem), ?_,
    hwaits _ (Or.inl (List.mem_singleton_self _)), fun hmem ref href => ?_⟩
  · exact (List.pairwise_reverse.mp hend.distinct).imp Ne.symm
  · rcases hend.closed (List.mem_reverse.mpr hmem) href with hvisited | hnow | ⟨refs, hrefs, -⟩
    · obtain ⟨r, hr⟩ := hend.visited_iff.mp hvisited
      exact ⟨r, List.mem_reverse.mp hr⟩
    · simp at hnow
    · simp at hrefs

/-! ### Walks that find no object missing -/

/-- Objects of a kind are visited without one missing, if every object of this kind has a record
that refers to such objects only. -/
theorem exists_visit {P : String → Prop}
    (hP : ∀ {key}, P key → ∃ r, s.record key = .ok (some r) ∧ ∀ ref ∈ r.references key, P ref.key)
    (hlater : ∀ refs ∈ later, ∀ ref ∈ refs, P ref.key) (hnow : ∀ ref ∈ now, P ref.key) :
    ∃ result, s.visit missing visited found later now = .ok result := by
  fun_induction s.visit missing visited found later now with
  | case1 => exact ⟨_, rfl⟩
  | case2 visited found later hlater' ih =>
    rw [List.unattach_reverse, List.unattach_attach] at ih
    refine ih (fun refs hrefs => absurd hrefs (by simp)) fun ref href => ?_
    obtain ⟨refs, hrefs, hmem⟩ := List.mem_flatten.mp href
    exact hlater refs (List.mem_reverse.mp hrefs) ref hmem
  | case3 visited found later ref now hvisited ih =>
    exact ih hlater fun ref href => hnow ref (List.mem_cons_of_mem _ href)
  | case4 visited found later ref now hnew e herror =>
    obtain ⟨r, hr, -⟩ := hP (hnow ref (List.mem_cons_self ..))
    exact absurd (herror.symm.trans hr) (by simp)
  | case5 visited found later ref now hnew hnone =>
    obtain ⟨r, hr, -⟩ := hP (hnow ref (List.mem_cons_self ..))
    exact absurd (hnone.symm.trans hr) (by simp)
  | case6 visited found later ref now hnew r hr ih =>
    refine ih (fun refs hrefs => ?_) fun ref href => hnow ref (List.mem_cons_of_mem _ href)
    rcases List.mem_cons.mp hrefs with rfl | hrefs
    · obtain ⟨r', hr', hrefs⟩ := hP (hnow ref (List.mem_cons_self ..))
      rw [Option.some.inj (Except.ok.inj (hr.symm.trans hr'))]
      exact hrefs
    · exact hlater refs hrefs

/-! ### What can be reached -/

/-- References lead from one object to another. -/
inductive Leads (s : Source ε) : String → String → Prop
  | refl (key : String) : Leads s key key
  | step {root key : String} {r : Record} {ref : Reference} (h : Leads s root key)
      (hr : s.record key = .ok (some r)) (href : ref ∈ r.references key) : Leads s root ref.key

theorem Leads.trans {a b c : String} (h : s.Leads a b) (h' : s.Leads b c) : s.Leads a c := by
  induction h' with
  | refl => exact h
  | step _ hr href ih => exact ih.step hr href

theorem IsWalk.exists_of_leads {key : String} (h : s.IsWalk root result) (hkey : s.Leads root key) :
    ∃ r, (key, r) ∈ result := by
  induction hkey with
  | refl => exact h.root
  | step _ hr href ih =>
    obtain ⟨r', hr'⟩ := ih
    obtain rfl := Option.some.inj (Except.ok.inj (hr.symm.trans (h.record hr')))
    exact h.closed hr' href

theorem leads_of_mem_visit (hresult : s.visit missing visited found later now = .ok result)
    (hfound : ∀ e ∈ found, s.Leads root e.1)
    (hlater : ∀ refs ∈ later, ∀ ref ∈ refs, s.Leads root ref.key)
    (hnow : ∀ ref ∈ now, s.Leads root ref.key) : ∀ e ∈ result, s.Leads root e.1 := by
  fun_induction s.visit missing visited found later now with
  | case1 visited found =>
    obtain rfl := Except.ok.inj hresult
    exact fun e he => hfound e (List.mem_reverse.mp he)
  | case2 visited found later hlater' ih =>
    rw [List.unattach_reverse, List.unattach_attach] at ih
    refine ih hresult hfound (fun refs hrefs => absurd hrefs (by simp)) fun ref href => ?_
    obtain ⟨refs, hrefs, hmem⟩ := List.mem_flatten.mp href
    exact hlater refs (List.mem_reverse.mp hrefs) ref hmem
  | case3 visited found later ref now hvisited ih =>
    exact ih hresult hfound hlater fun ref href => hnow ref (List.mem_cons_of_mem _ href)
  | case4 => exact absurd hresult (by simp)
  | case5 => exact absurd hresult (by simp)
  | case6 visited found later ref now hnew r hr ih =>
    have hlead := hnow ref (List.mem_cons_self ..)
    refine ih hresult (fun e he => ?_) (fun refs hrefs => ?_)
      fun ref href => hnow ref (List.mem_cons_of_mem _ href)
    · rcases List.mem_cons.mp he with rfl | he
      · exact hlead
      · exact hfound e he
    · rcases List.mem_cons.mp hrefs with rfl | hrefs
      · exact fun ref' href' => hlead.step hr href'
      · exact hlater refs hrefs

/-- A walk finds exactly what references lead to. -/
theorem exists_mem_walk_iff {key : String} (h : s.walk missing root = .ok result) :
    (∃ r, (key, r) ∈ result) ↔ s.Leads root key := by
  refine ⟨fun ⟨r, hr⟩ => leads_of_mem_visit h ?_ ?_ ?_ _ hr, (isWalk_of_walk h).exists_of_leads⟩
  · exact fun e he => absurd he List.not_mem_nil
  · exact fun refs hrefs => absurd hrefs List.not_mem_nil
  · intro ref href
    rw [List.mem_singleton.mp href]
    exact .refl root

/-- A walk finds no object missing exactly if all have records to which references lead. -/
theorem exists_walk_iff : (∃ records, s.walk missing root = .ok records) ↔
    ∀ key, s.Leads root key → ∃ r, s.record key = .ok (some r) := by
  constructor
  · rintro ⟨records, hrecords⟩ key hkey
    obtain ⟨r, hr⟩ := (exists_mem_walk_iff hrecords).mpr hkey
    exact ⟨r, (isWalk_of_walk hrecords).record hr⟩
  · intro h
    refine exists_visit (P := s.Leads root) (fun {key} hkey => ?_)
      (fun refs hrefs => absurd hrefs List.not_mem_nil) fun ref href => ?_
    · obtain ⟨r, hr⟩ := h key hkey
      exact ⟨r, hr, fun ref href => hkey.step hr href⟩
    · rw [List.mem_singleton.mp href]
      exact .refl root

/-- A reference leads to a record. -/
def Resolves (s : Source ε) (ref : Reference) : Prop := ∃ r, s.record ref.key = .ok (some r)

/-- Where all references lead to records, a walk finds no object missing. -/
theorem exists_walk
    (hs : ∀ {key r}, s.record key = .ok (some r) → ∀ ref ∈ r.references key, s.Resolves ref)
    {r : Record} (hroot : s.record root = .ok (some r)) :
    ∃ records, s.walk missing root = .ok records := by
  refine exists_walk_iff.mpr fun key hkey => ?_
  cases hkey with
  | refl => exact ⟨r, hroot⟩
  | step _ hr href => exact hs hr _ href

/-! ### Walks through other records -/

theorem mem_visit_of_mem_found (hresult : s.visit missing visited found later now = .ok result) :
    ∀ e ∈ found, e ∈ result := by
  fun_induction s.visit missing visited found later now with
  | case1 visited found =>
    obtain rfl := Except.ok.inj hresult
    exact fun e he => List.mem_reverse.mpr he
  | case2 visited found later hlater ih =>
    rw [List.unattach_reverse, List.unattach_attach] at ih
    exact ih hresult
  | case3 visited found later ref now hvisited ih => exact ih hresult
  | case4 => exact absurd hresult (by simp)
  | case5 => exact absurd hresult (by simp)
  | case6 visited found later ref now hnew r hr ih =>
    exact fun e he => ih hresult e (List.mem_cons_of_mem _ he)

section map

variable {ε' : Type} {s' : Source ε'} {missing' : Reference → ε'} {f : String → Record → Record}

theorem visit_map (hresult : s.visit missing visited found later now = .ok result)
    (hf : ∀ {key r}, (key, r) ∈ result →
      s'.record key = .ok (some (f key r)) ∧ (f key r).references key = r.references key) :
    s'.visit missing' visited (found.map fun e => (e.1, f e.1 e.2)) later now =
      .ok (result.map fun e => (e.1, f e.1 e.2)) := by
  fun_induction s.visit missing visited found later now with
  | case1 visited found =>
    obtain rfl := Except.ok.inj hresult
    rw [visit, dif_pos rfl, List.map_reverse]
  | case2 visited found later hlater ih =>
    rw [visit, dif_neg hlater]
    rw [List.unattach_reverse, List.unattach_attach] at ih
    exact ih hresult
  | case3 visited found later ref now hvisited ih =>
    rw [visit, dif_pos hvisited]
    exact ih hresult
  | case4 => exact absurd hresult (by simp)
  | case5 => exact absurd hresult (by simp)
  | case6 visited found later ref now hnew r hr ih =>
    -- the other source has the object too, and its references wait in the same order
    obtain ⟨hr', hrefs⟩ := hf (mem_visit_of_mem_found hresult _ (List.mem_cons_self ..))
    have hrest := ih hresult
    rw [List.map_cons] at hrest
    rw [visit, dif_neg hnew]
    split
    · next e herror => exact absurd (herror.symm.trans hr') (by simp)
    · next hnone => exact absurd (hnone.symm.trans hr') (by simp)
    · next r' hr'' =>
      obtain rfl := Option.some.inj (Except.ok.inj (hr''.symm.trans hr'))
      rw [hrefs]
      exact hrest

/-- A walk through other records that refer to the same objects finds the same objects. -/
theorem walk_map (hresult : s.walk missing root = .ok result)
    (hf : ∀ {key r}, (key, r) ∈ result →
      s'.record key = .ok (some (f key r)) ∧ (f key r).references key = r.references key) :
    s'.walk missing' root = .ok (result.map fun e => (e.1, f e.1 e.2)) :=
  visit_map hresult hf

end map

/-! ### Walks that can be computed -/

/-- At most `n` steps of a walk. -/
def visitWithin (s : Source ε) (missing : Reference → ε) :
    Nat → Std.TreeSet String → List (String × Record) → List (List Reference) → List Reference →
      Option (Except ε (List (String × Record)))
  | 0, _, _, _, _ => none
  | _ + 1, _, found, [], [] => some (.ok found.reverse)
  | n + 1, visited, found, later, [] =>
    s.visitWithin missing n visited found [] later.reverse.flatten
  | n + 1, visited, found, later, ref :: now =>
    if visited.contains ref.key then s.visitWithin missing n visited found later now
    else
      match s.record ref.key with
      | .error e => some (.error e)
      | .ok none => some (.error (missing ref))
      | .ok (some r) =>
        s.visitWithin missing n (visited.insert ref.key) ((ref.key, r) :: found)
          (r.references ref.key :: later) now

/-- A walk that ends within its bound is the walk. -/
theorem visit_eq_of_visitWithin {n : Nat} {x : Except ε (List (String × Record))}
    (h : s.visitWithin missing n visited found later now = some x) :
    s.visit missing visited found later now = x := by
  -- the bound counts down with each step, and nothing else depends on it
  fun_induction s.visitWithin missing n visited found later now with
  | case1 => exact absurd h (by simp)
  | case2 =>
    rw [visit, dif_pos rfl]
    exact Option.some.inj h
  | case3 n visited found later hlater ih =>
    rw [visit, dif_neg hlater]
    exact ih h
  | case4 n visited found later ref now hvisited ih =>
    rw [visit, dif_pos hvisited]
    exact ih h
  | case5 n visited found later ref now hnew e hr =>
    rw [visit, dif_neg hnew]
    split
    · next e' hr' =>
      rw [← Option.some.inj h, Except.error.inj (hr'.symm.trans hr)]
    · next hr' => exact absurd (hr'.symm.trans hr) (by simp)
    · next hr' => exact absurd (hr'.symm.trans hr) (by simp)
  | case6 n visited found later ref now hnew hr =>
    rw [visit, dif_neg hnew]
    split
    · next hr' => exact absurd (hr'.symm.trans hr) (by simp)
    · exact Option.some.inj h
    · next hr' => exact absurd (hr'.symm.trans hr) (by simp)
  | case7 n visited found later ref now hnew r hr ih =>
    rw [visit, dif_neg hnew]
    split
    · next hr' => exact absurd (hr'.symm.trans hr) (by simp)
    · next hr' => exact absurd (hr'.symm.trans hr) (by simp)
    · next r' hr' =>
      obtain rfl := Option.some.inj (Except.ok.inj (hr'.symm.trans hr))
      exact ih h

end Source
end MinimalistGrammar
