import Std.Data.TreeMap

/-!
# Dictionaries

A dictionary is the list of its entries in increasing order of their keys. The order makes the
list a normal form: two dictionaries that answer every look-up alike are equal, and going through
the entries is going through them by key.

## Main definitions

* `Dict` — the entries, with the proof that their keys increase.
* `Dict.get?`, `Dict.insert`, `Dict.erase` — look-up, and a change at one key.
* `Dict.insertAll`, `Dict.unite` — one value at many keys, and two dictionaries in one.
* `insertEntry` — insertion on the bare list of entries.

## Main statements

* `Dict.get?_eq_some_iff` — looking up a key finds the entry with this key.
* `Dict.ext_get?` — a dictionary is what it answers.
* `Dict.keys_erase_congr`, `Dict.keys_insert_congr` — two dictionaries with the same keys keep them
  in step.
* `Dict.entries_insert_perm`, `Dict.entries_perm_of_get?` — what a change does to the entries.
-/

namespace MinimalistGrammar

variable {κ α β : Type} [Ord κ]

/-! ### Lists of entries -/

/-- The entries with the one at `k` set to `a`. -/
def insertEntry (k : κ) (a : α) : List (κ × α) → List (κ × α)
  | [] => [(k, a)]
  | e :: rest =>
    match compare k e.1 with
    | .lt => (k, a) :: e :: rest
    | .eq => (k, a) :: rest
    | .gt => e :: insertEntry k a rest

@[simp] theorem insertEntry_nil (k : κ) (a : α) : insertEntry k a [] = [(k, a)] := rfl

theorem mem_insertEntry {k : κ} {a : α} {x : κ × α} {l : List (κ × α)}
    (h : x ∈ insertEntry k a l) : x = (k, a) ∨ x ∈ l := by
  induction l with
  | nil => exact Or.inl (by simpa using h)
  | cons e rest ih =>
    rw [insertEntry] at h
    split at h
    · simpa using h
    · rcases List.mem_cons.mp h with h | h
      · exact Or.inl h
      · exact Or.inr (List.mem_cons_of_mem _ h)
    · rcases List.mem_cons.mp h with h | h
      · exact Or.inr (h ▸ List.mem_cons_self ..)
      · exact (ih h).imp_right (List.mem_cons_of_mem _)

/-- The keys of a list of entries increase. -/
def Increasing (l : List (κ × α)) : Prop :=
  l.Pairwise fun a b => compare a.1 b.1 = .lt

theorem Increasing.insertEntry [Std.TransOrd κ] {k : κ} {a : α} {l : List (κ × α)}
    (h : Increasing l) : Increasing (insertEntry k a l) := by
  induction l with
  | nil => exact List.pairwise_singleton _ _
  | cons e rest ih =>
    obtain ⟨hlt, hrest⟩ := List.pairwise_cons.mp h
    rw [MinimalistGrammar.insertEntry]
    split
    · next hk =>
      refine List.pairwise_cons.mpr ⟨fun x hx => ?_, h⟩
      rcases List.mem_cons.mp hx with rfl | hx
      · exact hk
      · exact Std.TransCmp.lt_trans hk (hlt x hx)
    · next hk =>
      exact List.pairwise_cons.mpr
        ⟨fun x hx => Std.TransCmp.lt_of_eq_of_lt hk (hlt x hx), hrest⟩
    · next hk =>
      refine List.pairwise_cons.mpr ⟨fun x hx => ?_, ih hrest⟩
      rcases mem_insertEntry hx with rfl | hx
      · exact Std.OrientedCmp.lt_of_gt hk
      · exact hlt x hx

/-! ### Dictionaries -/

/-- A dictionary from `κ` to `α`: its entries, by increasing key. -/
structure Dict (κ α : Type) [Ord κ] where
  /-- The entries in the order of their keys. -/
  entries : List (κ × α)
  /-- No key comes twice or out of order. -/
  increasing : Increasing entries

namespace Dict

@[ext] theorem ext {d e : Dict κ α} (h : d.entries = e.entries) : d = e := by
  cases d; cases e; cases h; rfl

instance [DecidableEq κ] [DecidableEq α] : DecidableEq (Dict κ α) := fun d e =>
  decidable_of_iff (d.entries = e.entries) ⟨Dict.ext, fun h => h ▸ rfl⟩

/-- The dictionary without entries. -/
def empty : Dict κ α := ⟨[], List.Pairwise.nil⟩

instance : EmptyCollection (Dict κ α) := ⟨empty⟩
instance : Inhabited (Dict κ α) := ⟨empty⟩

@[simp] theorem entries_empty : (∅ : Dict κ α).entries = [] := rfl

/-- The value at `k`, if there is one. -/
def get? (d : Dict κ α) (k : κ) : Option α :=
  (d.entries.find? fun e => compare k e.1 == .eq).map (·.2)

@[simp] theorem get?_empty (k : κ) : (∅ : Dict κ α).get? k = none := rfl

/-- Whether `k` has a value. -/
def contains (d : Dict κ α) (k : κ) : Bool := (d.get? k).isSome

/-- The dictionary with `a` at `k`. -/
def insert [Std.TransOrd κ] (d : Dict κ α) (k : κ) (a : α) : Dict κ α :=
  ⟨insertEntry k a d.entries, d.increasing.insertEntry⟩

@[simp] theorem entries_insert [Std.TransOrd κ] (d : Dict κ α) (k : κ) (a : α) :
    (d.insert k a).entries = insertEntry k a d.entries := rfl

/-- The dictionary without an entry at `k`. -/
def erase (d : Dict κ α) (k : κ) : Dict κ α :=
  ⟨d.entries.filter fun e => compare k e.1 != .eq, List.Pairwise.filter _ d.increasing⟩

@[simp] theorem entries_erase (d : Dict κ α) (k : κ) :
    (d.erase k).entries = d.entries.filter fun e => compare k e.1 != .eq := rfl

/-- The keys, in increasing order. -/
def keys (d : Dict κ α) : List κ := d.entries.map (·.1)

/-- The values, in the order of their keys. -/
def values (d : Dict κ α) : List α := d.entries.map (·.2)

/-- Whether there is no entry. -/
def isEmpty (d : Dict κ α) : Bool := d.entries.isEmpty

/-- The dictionary with `f` applied to every value. -/
def map (f : α → β) (d : Dict κ α) : Dict κ β :=
  ⟨d.entries.map fun e => (e.1, f e.2), by
    simpa [Increasing, List.pairwise_map] using d.increasing⟩

@[simp] theorem entries_map (f : α → β) (d : Dict κ α) :
    (d.map f).entries = d.entries.map fun e => (e.1, f e.2) := rfl

@[simp] theorem keys_map (f : α → β) (d : Dict κ α) : (d.map f).keys = d.keys :=
  List.map_map ..

/-- Dictionaries with the same keys are equal but for their values. -/
theorem keys_eq_keys_iff {d : Dict κ α} {e : Dict κ β} :
    d.keys = e.keys ↔ d.map (fun _ => ()) = e.map (fun _ => ()) := by
  constructor
  · intro h
    have hunits {γ : Type} (d : Dict κ γ) :
        (d.map fun _ => ()).entries = d.keys.map fun k => (k, ()) := by
      rw [entries_map, keys, List.map_map]
      rfl
    exact Dict.ext (by rw [hunits, hunits, h])
  · intro h
    rw [← keys_map (fun _ => ()) d, h, keys_map]

/-- The entries of a search tree increase. -/
theorem increasing_toList [Std.TransOrd κ] (t : Std.TreeMap κ α) : Increasing t.toList := by
  have h := t.ordered_keys
  rw [← Std.TreeMap.map_fst_toList_eq_keys] at h
  exact List.pairwise_map.mp h

/-- The dictionary of the entries of a list; of two entries with one key the later counts. -/
def ofList [Std.TransOrd κ] (l : List (κ × α)) : Dict κ α :=
  -- a search tree sorts them faster than one insertion after the other
  ⟨(Std.TreeMap.ofList l).toList, increasing_toList _⟩

@[simp] theorem ofList_nil [Std.TransOrd κ] : (ofList [] : Dict κ α) = ∅ := rfl

/-- The dictionary with `a` at every one of some keys. -/
def insertAll [Std.TransOrd κ] (d : Dict κ α) (keys : List κ) (a : α) : Dict κ α :=
  keys.foldl (fun d k => d.insert k a) d

/-- The entries of two dictionaries; for one key, that of the first counts. -/
def unite [Std.TransOrd κ] (d e : Dict κ α) : Dict κ α :=
  e.entries.foldl (fun d (k, a) => if d.contains k then d else d.insert k a) d

end Dict

/-! ### Looking up -/

section lookup

variable [Std.LawfulEqOrd κ] {k l : κ} {a : α}

theorem ne_of_compare_lt (h : compare k l = .lt) : k ≠ l := by
  rintro rfl
  have hself : compare k k = .eq := Std.ReflCmp.compare_self
  rw [hself] at h
  exact absurd h (by decide)

theorem Increasing.nodup {l : List (κ × α)} (h : Increasing l) : l.Nodup :=
  h.imp fun hlt heq => ne_of_compare_lt hlt (congrArg Prod.fst heq)

theorem Increasing.find?_of_mem {l : List (κ × α)} (h : Increasing l) (hmem : (k, a) ∈ l) :
    (l.find? fun e => compare k e.1 == .eq) = some (k, a) := by
  induction l with
  | nil => exact absurd hmem (by simp)
  | cons e rest ih =>
    obtain ⟨hlt, hrest⟩ := List.pairwise_cons.mp h
    rcases List.mem_cons.mp hmem with rfl | hmem
    · simp [Std.ReflCmp.compare_self]
    · have hne : compare k e.1 ≠ .eq := fun heq =>
        ne_of_compare_lt (hlt _ hmem) (Std.LawfulEqCmp.eq_of_compare heq).symm
      simp only [List.find?_cons, beq_eq_false_iff_ne.mpr hne]
      exact ih hrest hmem

/-- Insertion sets the entry at one key and keeps all others. -/
theorem Increasing.mem_insertEntry_iff [Std.TransOrd κ] {x : κ × α} {l : List (κ × α)}
    (h : Increasing l) :
    x ∈ MinimalistGrammar.insertEntry k a l ↔ x = (k, a) ∨ x.1 ≠ k ∧ x ∈ l := by
  induction l with
  | nil => simp
  | cons e rest ih =>
    obtain ⟨hlt, hrest⟩ := List.pairwise_cons.mp h
    rw [MinimalistGrammar.insertEntry]
    split
    · next hk =>
      -- all entries have greater keys
      have hne : ∀ y ∈ e :: rest, y.1 ≠ k := by
        intro y hy
        rcases List.mem_cons.mp hy with rfl | hy
        · exact (ne_of_compare_lt hk).symm
        · exact (ne_of_compare_lt (Std.TransCmp.lt_trans hk (hlt y hy))).symm
      rw [List.mem_cons]
      exact or_congr_right ⟨fun hx => ⟨hne x hx, hx⟩, fun hx => hx.2⟩
    · next hk =>
      obtain rfl := Std.LawfulEqCmp.eq_of_compare hk
      have hne : ∀ y ∈ rest, y.1 ≠ e.1 := fun y hy => (ne_of_compare_lt (hlt y hy)).symm
      rw [List.mem_cons, List.mem_cons]
      refine or_congr_right ⟨fun hx => ⟨hne x hx, Or.inr hx⟩, ?_⟩
      rintro ⟨hx, rfl | hmem⟩
      · exact absurd rfl hx
      · exact hmem
    · next hk =>
      have hek : e.1 ≠ k := ne_of_compare_lt (Std.OrientedCmp.lt_of_gt hk)
      rw [List.mem_cons, List.mem_cons, ih hrest]
      constructor
      · rintro (rfl | rfl | ⟨hx, hmem⟩)
        · exact Or.inr ⟨hek, Or.inl rfl⟩
        · exact Or.inl rfl
        · exact Or.inr ⟨hx, Or.inr hmem⟩
      · rintro (rfl | ⟨hx, rfl | hmem⟩)
        · exact Or.inr (Or.inl rfl)
        · exact Or.inl rfl
        · exact Or.inr (Or.inr ⟨hx, hmem⟩)

/-- An entry is set where it stands. -/
theorem Increasing.insertEntry_append {b : α} {before after : List (κ × α)} [Std.TransOrd κ]
    (h : Increasing (before ++ (k, a) :: after)) :
    MinimalistGrammar.insertEntry k b (before ++ (k, a) :: after) = before ++ (k, b) :: after := by
  induction before with
  | nil => simp [MinimalistGrammar.insertEntry, Std.ReflCmp.compare_self]
  | cons e before ih =>
    obtain ⟨hlt, hrest⟩ := List.pairwise_cons.mp h
    have hgt : compare k e.1 = .gt := Std.OrientedCmp.gt_of_lt (hlt (k, a) (by simp))
    rw [List.cons_append, MinimalistGrammar.insertEntry, hgt]
    exact congrArg _ (ih hrest)

namespace Dict

variable {d e : Dict κ α}

/-- The value at a key is that of the entry with this key. -/
theorem get?_eq_some_iff : d.get? k = some a ↔ (k, a) ∈ d.entries := by
  rw [get?, Option.map_eq_some_iff]
  constructor
  · rintro ⟨x, hx, rfl⟩
    have hkey : compare k x.1 = .eq := by simpa using List.find?_some hx
    rw [Std.LawfulEqCmp.eq_of_compare hkey]
    exact List.mem_of_find?_eq_some hx
  · intro hmem
    exact ⟨_, d.increasing.find?_of_mem hmem, rfl⟩

/-- The values are those at the keys. -/
theorem mem_values_iff : a ∈ d.values ↔ ∃ k, d.get? k = some a := by
  simp only [values, List.mem_map, get?_eq_some_iff]
  constructor
  · rintro ⟨⟨k, a⟩, hmem, rfl⟩
    exact ⟨k, hmem⟩
  · rintro ⟨k, hmem⟩
    exact ⟨(k, a), hmem, rfl⟩

@[simp] theorem get?_erase_self : (d.erase k).get? k = none := by
  refine Option.eq_none_iff_forall_ne_some.mpr fun b hb => ?_
  rw [get?_eq_some_iff, entries_erase, List.mem_filter] at hb
  exact absurd hb.2 (by simp)

theorem get?_erase_of_ne (h : l ≠ k) : (d.erase k).get? l = d.get? l := by
  refine Option.ext fun b => ?_
  rw [get?_eq_some_iff, get?_eq_some_iff, entries_erase, List.mem_filter]
  simp [Std.LawfulEqCmp.compare_eq_iff_eq, h.symm]

/-- What is left when a key is erased was there under another key. -/
theorem get?_erase_eq_some_iff : (d.erase k).get? l = some a ↔ l ≠ k ∧ d.get? l = some a := by
  by_cases h : l = k
  · rw [h, get?_erase_self]
    exact iff_of_false nofun fun hl => hl.1 rfl
  · rw [get?_erase_of_ne h]
    exact (and_iff_right h).symm

@[simp] theorem get?_map (f : α → β) (d : Dict κ α) (k : κ) :
    (d.map f).get? k = (d.get? k).map f := by
  refine Option.ext fun b => ?_
  rw [get?_eq_some_iff, entries_map, List.mem_map, Option.map_eq_some_iff]
  constructor
  · rintro ⟨x, hx, heq⟩
    obtain ⟨rfl, rfl⟩ := Prod.mk.inj heq
    exact ⟨x.2, get?_eq_some_iff.mpr hx, rfl⟩
  · rintro ⟨a, ha, rfl⟩
    exact ⟨(k, a), get?_eq_some_iff.mp ha, rfl⟩

variable [Std.TransOrd κ]

/-- Dictionaries that answer every look-up alike are equal. -/
theorem ext_get? (h : ∀ k, d.get? k = e.get? k) : d = e := by
  have hmem : ∀ x, x ∈ d.entries ↔ x ∈ e.entries := by
    intro x
    rw [← get?_eq_some_iff (d := d), h, get?_eq_some_iff]
  have hperm := (List.perm_ext_iff_of_nodup d.increasing.nodup e.increasing.nodup).mpr hmem
  refine Dict.ext (hperm.eq_of_pairwise (fun x y _ _ hxy hyx => ?_) d.increasing e.increasing)
  exact absurd hyx (Std.OrientedCmp.not_lt_of_lt hxy)

@[simp] theorem get?_insert_self : (d.insert k a).get? k = some a := by
  rw [get?_eq_some_iff, entries_insert, d.increasing.mem_insertEntry_iff]
  exact Or.inl rfl

theorem get?_insert_of_ne (h : l ≠ k) : (d.insert k a).get? l = d.get? l := by
  refine Option.ext fun b => ?_
  rw [get?_eq_some_iff, get?_eq_some_iff, entries_insert, d.increasing.mem_insertEntry_iff]
  simp [h]

theorem get?_insert [DecidableEq κ] :
    (d.insert k a).get? l = if l = k then some a else d.get? l := by
  split
  · next h => rw [h, get?_insert_self]
  · next h => rw [get?_insert_of_ne h]

theorem get?_insertAll [DecidableEq κ] (d : Dict κ α) (keys : List κ) (a : α) (l : κ) :
    (d.insertAll keys a).get? l = if l ∈ keys then some a else d.get? l := by
  induction keys generalizing d with
  | nil => simp [insertAll]
  | cons k keys ih =>
    rw [insertAll, List.foldl_cons, ← insertAll, ih, get?_insert]
    by_cases hl : l = k <;> simp [hl]

/-- What the first dictionary does not answer the second one does. -/
theorem get?_unite (d e : Dict κ α) (l : κ) : (d.unite e).get? l = (d.get? l).or (e.get? l) := by
  have hfold (entries : List (κ × α)) (d : Dict κ α) :
      (entries.foldl (fun d (k, a) => if d.contains k then d else d.insert k a) d).get? l =
        (d.get? l).or ((entries.find? fun e => compare l e.1 == .eq).map (·.2)) := by
    induction entries generalizing d with
    | nil => simp
    | cons x entries ih =>
      obtain ⟨k, a⟩ := x
      rw [List.foldl_cons, ih, List.find?_cons]
      by_cases hl : l = k
      · subst hl
        cases hd : d.get? l <;> simp [contains, hd, Std.ReflCmp.compare_self]
      · have hne : (compare l k == Ordering.eq) = false := by
          simpa [Std.LawfulEqCmp.compare_eq_iff_eq] using hl
        simp only [hne]
        split
        · rfl
        · rw [get?_insert_of_ne hl]
  exact hfold e.entries d

theorem map_insert (f : α → β) (d : Dict κ α) (k : κ) (a : α) :
    (d.insert k a).map f = (d.map f).insert k (f a) := by
  refine ext_get? fun l => ?_
  by_cases hl : l = k
  · rw [hl, get?_map, get?_insert_self, get?_insert_self, Option.map_some]
  · rw [get?_map, get?_insert_of_ne hl, get?_insert_of_ne hl, get?_map]

theorem map_erase (f : α → β) (d : Dict κ α) (k : κ) : (d.erase k).map f = (d.map f).erase k := by
  refine ext_get? fun l => ?_
  by_cases hl : l = k
  · rw [hl, get?_map, get?_erase_self, get?_erase_self, Option.map_none]
  · rw [get?_map, get?_erase_of_ne hl, get?_erase_of_ne hl, get?_map]

/-- What is not there is erased again after it was inserted. -/
theorem erase_insert (h : d.get? k = none) : (d.insert k a).erase k = d := by
  refine ext_get? fun l => ?_
  by_cases hl : l = k
  · rw [hl, get?_erase_self, h]
  · rw [get?_erase_of_ne hl, get?_insert_of_ne hl]

/-- What is there is inserted again after it was erased. -/
theorem insert_erase (h : d.get? k = some a) : (d.erase k).insert k a = d := by
  refine ext_get? fun l => ?_
  by_cases hl : l = k
  · rw [hl, get?_insert_self, h]
  · rw [get?_insert_of_ne hl, get?_erase_of_ne hl]

section keys

variable {e : Dict κ β}

/-- The keys stay the same when one of them is erased from both. -/
theorem keys_erase_congr (h : d.keys = e.keys) (k : κ) : (d.erase k).keys = (e.erase k).keys :=
  keys_eq_keys_iff.mpr (by rw [map_erase, map_erase, keys_eq_keys_iff.mp h])

/-- The keys stay the same when one is inserted in both. -/
theorem keys_insert_congr (h : d.keys = e.keys) (k : κ) (a : α) (b : β) :
    (d.insert k a).keys = (e.insert k b).keys :=
  keys_eq_keys_iff.mpr (by rw [map_insert, map_insert, keys_eq_keys_iff.mp h])

end keys

/-- A new entry is added to the others. -/
theorem entries_insert_perm (h : d.get? k = none) :
    (d.insert k a).entries.Perm ((k, a) :: d.entries) := by
  have hnew : ∀ x ∈ d.entries, x.1 ≠ k := by
    rintro x hx rfl
    rw [get?_eq_some_iff.mpr hx] at h
    exact absurd h (by simp)
  have hnodup : ((k, a) :: d.entries).Nodup :=
    List.nodup_cons.mpr ⟨fun hmem => hnew _ hmem rfl, d.increasing.nodup⟩
  refine (List.perm_ext_iff_of_nodup (d.insert k a).increasing.nodup hnodup).mpr fun x => ?_
  rw [entries_insert, d.increasing.mem_insertEntry_iff, List.mem_cons]
  exact or_congr_right ⟨fun hx => hx.2, fun hx => ⟨hnew x hx, hx⟩⟩

/-- A value that is set anew is found where the old one was. -/
theorem exists_entries_insert (h : d.get? k = some a) (b : α) : ∃ before after,
    d.entries = before ++ (k, a) :: after ∧ (d.insert k b).entries = before ++ (k, b) :: after := by
  obtain ⟨before, after, heq⟩ := List.append_of_mem (get?_eq_some_iff.mp h)
  have hincreasing := d.increasing
  rw [heq] at hincreasing
  exact ⟨before, after, heq, by rw [entries_insert, heq, hincreasing.insertEntry_append]⟩

/-- The entry at a key, and the others. -/
theorem entries_perm_of_get? (h : d.get? k = some a) :
    d.entries.Perm ((k, a) :: (d.erase k).entries) := by
  have hperm := entries_insert_perm (d := d.erase k) (k := k) (a := a) get?_erase_self
  rwa [insert_erase h] at hperm

/-! ### Dictionaries of lists -/

omit [Std.TransOrd κ] in
theorem distinct_entries (d : Dict κ α) : d.entries.Pairwise (·.1 ≠ ·.1) :=
  d.increasing.imp ne_of_compare_lt

variable [DecidableEq κ] {entries : List (κ × α)}

theorem getElem?_ofList_eq_some_iff (hdistinct : entries.Pairwise (·.1 ≠ ·.1)) :
    (Std.TreeMap.ofList entries)[k]? = some a ↔ (k, a) ∈ entries := by
  have hmem {b : α} (h : (k, b) ∈ entries) : (Std.TreeMap.ofList entries)[k]? = some b := by
    refine Std.TreeMap.getElem?_ofList_of_mem Std.ReflCmp.compare_self ?_ h
    exact hdistinct.imp fun hne heq => hne (Std.LawfulEqCmp.eq_of_compare heq)
  refine ⟨fun h => ?_, hmem⟩
  have hcontains : (Std.TreeMap.ofList entries).contains k = true := by
    rw [Std.TreeMap.contains_eq_isSome_getElem?, h]
    rfl
  rw [Std.TreeMap.contains_ofList, List.contains_iff_mem] at hcontains
  obtain ⟨x, hx, rfl⟩ := List.mem_map.mp hcontains
  rwa [Option.some.inj (h.symm.trans (hmem hx))]

/-- Where no key comes twice, the entries of a list are those of its dictionary. -/
theorem get?_ofList_eq_some_iff (hdistinct : entries.Pairwise (·.1 ≠ ·.1)) :
    (ofList entries).get? k = some a ↔ (k, a) ∈ entries := by
  rw [get?_eq_some_iff, ofList, Std.TreeMap.mem_toList_iff_getElem?_eq_some,
    getElem?_ofList_eq_some_iff hdistinct]

/-- Where a key comes with one value only, it does not matter which of its entries counts. -/
theorem get?_ofList_eq_some_iff_of_agree
    (hagree : ∀ b c, (k, b) ∈ entries → (k, c) ∈ entries → b = c) :
    (ofList entries).get? k = some a ↔ (k, a) ∈ entries := by
  have hmem {b : α} (h : (k, b) ∈ entries) (m : Std.TreeMap κ α) :
      (m.insertMany entries)[k]? = some b := by
    -- by the entries: the last one with this key stays
    induction entries generalizing m with
    | nil => exact absurd h List.not_mem_nil
    | cons e entries ih =>
      have hagree' : ∀ b c, (k, b) ∈ entries → (k, c) ∈ entries → b = c := fun b c hb hc =>
        hagree b c (List.mem_cons_of_mem _ hb) (List.mem_cons_of_mem _ hc)
      rw [Std.TreeMap.insertMany_cons]
      by_cases hlater : ∃ c, (k, c) ∈ entries
      · obtain ⟨c, hc⟩ := hlater
        obtain rfl := hagree b c h (List.mem_cons_of_mem _ hc)
        exact ih hagree' hc _
      · rcases List.mem_cons.mp h with rfl | h
        · rw [Std.TreeMap.getElem?_insertMany_list_of_contains_eq_false,
            Std.TreeMap.getElem?_insert_self]
          refine Bool.eq_false_iff.mpr fun hcontains => hlater ?_
          obtain ⟨⟨k', c⟩, hc, rfl⟩ := List.mem_map.mp (List.contains_iff_mem.mp hcontains)
          exact ⟨c, hc⟩
        · exact absurd ⟨b, h⟩ hlater
  rw [get?_eq_some_iff, ofList, Std.TreeMap.mem_toList_iff_getElem?_eq_some,
    Std.TreeMap.ofList_eq_insertMany_empty]
  refine ⟨fun h => ?_, fun h => hmem h _⟩
  have hcontains : (Std.TreeMap.ofList entries).contains k = true := by
    rw [Std.TreeMap.ofList_eq_insertMany_empty, Std.TreeMap.contains_eq_isSome_getElem?, h]
    rfl
  rw [Std.TreeMap.contains_ofList, List.contains_iff_mem] at hcontains
  obtain ⟨x, hx, rfl⟩ := List.mem_map.mp hcontains
  rwa [Option.some.inj (h.symm.trans (hmem hx _))]

@[simp] theorem ofList_entries (d : Dict κ α) : ofList d.entries = d :=
  ext_get? fun k => Option.ext fun a => by
    rw [get?_ofList_eq_some_iff d.distinct_entries, get?_eq_some_iff]

end Dict
end lookup

namespace Dict

@[simp] theorem map_empty (f : α → β) : (∅ : Dict κ α).map f = ∅ := rfl

theorem contains_iff {d : Dict κ α} {k : κ} : d.contains k = true ↔ ∃ a, d.get? k = some a :=
  Option.isSome_iff_exists

theorem contains_eq_false_iff {d : Dict κ α} {k : κ} : d.contains k = false ↔ d.get? k = none := by
  rw [contains, Option.isSome_eq_false_iff, Option.isNone_iff_eq_none]

theorem isEmpty_iff {d : Dict κ α} : d.isEmpty = true ↔ d = ∅ := by
  rw [isEmpty, List.isEmpty_iff]
  exact ⟨fun h => Dict.ext h, fun h => h ▸ rfl⟩

end Dict
end MinimalistGrammar
