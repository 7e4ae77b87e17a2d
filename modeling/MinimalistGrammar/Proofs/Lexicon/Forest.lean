import Mathlib.Data.List.Nodup
import MinimalistGrammar.Proofs.Lexicon.Growth

/-!
# Tries without numbers

What a lexicon holds, apart from the numbers of its nodes, is a forest of tries: inner nodes for
features, leaves for words. A row is a word with the features on the way down to it. Sowing a row
follows the trees that say its features and starts a new one where there is none. A grown forest has
every row once, and its rows, sown one after the other in their order, make the forest again.

## Main definitions

* `Trie` — a word, or a feature with the tries below it.
* `Trie.sow`, `Trie.sowAll` — a forest with one more row, or with some.
* `Trie.rowsOf` — the rows of a forest, in its order.
* `Trie.AllHave` — all features of a forest have a property.
* `Trie.AreGrown` — the trees side by side differ, and every inner node has something below it.

## Main results

* `Trie.AreGrown.sow` — sowing keeps a forest grown.
* `Trie.mem_plainRows_sow`, `Trie.AreGrown.nodup_plainRows` — the rows of a forest are those sown.
* `Trie.sowAll_rowsOf` — the rows of a grown forest make it again.
-/

namespace MinimalistGrammar

/-- A word, or a feature with the tries below it. -/
inductive Trie
  | word (w : String)
  | feature (f : Feature) (parts : List Trie)

namespace Trie

variable {w : String} {f : Feature} {fs : List Feature} {t : Trie} {ts : List Trie}

/-- What a trie says at its top; a mark does not count. -/
def label : Trie → Content
  | word w => .word w
  | feature f _ => .feature f.plain

/-- What the first node for a row says. -/
def rowLabel (row : String × List Feature) : Content :=
  match row.2 with
  | [] => .word row.1
  | f :: _ => .feature f.plain

/-! ### Sowing -/

/-- A trie with what is below its top changed, if the top says `f`. -/
def within (f : Feature) (change : List Trie → List Trie) : Trie → Trie
  | word w => word w
  | feature g parts => if f.agrees g then feature g (change parts) else feature g parts

/-- A forest with one more row: the word `w` below some features. -/
def sow (w : String) : List Feature → List Trie → List Trie
  | [], ts => if .word w ∈ ts.map label then ts else ts ++ [word w]
  | f :: fs, ts =>
    if .feature f.plain ∈ ts.map label then ts.map (within f (sow w fs))
    else ts ++ [feature f (sow w fs [])]

/-- A forest with some more rows. -/
def sowAll (rows : List (String × List Feature)) (ts : List Trie) : List Trie :=
  rows.foldl (fun ts row => sow row.1 row.2 ts) ts

theorem sowAll_append (rows more : List (String × List Feature)) (ts : List Trie) :
    sowAll (rows ++ more) ts = sowAll more (sowAll rows ts) :=
  List.foldl_append

theorem label_eq_feature_iff : t.label = .feature f.plain ↔
    ∃ g parts, t = feature g parts ∧ f.agrees g = true := by
  cases t with
  | word w => simp [label]
  | feature g parts =>
    rw [label, Content.feature.injEq]
    constructor
    · exact fun h => ⟨g, parts, rfl, Feature.agrees_iff_plain.mpr h.symm⟩
    · rintro ⟨_, _, heq, hagrees⟩
      obtain ⟨rfl, rfl⟩ := Trie.feature.inj heq
      exact (Feature.agrees_iff_plain.mp hagrees).symm

theorem label_eq_word_iff : t.label = .word w ↔ t = word w := by
  cases t <;> simp [label]

@[simp] theorem label_within (f : Feature) (change : List Trie → List Trie) (t : Trie) :
    (within f change t).label = t.label := by
  cases t with
  | word w => rfl
  | feature g parts =>
    rw [within]
    split <;> rfl

theorem within_of_label_ne {change : List Trie → List Trie} (h : t.label ≠ .feature f.plain) :
    within f change t = t := by
  cases t with
  | word w => rfl
  | feature g parts =>
    rw [within, if_neg]
    exact fun hagrees => h (label_eq_feature_iff.mpr ⟨g, parts, rfl, hagrees⟩)

/-- Trees in which nothing says `f` stay as they are. -/
theorem map_within_of_not_mem {change : List Trie → List Trie}
    (h : .feature f.plain ∉ ts.map label) : ts.map (within f change) = ts := by
  have hid : ∀ t ∈ ts, within f change t = id t := fun t ht =>
    within_of_label_ne fun heq => h (List.mem_map.mpr ⟨t, ht, heq⟩)
  rw [List.map_congr_left hid, List.map_id]

/-- The trees with one that says `f` among them. -/
def withFeature (f : Feature) (ts : List Trie) : List Trie :=
  if .feature f.plain ∈ ts.map label then ts else ts ++ [feature f []]

/-- A row goes below the tree that says its first feature. -/
theorem sow_cons (w : String) (f : Feature) (fs : List Feature) (ts : List Trie) :
    sow w (f :: fs) ts = (withFeature f ts).map (within f (sow w fs)) := by
  rw [withFeature]
  split
  · next h => rw [sow, if_pos h]
  · next h =>
    rw [sow, if_neg h, List.map_append, map_within_of_not_mem h, List.map_singleton, within,
      if_pos (Feature.agrees_self f)]

theorem sow_ne_nil (w : String) (fs : List Feature) (ts : List Trie) : sow w fs ts ≠ [] := by
  cases fs with
  | nil =>
    rw [sow]
    split
    · next hmem =>
      rintro rfl
      simp at hmem
    · simp
  | cons f fs =>
    rw [sow]
    split
    · next hmem =>
      intro hnil
      rw [List.map_eq_nil_iff.mp hnil] at hmem
      simp at hmem
    · simp

/-- A row starts a new tree exactly if no tree says what it begins with. -/
theorem map_label_sow (w : String) (fs : List Feature) (ts : List Trie) :
    (sow w fs ts).map label =
      if rowLabel (w, fs) ∈ ts.map label then ts.map label
      else ts.map label ++ [rowLabel (w, fs)] := by
  cases fs with
  | nil =>
    rw [sow, rowLabel]
    split
    · rfl
    · rw [List.map_append]
      rfl
  | cons f fs =>
    rw [sow, rowLabel]
    split
    · rw [List.map_map]
      exact List.map_congr_left fun t _ => label_within ..
    · rw [List.map_append]
      rfl

/-! ### Grown forests -/

mutual

/-- A word, or an inner node with something below it, all the way down. -/
def IsGrown : Trie → Prop
  | word _ => True
  | feature _ parts => parts ≠ [] ∧ AreGrown parts

/-- Grown trees that say different things. -/
def AreGrown : List Trie → Prop
  | [] => True
  | t :: ts => t.IsGrown ∧ t.label ∉ ts.map label ∧ AreGrown ts

end

theorem areGrown_iff : AreGrown ts ↔ (∀ t ∈ ts, t.IsGrown) ∧ (ts.map label).Nodup := by
  induction ts with
  | nil => simp [AreGrown]
  | cons t ts ih =>
    rw [AreGrown, ih, List.forall_mem_cons, List.map_cons, List.nodup_cons]
    tauto

/-- Sowing keeps a forest grown. -/
theorem AreGrown.sow (h : AreGrown ts) (w : String) (fs : List Feature) :
    AreGrown (Trie.sow w fs ts) := by
  have hlabels (fs : List Feature) {ts : List Trie} (h : AreGrown ts) :
      ((Trie.sow w fs ts).map label).Nodup := by
    rw [map_label_sow]
    split
    · exact (areGrown_iff.mp h).2
    · next hmem =>
      exact List.nodup_append.mpr ⟨(areGrown_iff.mp h).2, by simp, by simpa using hmem⟩
  -- labels stay distinct at each depth, so it is left to show that each tree is grown
  induction fs generalizing ts with
  | nil =>
    refine areGrown_iff.mpr ⟨?_, hlabels [] h⟩
    intro t ht
    rw [Trie.sow] at ht
    split at ht
    · exact (areGrown_iff.mp h).1 t ht
    · rcases List.mem_append.mp ht with ht | ht
      · exact (areGrown_iff.mp h).1 t ht
      · rw [List.mem_singleton.mp ht]
        trivial
  | cons f fs ih =>
    refine areGrown_iff.mpr ⟨?_, hlabels (f :: fs) h⟩
    intro t ht
    rw [Trie.sow] at ht
    split at ht
    · obtain ⟨old, hold, rfl⟩ := List.mem_map.mp ht
      have hgrown := (areGrown_iff.mp h).1 old hold
      cases old with
      | word v => exact hgrown
      | feature g parts =>
        rw [within]
        split
        · exact ⟨sow_ne_nil w fs parts, ih hgrown.2⟩
        · exact hgrown
    · rcases List.mem_append.mp ht with ht | ht
      · exact (areGrown_iff.mp h).1 t ht
      · rw [List.mem_singleton.mp ht]
        exact ⟨sow_ne_nil w fs [], ih trivial⟩

theorem areGrown_sowAll (rows : List (String × List Feature)) (h : AreGrown ts) :
    AreGrown (sowAll rows ts) := by
  induction rows generalizing ts with
  | nil => exact h
  | cons row rows ih => exact ih (h.sow row.1 row.2)

/-! ### Rows -/

/-- A row with one more feature on top. -/
def under (f : Feature) (row : String × List Feature) : String × List Feature := (row.1, f :: row.2)

mutual

/-- The rows of a trie. -/
def rows : Trie → List (String × List Feature)
  | word w => [(w, [])]
  | feature f parts => (rowsOf parts).map (under f)

/-- The rows of some tries, one after the other. -/
def rowsOf : List Trie → List (String × List Feature)
  | [] => []
  | t :: ts => t.rows ++ rowsOf ts

end

theorem rowsOf_eq (ts : List Trie) : rowsOf ts = ts.flatMap rows := by
  induction ts with
  | nil => rfl
  | cons t ts ih => rw [rowsOf, ih, List.flatMap_cons]

theorem rowLabel_of_mem_rows {row : String × List Feature} (h : row ∈ t.rows) :
    rowLabel row = t.label := by
  cases t with
  | word w =>
    rw [rows, List.mem_singleton] at h
    rw [h]
    rfl
  | feature f parts =>
    rw [rows] at h
    obtain ⟨part, -, rfl⟩ := List.mem_map.mp h
    rfl

/-- A row without marks. -/
def plainRow (row : String × List Feature) : String × List Feature :=
  (row.1, row.2.map Feature.plain)

theorem rowLabel_plainRow (row : String × List Feature) :
    rowLabel (plainRow row) = rowLabel row := by
  obtain ⟨w, fs⟩ := row
  cases fs <;> rfl

/-- The rows of a forest without marks. -/
def plainRows (ts : List Trie) : List (String × List Feature) := (rowsOf ts).map plainRow

/-- The rows of a trie without marks. -/
theorem map_plainRow_rows_feature (f : Feature) (parts : List Trie) :
    ((feature f parts).rows).map plainRow = (plainRows parts).map (under f.plain) := by
  rw [rows, plainRows, List.map_map, List.map_map]
  rfl

theorem mem_plainRows {row : String × List Feature} :
    row ∈ plainRows ts ↔ ∃ t ∈ ts, row ∈ t.rows.map plainRow := by
  rw [plainRows, rowsOf_eq, List.map_flatMap, List.mem_flatMap]

theorem under_injective (f : Feature) : Function.Injective (under f) := by
  rintro ⟨v, fs⟩ ⟨w, gs⟩ h
  simpa [under] using h

/-- The rows of a forest after sowing are those before and the one that was sown. -/
theorem mem_plainRows_sow {row : String × List Feature} :
    row ∈ plainRows (sow w fs ts) ↔ row ∈ plainRows ts ∨ row = plainRow (w, fs) := by
  induction fs generalizing ts row with
  | nil =>
    rw [sow]
    split
    · next hmem =>
      -- the word is there already
      obtain ⟨t, ht, hlabel⟩ := List.mem_map.mp hmem
      refine (or_iff_left_of_imp ?_).symm
      rintro rfl
      rw [label_eq_word_iff.mp hlabel] at ht
      exact mem_plainRows.mpr ⟨_, ht, by simp [rows]⟩
    · simp only [mem_plainRows, List.mem_append, List.mem_singleton, or_and_right, exists_or,
        exists_eq_left, rows, List.map_singleton]
  | cons f fs ih =>
    have hbelow (g : Feature) (parts : List Trie) (hg : f.agrees g = true) :
        row ∈ (feature g (sow w fs parts)).rows.map plainRow ↔
          row ∈ (feature g parts).rows.map plainRow ∨ row = plainRow (w, f :: fs) := by
      have hrow : plainRow (w, f :: fs) = under g.plain (plainRow (w, fs)) := by
        rw [← Feature.agrees_iff_plain.mp hg]
        rfl
      rw [map_plainRow_rows_feature, map_plainRow_rows_feature, List.mem_map, List.mem_map, hrow]
      simp only [ih, or_and_right, exists_or, exists_eq_left, eq_comm]
    rw [sow]
    split
    · next hmem =>
      have hwithin (t : Trie) : row ∈ (within f (sow w fs) t).rows.map plainRow ↔
          row ∈ t.rows.map plainRow ∨
            t.label = .feature f.plain ∧ row = plainRow (w, f :: fs) := by
        by_cases hlabel : t.label = .feature f.plain
        · obtain ⟨g, parts, rfl, hg⟩ := label_eq_feature_iff.mp hlabel
          rw [within, if_pos hg, hbelow g parts hg, and_iff_right hlabel]
        · rw [within_of_label_ne hlabel]
          simp [hlabel]
      simp only [mem_plainRows, List.mem_map, exists_exists_and_eq_and]
      simp only [← List.mem_map (f := plainRow), hwithin]
      constructor
      · rintro ⟨t, ht, h | ⟨-, rfl⟩⟩
        · exact Or.inl ⟨t, ht, h⟩
        · exact Or.inr rfl
      · rintro (⟨t, ht, h⟩ | rfl)
        · exact ⟨t, ht, Or.inl h⟩
        · obtain ⟨t, ht, hlabel⟩ := List.mem_map.mp hmem
          exact ⟨t, ht, Or.inr ⟨hlabel, rfl⟩⟩
    · have hempty : row ∉ (feature f []).rows.map plainRow := by simp [rows, rowsOf]
      simp only [mem_plainRows, List.mem_append, List.mem_singleton, or_and_right, exists_or,
        exists_eq_left, hbelow f [] (Feature.agrees_self f), hempty, false_or]

mutual

theorem IsGrown.nodup_rows (t : Trie) (h : t.IsGrown) : (t.rows.map plainRow).Nodup := by
  cases t with
  | word w => exact List.nodup_singleton _
  | feature f parts =>
    rw [map_plainRow_rows_feature]
    exact (AreGrown.nodup_plainRows parts h.2).map (under_injective f.plain)

/-- A grown forest has no row twice. -/
theorem AreGrown.nodup_plainRows (ts : List Trie) (h : AreGrown ts) : (plainRows ts).Nodup := by
  cases ts with
  | nil => exact List.nodup_nil
  | cons t ts =>
    obtain ⟨ht, hlabel, hts⟩ := h
    rw [plainRows, rowsOf, List.map_append]
    refine List.nodup_append.mpr ⟨IsGrown.nodup_rows t ht, AreGrown.nodup_plainRows ts hts, ?_⟩
    -- the rows of different trees begin with different things
    intro _ hleft _ hright heq
    obtain ⟨row, hrow, rfl⟩ := List.mem_map.mp hleft
    obtain ⟨u, hu, hright⟩ := mem_plainRows.mp hright
    obtain ⟨other, hother, rfl⟩ := List.mem_map.mp hright
    refine hlabel (List.mem_map.mpr ⟨u, hu, ?_⟩)
    rw [← rowLabel_of_mem_rows hrow, ← rowLabel_of_mem_rows hother, ← rowLabel_plainRow, ← heq,
      rowLabel_plainRow]

end

theorem mem_plainRows_sowAll {row : String × List Feature} {more : List (String × List Feature)} :
    row ∈ plainRows (sowAll more ts) ↔ row ∈ plainRows ts ∨ row ∈ more.map plainRow := by
  induction more generalizing ts with
  | nil => simp [sowAll]
  | cons next more ih =>
    show row ∈ plainRows (sowAll more (sow next.1 next.2 ts)) ↔ _
    rw [ih, mem_plainRows_sow, or_assoc, List.map_cons, List.mem_cons]

/-! ### Features of rows -/

mutual

/-- All features of a trie have a property. -/
def Has (P : Feature → Prop) : Trie → Prop
  | word _ => True
  | feature f parts => P f ∧ AllHave P parts

/-- All features of some tries have a property. -/
def AllHave (P : Feature → Prop) : List Trie → Prop
  | [] => True
  | t :: ts => t.Has P ∧ AllHave P ts

end

section features

variable {P : Feature → Prop}

theorem allHave_iff : AllHave P ts ↔ ∀ t ∈ ts, t.Has P := by
  induction ts with
  | nil => simp [AllHave]
  | cons t ts ih => rw [AllHave, ih, List.forall_mem_cons]

/-- Sowing brings in the features of the row and no others. -/
theorem AllHave.sow (h : AllHave P ts) (w : String) (hfs : ∀ f ∈ fs, P f) :
    AllHave P (Trie.sow w fs ts) := by
  induction fs generalizing ts with
  | nil =>
    rw [Trie.sow]
    split
    · exact h
    · exact allHave_iff.mpr (List.forall_mem_append.mpr ⟨allHave_iff.mp h, by simp [Has]⟩)
  | cons f fs ih =>
    obtain ⟨hf, hfs⟩ := List.forall_mem_cons.mp hfs
    rw [Trie.sow]
    split
    · refine allHave_iff.mpr (List.forall_mem_map.mpr fun t ht => ?_)
      have htop := allHave_iff.mp h t ht
      cases t with
      | word v => exact htop
      | feature g parts =>
        rw [within]
        split
        · exact ⟨htop.1, ih htop.2 hfs⟩
        · exact htop
    · have hnew : (feature f (Trie.sow w fs [])).Has P := ⟨hf, ih trivial hfs⟩
      exact allHave_iff.mpr (List.forall_mem_append.mpr ⟨allHave_iff.mp h, by simpa using hnew⟩)

theorem allHave_sowAll {more : List (String × List Feature)} (h : AllHave P ts)
    (hmore : ∀ row ∈ more, ∀ f ∈ row.2, P f) : AllHave P (sowAll more ts) := by
  induction more generalizing ts with
  | nil => exact h
  | cons row more ih =>
    obtain ⟨hrow, hmore⟩ := List.forall_mem_cons.mp hmore
    exact ih (h.sow row.1 hrow) hmore

mutual

theorem Has.forall_of_mem_rows (t : Trie) (h : t.Has P) : ∀ row ∈ t.rows, ∀ f ∈ row.2, P f := by
  cases t with
  | word w => simp [rows]
  | feature g parts =>
    intro row hrow
    rw [rows] at hrow
    obtain ⟨part, hpart, rfl⟩ := List.mem_map.mp hrow
    exact List.forall_mem_cons.mpr ⟨h.1, AllHave.forall_of_mem_rowsOf parts h.2 part hpart⟩

theorem AllHave.forall_of_mem_rowsOf (ts : List Trie) (h : AllHave P ts) :
    ∀ row ∈ rowsOf ts, ∀ f ∈ row.2, P f := by
  cases ts with
  | nil => simp [rowsOf]
  | cons t ts =>
    rw [rowsOf]
    exact List.forall_mem_append.mpr
      ⟨Has.forall_of_mem_rows t h.1, AllHave.forall_of_mem_rowsOf ts h.2⟩

end

end features

/-! ### Sowing the rows of a forest -/

theorem IsGrown.rows_ne_nil (t : Trie) (h : t.IsGrown) : t.rows ≠ [] := by
  match t with
  | word w => simp [rows]
  | feature f [] => exact absurd rfl h.1
  | feature f (p :: ps) =>
    have hp := IsGrown.rows_ne_nil p h.2.1
    simp [rows, rowsOf, hp]

/-- Rows with the same feature on top go below the tree for it. -/
theorem sowAll_map_under_append (rows : List (String × List Feature)) (parts : List Trie)
    (h : .feature f.plain ∉ ts.map label) :
    sowAll (rows.map (under f)) (ts ++ [feature f parts]) =
      ts ++ [feature f (sowAll rows parts)] := by
  induction rows generalizing parts with
  | nil => rfl
  | cons row rows ih =>
    have hrow : sow row.1 (f :: row.2) (ts ++ [feature f parts]) =
        ts ++ [feature f (sow row.1 row.2 parts)] := by
      rw [sow, if_pos (by simp [label]), List.map_append, map_within_of_not_mem h,
        List.map_singleton, within, if_pos (Feature.agrees_self f)]
    show sowAll (rows.map (under f)) (sow row.1 (f :: row.2) (ts ++ [feature f parts])) = _
    rw [hrow, ih]
    rfl

/-- Rows with the same feature on top make one tree if there is none for it yet. -/
theorem sowAll_map_under {rows : List (String × List Feature)} (hne : rows ≠ [])
    (h : .feature f.plain ∉ ts.map label) :
    sowAll (rows.map (under f)) ts = ts ++ [feature f (sowAll rows [])] := by
  cases rows with
  | nil => exact absurd rfl hne
  | cons row rows =>
    show sowAll (rows.map (under f)) (sow row.1 (f :: row.2) ts) = _
    rw [sow, if_neg h, sowAll_map_under_append rows _ h]
    rfl

mutual

theorem IsGrown.sowAll_rows (t : Trie) (h : t.IsGrown) (ts : List Trie)
    (hlabel : t.label ∉ ts.map label) : sowAll t.rows ts = ts ++ [t] := by
  cases t with
  | word w =>
    show sow w [] ts = _
    rw [sow]
    exact if_neg hlabel
  | feature f parts =>
    have hne : rowsOf parts ≠ [] := by
      cases parts with
      | nil => exact absurd rfl h.1
      | cons p ps =>
        have hp := IsGrown.rows_ne_nil p h.2.1
        simp [rowsOf, hp]
    rw [rows, sowAll_map_under hne hlabel, AreGrown.sowAll_rowsOf parts h.2 [] (by simp)]
    rfl

/-- The rows of a grown forest, sown in their order beside other trees, make the forest again. -/
theorem AreGrown.sowAll_rowsOf (us : List Trie) (h : AreGrown us) (ts : List Trie)
    (hlabels : ∀ u ∈ us, u.label ∉ ts.map label) : sowAll (rowsOf us) ts = ts ++ us := by
  cases us with
  | nil => exact (List.append_nil ts).symm
  | cons u us =>
    obtain ⟨hu, hlabel, hus⟩ := h
    have hapart : ∀ v ∈ us, v.label ∉ (ts ++ [u]).map label := by
      intro v hv hmem
      rw [List.map_append, List.mem_append] at hmem
      rcases hmem with hmem | hmem
      · exact hlabels v (List.mem_cons_of_mem _ hv) hmem
      · rw [List.map_singleton, List.mem_singleton] at hmem
        exact hlabel (List.mem_map.mpr ⟨v, hv, hmem⟩)
    rw [rowsOf, sowAll_append, IsGrown.sowAll_rows u hu ts (hlabels u List.mem_cons_self),
      AreGrown.sowAll_rowsOf us hus _ hapart, List.append_assoc, List.singleton_append]

end

/-- The rows of a grown forest, sown in their order, make it again. -/
theorem sowAll_rowsOf (h : AreGrown ts) : sowAll (rowsOf ts) [] = ts :=
  AreGrown.sowAll_rowsOf ts h [] (by simp)

end Trie
end MinimalistGrammar
