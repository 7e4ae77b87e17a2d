import MinimalistGrammar.Proofs.Lexicon.Planting

/-!
# What a lexicon stores

A lexicon made by adding entries one after the other lists each of them once, whichever way they
came, and gives each the leaf that was made for it. It has one inner node for every end of the
features of an entry and no others, so two entries have those nodes in common that stand for the
ends of their longest common end.

Features are compared without their marks: a node keeps the mark of the first entry that needs it.

## Main definitions

* `commonSuffix` — the longest common end of two lists.
* `Lexicon.Stores` — a lexicon stores what was added to it, and nothing else.

## Main results

* `suffix_commonSuffix_iff` — the ends of the longest common end are the common ends.
* `Lexicon.stores_ofEntries` — **every lexicon made of entries stores them.**
-/

namespace MinimalistGrammar

/-! ### The longest common end -/

section common

variable {α : Type} [DecidableEq α] {gs as bs : List α}

/-- The longest common beginning of two lists. -/
def commonPrefix : List α → List α → List α
  | a :: as, b :: bs => if a = b then a :: commonPrefix as bs else []
  | _, _ => []

/-- The longest common end of two lists. -/
def commonSuffix (as bs : List α) : List α := (commonPrefix as.reverse bs.reverse).reverse

theorem prefix_commonPrefix_iff : gs <+: commonPrefix as bs ↔ gs <+: as ∧ gs <+: bs := by
  -- along the recursion: equal heads, different heads, or one list at its end
  induction as, bs using commonPrefix.induct generalizing gs with
  | case1 a as bs ih =>
    rw [commonPrefix, if_pos rfl]
    cases gs with
    | nil => simp
    | cons g gs =>
      simp only [List.cons_prefix_cons, ih]
      tauto
  | case2 a as b bs hne =>
    rw [commonPrefix, if_neg hne]
    cases gs with
    | nil => simp
    | cons g gs =>
      simp only [List.cons_prefix_cons, List.prefix_nil, reduceCtorEq, false_iff]
      rintro ⟨⟨rfl, -⟩, rfl, -⟩
      exact hne rfl
  | case3 as bs hnot =>
    have hnil : commonPrefix as bs = [] := by
      rw [commonPrefix]
      exact hnot
    rw [hnil, List.prefix_nil]
    cases as with
    | nil => simp +contextual
    | cons a as =>
      cases bs with
      | nil => simp +contextual
      | cons b bs => exact absurd rfl (hnot a as b bs rfl)

/-- The ends of the longest common end are the common ends. -/
theorem suffix_commonSuffix_iff : gs <:+ commonSuffix as bs ↔ gs <:+ as ∧ gs <:+ bs := by
  rw [commonSuffix, ← List.reverse_prefix, List.reverse_reverse, prefix_commonPrefix_iff,
    List.reverse_prefix, List.reverse_prefix]

end common

namespace Lexicon

variable {calls : List (String × List Feature)} {call : String × List Feature} {i j leaf : Nat}

/-- An entry without the marks of its features. -/
def plainEntry (e : String × List Feature) : String × List Feature := (e.1, e.2.map Feature.plain)

/-- One of the calls is `call`, and it has given its leaf the number `leaf`. -/
def Returned (calls : List (String × List Feature)) (call : String × List Feature) (leaf : Nat) :
    Prop :=
  ∃ before after, calls = before ++ call :: after ∧ leaf = leafAfter before call

/-- The lexicon stores what was added to it, call by call, and nothing else. -/
structure Stores (lex : Lexicon) (calls : List (String × List Feature)) : Prop where
  /-- No entry is listed twice. -/
  nodup_entries : (lex.entries.map plainEntry).Nodup
  /-- The entries are the words that were added with features. -/
  mem_entries {w : String} {fs : List Feature} :
    (w, fs) ∈ lex.entries.map plainEntry ↔ fs ≠ [] ∧ (w, fs) ∈ calls.map plainEntry
  /-- The leaf that a call returned has its word. -/
  word?_leaf {call : String × List Feature} {leaf : Nat} :
    Returned calls call leaf → lex.word? leaf = some call.1
  /-- The leaf that a call returned has its features. -/
  plainFeatures_leaf {call : String × List Feature} {leaf : Nat} :
    Returned calls call leaf → lex.plainFeatures leaf = call.2.map Feature.plain
  /-- The leaf that a call returned keeps its features, marks and all, under later calls. -/
  featuresOf_leaf {before after : List (String × List Feature)} {call : String × List Feature} :
    calls = before ++ call :: after → lex.featuresOf (leafAfter before call) =
      ((ofEntries before).add call.1 call.2).1.featuresOf (leafAfter before call)
  /-- Calls with features get the same leaf exactly if they are for the same entry. -/
  leaf_eq_iff {call call' : String × List Feature} {leaf leaf' : Nat} :
    Returned calls call leaf → Returned calls call' leaf' → call.2 ≠ [] →
      (leaf = leaf' ↔ plainEntry call = plainEntry call')
  /-- There is one inner node for every end of the features of a call. -/
  existsUnique_inner {call : String × List Feature} {gs : List Feature} :
    call ∈ calls → gs <:+ call.2.map Feature.plain → gs ≠ [] →
      ∃! i, (lex.feature? i).isSome ∧ lex.plainFeatures i = gs
  /-- Every inner node is there for an end of the features of a call. -/
  exists_call {i : Nat} : (lex.feature? i).isSome →
    lex.plainFeatures i ≠ [] ∧ ∃ call ∈ calls, lex.plainFeatures i <:+ call.2.map Feature.plain
  /-- Every leaf was returned by a call. -/
  exists_returned {leaf : Nat} : (lex.word? leaf).isSome → ∃ call, Returned calls call leaf
  /-- Two calls share the inner nodes for the ends of their longest common end. -/
  isAbove_both_iff {call call' : String × List Feature} {leaf leaf' i : Nat} :
    Returned calls call leaf → Returned calls call' leaf' → (lex.feature? i).isSome →
      (lex.IsAbove i leaf ∧ lex.IsAbove i leaf' ↔
        lex.plainFeatures i <:+ commonSuffix (call.2.map Feature.plain) (call'.2.map Feature.plain))
  nodup_roots : lex.roots.Nodup
  /-- The roots are the inner nodes for ends of one feature. -/
  mem_roots {i : Nat} : i ∈ lex.roots ↔ (lex.feature? i).isSome ∧ (lex.plainFeatures i).length = 1
  /-- Words have no parts. -/
  parts_word {i : Nat} : (lex.word? i).isSome → lex.parts i = []
  /-- A part comes after its parent and is a node. -/
  lt_of_mem_parts {i p : Nat} : p ∈ lex.parts i → i < p ∧ p < lex.size

/-! ### Entries -/

theorem plainEntry_entryOf (row : String × List Feature) :
    plainEntry (entryOf row) = entryOf (Trie.plainRow row) := by
  rw [plainEntry, entryOf, entryOf, Trie.plainRow, List.map_reverse]

theorem entryOf_entryOf (e : String × List Feature) : entryOf (entryOf e) = e := by
  rw [entryOf, entryOf, List.reverse_reverse]

/-- The entries without marks are the rows without marks. -/
theorem map_plainEntry_entries (calls : List (String × List Feature)) :
    (ofEntries calls).entries.map plainEntry =
      (Trie.plainRows (ofEntries calls).forest).map entryOf := by
  rw [entries_eq (wellFormed_ofEntries calls), Trie.plainRows, List.map_map, List.map_map]
  exact List.map_congr_left fun row _ => plainEntry_entryOf row

theorem nodup_entries (calls : List (String × List Feature)) :
    ((ofEntries calls).entries.map plainEntry).Nodup := by
  have hinj : Function.Injective entryOf := Function.LeftInverse.injective entryOf_entryOf
  rw [map_plainEntry_entries]
  exact (Trie.AreGrown.nodup_plainRows _ (areGrown_forest calls)).map hinj

theorem mem_map_plainRow_rowsFor {row : String × List Feature} :
    row ∈ (rowsFor calls).map Trie.plainRow ↔
      row.2 ≠ [] ∧ entryOf row ∈ calls.map plainEntry := by
  have hcall (call : String × List Feature) :
      Trie.plainRow (call.1, call.2.reverse) = entryOf (plainEntry call) := by
    rw [Trie.plainRow, entryOf, plainEntry, List.map_reverse]
  simp only [rowsFor, List.map_map, List.mem_map, List.mem_filter, Function.comp_apply, hcall]
  constructor
  · rintro ⟨call, ⟨hmem, hne⟩, rfl⟩
    rw [entryOf_entryOf]
    exact ⟨by simpa [entryOf, plainEntry] using hne, call, hmem, rfl⟩
  · rintro ⟨hne, call, hmem, heq⟩
    have hrow : entryOf (plainEntry call) = row := by rw [heq, entryOf_entryOf]
    refine ⟨call, ⟨hmem, ?_⟩, hrow⟩
    simpa [← hrow, entryOf, plainEntry] using hne

theorem mem_entries_iff {w : String} {fs : List Feature} :
    (w, fs) ∈ (ofEntries calls).entries.map plainEntry ↔
      fs ≠ [] ∧ (w, fs) ∈ calls.map plainEntry := by
  have hrow : (w, fs) ∈ (Trie.plainRows (ofEntries calls).forest).map entryOf ↔
      entryOf (w, fs) ∈ Trie.plainRows (ofEntries calls).forest := by
    constructor
    · intro h
      obtain ⟨row, hmem, heq⟩ := List.mem_map.mp h
      rwa [← heq, entryOf_entryOf]
    · exact fun h => List.mem_map.mpr ⟨_, h, entryOf_entryOf _⟩
  have hnone : entryOf (w, fs) ∉ Trie.plainRows [] := by simp [Trie.plainRows, Trie.rowsOf]
  rw [map_plainEntry_entries, hrow, forest_ofEntries, Trie.mem_plainRows_sowAll, or_iff_right hnone,
    mem_map_plainRow_rowsFor, entryOf_entryOf]
  exact and_congr_left' (not_congr List.reverse_eq_nil_iff)

/-! ### Leaves -/

namespace Returned

theorem word? (h : Returned calls call leaf) : (ofEntries calls).word? leaf = some call.1 := by
  obtain ⟨before, after, rfl, rfl⟩ := h
  obtain ⟨hadds, hword⟩ := adds_concat before call
  rw [List.append_cons, (extends_append _ after).word? hadds.lt_size, hword]

theorem plainFeatures (h : Returned calls call leaf) :
    (ofEntries calls).plainFeatures leaf = call.2.map Feature.plain := by
  obtain ⟨before, after, rfl, rfl⟩ := h
  obtain ⟨hadds, -⟩ := adds_concat before call
  rw [List.append_cons, (extends_append _ after).plainFeatures hadds.wellFormed
    (wellFormed_ofEntries _) hadds.lt_size, hadds.plainFeatures]

theorem exists_of_mem (h : call ∈ calls) : ∃ leaf, Returned calls call leaf := by
  obtain ⟨before, after, rfl⟩ := List.append_of_mem h
  exact ⟨_, before, after, rfl, rfl⟩

theorem mem (h : Returned calls call leaf) : call ∈ calls := by
  obtain ⟨before, after, rfl, -⟩ := h
  simp

end Returned

/-- Every node is above a leaf that some call has returned. -/
theorem exists_returned (hi : i < (ofEntries calls).size) :
    ∃ call leaf, Returned calls call leaf ∧ (ofEntries calls).IsAbove i leaf := by
  obtain ⟨before, call, after, rfl, habove⟩ := exists_isAbove_leaf hi
  exact ⟨call, _, ⟨before, after, rfl, rfl⟩, habove⟩

namespace WellFormed

variable {lex : Lexicon} (hlex : lex.WellFormed)

include hlex

/-- A leaf with features is known by its word and these. -/
theorem eq_of_word?_of_plainFeatures {w : String} (hi : lex.word? i = some w)
    (hj : lex.word? j = some w) (hne : lex.plainFeatures i ≠ [])
    (heq : lex.plainFeatures i = lex.plainFeatures j) : i = j := by
  have hup {k : Nat} (hk : lex.word? k = some w) :
      lex.plainFeatures k = (lex.parent? k).elim [] lex.plainFeatures := by
    rw [hlex.plainFeatures_eq, feature?_eq_none_of_word? hk]
    rfl
  rw [hup hi] at hne heq
  rw [hup hj] at heq
  cases hp : lex.parent? i with
  | none => simp [hp] at hne
  | some p =>
    rw [hp, Option.elim_some] at hne heq
    cases hq : lex.parent? j with
    | none => simp [hq, hne] at heq
    | some q =>
      rw [hq, Option.elim_some] at heq
      have hpq : p = q := hlex.eq_of_plainFeatures (hlex.isSome_feature?_of_parent? hp)
        (hlex.isSome_feature?_of_parent? hq) heq
      exact hlex.eq_of_word? hi hj hp (hq.trans (congrArg some hpq.symm))

/-- The roots are the inner nodes with one feature. -/
theorem mem_roots_iff_length :
    i ∈ lex.roots ↔ (lex.feature? i).isSome ∧ (lex.plainFeatures i).length = 1 := by
  rw [hlex.mem_roots, and_comm]
  refine and_congr_right fun hi => ?_
  obtain ⟨f, hf⟩ := Option.isSome_iff_exists.mp hi
  rw [hlex.plainFeatures_eq, hf]
  cases hp : lex.parent? i with
  | none => simp
  | some p => simp [hlex.plainFeatures_ne_nil (hlex.isSome_feature?_of_parent? hp)]

end WellFormed

/-- **Every lexicon made of entries stores them.** -/
theorem stores_ofEntries (calls : List (String × List Feature)) :
    Stores (ofEntries calls) calls := by
  have hlex := wellFormed_ofEntries calls
  refine ⟨nodup_entries calls, mem_entries_iff, Returned.word?, Returned.plainFeatures, ?leaf,
    ?sameLeaf, ?unique, ?call, ?leaves, ?shared, ?roots, hlex.mem_roots_iff_length, ?word,
    hlex.lt_of_mem_parts⟩
  case leaf =>
    rintro before after call rfl
    obtain ⟨hadds, -⟩ := adds_concat before call
    rw [List.append_cons, (extends_append _ after).featuresOf hadds.wellFormed
      (wellFormed_ofEntries _) hadds.lt_size, ← ofEntries_concat]
  case sameLeaf =>
    intro call call' leaf leaf' h h' hne
    rw [plainEntry, plainEntry, Prod.mk.injEq, ← h.plainFeatures, ← h'.plainFeatures]
    constructor
    · rintro rfl
      exact ⟨Option.some.inj (h.word?.symm.trans h'.word?), rfl⟩
    · rintro ⟨hword, hfeatures⟩
      refine hlex.eq_of_word?_of_plainFeatures h.word? (hword ▸ h'.word?) ?_ hfeatures
      rw [h.plainFeatures]
      simpa using hne
  case unique =>
    intro call gs hmem hsuffix hne
    obtain ⟨leaf, h⟩ := Returned.exists_of_mem hmem
    rw [← h.plainFeatures] at hsuffix
    obtain ⟨i, -, hi, heq⟩ := hlex.exists_isAbove_of_suffix hsuffix hne
    refine ⟨i, ⟨hi, heq⟩, ?_⟩
    rintro j ⟨hj, heq'⟩
    exact hlex.eq_of_plainFeatures hj hi (heq'.trans heq.symm)
  case call =>
    intro i hi
    obtain ⟨call, leaf, h, habove⟩ := exists_returned (lt_size_of_feature? hi)
    refine ⟨hlex.plainFeatures_ne_nil hi, call, h.mem, ?_⟩
    rw [← h.plainFeatures]
    exact hlex.suffix_of_isAbove habove
  case leaves =>
    intro leaf hword
    obtain ⟨w, hw⟩ := Option.isSome_iff_exists.mp hword
    obtain ⟨call, leaf', h, habove⟩ := exists_returned (lt_size_of_word? hw)
    exact ⟨call, hlex.eq_of_isAbove_of_word? hw habove ▸ h⟩
  case shared =>
    intro call call' leaf leaf' i h h' hi
    rw [hlex.isAbove_iff_suffix hi, hlex.isAbove_iff_suffix hi, h.plainFeatures, h'.plainFeatures,
      suffix_commonSuffix_iff]
  case roots =>
    -- two roots are different trees of a grown forest
    have hlabels := (Trie.areGrown_iff.mp (areGrown_forest calls)).2
    exact (hlabels.of_map _).of_map _
  case word =>
    intro i hi
    obtain ⟨w, hw⟩ := Option.isSome_iff_exists.mp hi
    exact hlex.parts_eq_nil hw

end Lexicon
end MinimalistGrammar
