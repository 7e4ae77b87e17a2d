import MinimalistGrammar.Lexicon.Text
import MinimalistGrammar.Monorail.Parser
import MinimalistGrammar.Proofs.Lexicon.Storage

/-!
# The words that a monorail parser knows

A monorail parser gives a word the features of the leaf that the lexicon has made for it last. An
entry that repeats an earlier one makes no leaf. So it is not the last entry for a word that counts
but the last one that repeats no other: the two differ where a word got another entry in between.

Features are compared without their marks, as they are in a lexicon.

## Main definitions

* `Lexicon.Repeats` — an entry that is there already.
* `Lexicon.withoutRepeats` — the entries without those that repeat an earlier one.
* `Lexicon.leafRows` — the leaves of a lexicon in the order in which they were made.
* `MonorailParser.IsVocabulary` — what a parser knows, by the entries of its lexicon.

## Main results

* `Lexicon.leafRows_ofEntries` — the leaves are the entries without repetitions.
* `MonorailParser.isVocabulary_ofLexicon` — **the last entry that repeats no other counts.**
-/

namespace MinimalistGrammar

/-! ### The last entry at a key -/

namespace Dict

variable {κ α : Type} [Ord κ] [Std.TransOrd κ] [Std.LawfulEqOrd κ] [DecidableEq κ]

/-- Of the entries of a list with one key the last counts. -/
theorem get?_ofList (l : List (κ × α)) (k : κ) :
    (ofList l).get? k = ((l.filter (·.1 = k)).getLast?).map (·.2) := by
  have hinsert (m : Std.TreeMap κ α) : (m.insertMany l)[k]? =
      (((l.filter (·.1 = k)).getLast?).map (·.2)).or m[k]? := by
    induction l generalizing m with
    | nil => simp
    | cons e l ih =>
      rw [Std.TreeMap.insertMany_cons, ih, List.filter_cons, Std.TreeMap.getElem?_insert]
      by_cases hk : e.1 = k
      · cases hlast : (l.filter (·.1 = k)).getLast? <;>
          simp [hk, List.getLast?_cons, hlast]
      · simp [hk, Std.LawfulEqCmp.compare_eq_iff_eq]
  refine Option.ext fun a => ?_
  rw [get?_eq_some_iff, ofList, Std.TreeMap.mem_toList_iff_getElem?_eq_some,
    Std.TreeMap.ofList_eq_insertMany_empty, hinsert]
  simp

end Dict

namespace Lexicon

variable {calls : List (String × List Feature)} {call : String × List Feature} {w : String}
  {fs : List Feature}

/-! ### Entries that repeat others -/

/-- One of some entries is `call` as well. Entries without features are all different. -/
def Repeats (calls : List (String × List Feature)) (call : String × List Feature) : Prop :=
  call.2 ≠ [] ∧ plainEntry call ∈ calls.map plainEntry

instance (calls : List (String × List Feature)) (call : String × List Feature) :
    Decidable (Repeats calls call) := inferInstanceAs (Decidable (_ ∧ _))

/-- The entries without those that repeat an earlier one. -/
def withoutRepeats : List (String × List Feature) → List (String × List Feature)
  | [] => []
  | call :: rest => call :: (withoutRepeats rest).filter (¬Repeats [call] ·)

@[simp] theorem withoutRepeats_nil : withoutRepeats [] = [] := rfl

theorem not_repeats_nil : ¬Repeats [] call := by simp [Repeats]

theorem repeats_append_iff (calls calls' : List (String × List Feature)) :
    Repeats (calls ++ calls') call ↔ Repeats calls call ∨ Repeats calls' call := by
  rw [Repeats, List.map_append, List.mem_append, Repeats, Repeats]
  exact and_or_left

/-- Of later entries those are left that repeat none of the earlier ones. -/
theorem withoutRepeats_append (calls calls' : List (String × List Feature)) :
    withoutRepeats (calls ++ calls') =
      withoutRepeats calls ++ (withoutRepeats calls').filter (¬Repeats calls ·) := by
  induction calls with
  | nil => simp [not_repeats_nil]
  | cons call calls ih =>
    rw [List.cons_append, withoutRepeats, ih, List.filter_append, List.filter_filter,
      withoutRepeats, List.cons_append]
    congr 2
    refine List.filter_congr fun e _ => ?_
    rw [← Bool.decide_and, decide_eq_decide, ← not_or]
    exact not_congr (repeats_append_iff [call] calls).symm

theorem withoutRepeats_concat (calls : List (String × List Feature))
    (call : String × List Feature) :
    withoutRepeats (calls ++ [call]) =
      withoutRepeats calls ++ if Repeats calls call then [] else [call] := by
  rw [withoutRepeats_append]
  by_cases h : Repeats calls call <;> simp [withoutRepeats, h]

theorem mem_of_mem_withoutRepeats (h : call ∈ withoutRepeats calls) : call ∈ calls := by
  induction calls with
  | nil => exact h
  | cons e calls ih =>
    rcases List.mem_cons.mp h with rfl | h
    · exact List.mem_cons_self ..
    · exact List.mem_cons_of_mem _ (ih (List.mem_filter.mp h).1)

theorem eq_of_plainEntry_eq {e : String × List Feature} (h : plainEntry e = plainEntry call) :
    e.1 = call.1 ∧ e.2.map Feature.plain = call.2.map Feature.plain := Prod.mk.inj h

theorem repeats_congr {e : String × List Feature} (h : plainEntry e = plainEntry call) :
    Repeats calls e ↔ Repeats calls call := by
  rw [Repeats, Repeats, h, ne_eq, ne_eq, ← List.map_eq_nil_iff (f := Feature.plain),
    (eq_of_plainEntry_eq h).2, List.map_eq_nil_iff]

/-- What an entry repeats has been there for a first time. -/
theorem exists_first_of_repeats (h : Repeats calls call) : ∃ earlier first between,
    calls = earlier ++ first :: between ∧ plainEntry first = plainEntry call ∧
    ¬Repeats earlier first := by
  induction calls with
  | nil => exact absurd h not_repeats_nil
  | cons e calls ih =>
    by_cases he : plainEntry e = plainEntry call
    · exact ⟨[], e, calls, rfl, he, not_repeats_nil⟩
    · have hrest : Repeats calls call := ⟨h.1, (List.mem_cons.mp h.2).resolve_left (Ne.symm he)⟩
      obtain ⟨earlier, first, between, rfl, hfirst, hnew⟩ := ih hrest
      refine ⟨e :: earlier, first, between, rfl, hfirst, ?_⟩
      rintro ⟨hne, hmem⟩
      rcases List.mem_cons.mp hmem with heq | hmem
      · exact he (heq.symm.trans hfirst)
      · exact hnew ⟨hne, hmem⟩

/-- No entry is lost, but for its marks. -/
theorem exists_mem_withoutRepeats (h : call ∈ calls) :
    ∃ e ∈ withoutRepeats calls, plainEntry e = plainEntry call := by
  induction calls with
  | nil => exact absurd h List.not_mem_nil
  | cons first calls ih =>
    rcases List.mem_cons.mp h with rfl | h
    · exact ⟨call, List.mem_cons_self .., rfl⟩
    · obtain ⟨e, he, hplain⟩ := ih h
      by_cases hrepeats : Repeats [first] e
      · have hfirst : plainEntry e = plainEntry first := by simpa using hrepeats.2
        exact ⟨first, List.mem_cons_self .., hfirst.symm.trans hplain⟩
      · have hkept : e ∈ (withoutRepeats calls).filter (¬Repeats [first] ·) :=
          List.mem_filter.mpr ⟨he, by simpa using hrepeats⟩
        exact ⟨e, List.mem_cons_of_mem _ hkept, hplain⟩

/-! ### Leaves -/

/-- The leaves of a lexicon, each with its word and its features without marks, in the order in
which they were made. -/
def leafRows (lex : Lexicon) : List (String × List Feature) :=
  (List.range lex.size).filterMap fun i => (lex.word? i).map fun w => (w, lex.plainFeatures i)

/-- An entry repeats an earlier one exactly if its leaf was there. -/
theorem leafAfter_lt_size_iff (calls : List (String × List Feature))
    (call : String × List Feature) :
    leafAfter calls call < (ofEntries calls).size ↔ Repeats calls call := by
  obtain ⟨hadds, hword⟩ := adds_concat calls call
  have hlex := wellFormed_ofEntries calls
  constructor
  · intro hlt
    have hword' : (ofEntries calls).word? (leafAfter calls call) = some call.1 := by
      rw [← hadds.grows.word? hlt, hword]
    have hplain :
        (ofEntries calls).plainFeatures (leafAfter calls call) = call.2.map Feature.plain := by
      rw [← hadds.grows.plainFeatures hlex hadds.wellFormed hlt, hadds.plainFeatures]
    refine ⟨?_, ?_⟩
    · -- without features it is put behind all others
      intro hnil
      obtain ⟨w, fs⟩ := call
      obtain rfl : fs = [] := hnil
      exact absurd hlt (Nat.lt_irrefl _)
    · obtain ⟨e, he⟩ := (stores_ofEntries calls).exists_returned (Option.isSome_of_eq_some hword')
      refine List.mem_map.mpr ⟨e, he.mem, Prod.ext ?_ ?_⟩
      · exact Option.some.inj (he.word?.symm.trans hword')
      · exact he.plainFeatures.symm.trans hplain
  · rintro ⟨hne, hmem⟩
    obtain ⟨e, he, heq⟩ := List.mem_map.mp hmem
    obtain ⟨leaf, hleaf⟩ := Returned.exists_of_mem he
    obtain ⟨hwords, hfeatures⟩ := Prod.mk.inj heq
    have hlt : leaf < (ofEntries calls).size := lt_size_of_word? hleaf.word?
    have hsame : leaf = leafAfter calls call := by
      refine hadds.wellFormed.eq_of_word?_of_plainFeatures (w := call.1) ?_ hword ?_ ?_
      · rw [hadds.grows.word? hlt, hleaf.word?, hwords]
      · rw [hadds.grows.plainFeatures hlex hadds.wellFormed hlt, hleaf.plainFeatures, hfeatures]
        simpa using hne
      · rw [hadds.grows.plainFeatures hlex hadds.wellFormed hlt, hleaf.plainFeatures, hfeatures,
          hadds.plainFeatures]
    exact hsame ▸ hlt

/-- Where one element has an image, this is all. -/
theorem filterMap_eq_singleton {α β : Type} {f : α → Option β} {l : List α} {a : α} {b : β}
    (hnodup : l.Nodup) (ha : a ∈ l) (hb : f a = some b) (hnone : ∀ x ∈ l, x ≠ a → f x = none) :
    l.filterMap f = [b] := by
  obtain ⟨before, after, rfl⟩ := List.append_of_mem ha
  obtain ⟨-, hafter, hdisjoint⟩ := List.nodup_append.mp hnodup
  have hbefore : before.filterMap f = [] := List.filterMap_eq_nil_iff.mpr fun x hx =>
    hnone x (List.mem_append_left _ hx) (hdisjoint x hx a (List.mem_cons_self ..))
  have hlater : after.filterMap f = [] := List.filterMap_eq_nil_iff.mpr fun x hx =>
    hnone x (List.mem_append_right _ (List.mem_cons_of_mem _ hx)) fun heq =>
      (List.nodup_cons.mp hafter).1 (heq ▸ hx)
  rw [List.filterMap_append, hbefore, List.filterMap_cons_some hb, hlater, List.nil_append]

/-- The leaves of a lexicon are its entries without repetitions. -/
theorem leafRows_ofEntries (calls : List (String × List Feature)) :
    (ofEntries calls).leafRows = (withoutRepeats calls).map plainEntry := by
  induction calls using List.reverseRecOn with
  | nil => rfl
  | append_singleton calls call ih =>
    obtain ⟨hadds, hword⟩ := adds_concat calls call
    have hlex := wellFormed_ofEntries calls
    obtain ⟨m, hm⟩ := Nat.exists_eq_add_of_le hadds.grows.size_le
    rw [withoutRepeats_concat, List.map_append, ← ih, leafRows, hm, List.range_add,
      List.filterMap_append]
    congr 1
    · refine List.filterMap_congr fun i hi => ?_
      rw [hadds.grows.word? (List.mem_range.mp hi),
        hadds.grows.plainFeatures hlex hadds.wellFormed (List.mem_range.mp hi)]
    · -- a new node with a word is the leaf of the entry
      have hnew {i : Nat} (hi : i ∈ (List.range m).map fun j => (ofEntries calls).size + j)
          (hne : i ≠ leafAfter calls call) : (ofEntries (calls ++ [call])).word? i = none := by
        obtain ⟨j, hj, rfl⟩ := List.mem_map.mp hi
        refine Option.eq_none_iff_forall_ne_some.mpr fun w hw => hne ?_
        have habove := hadds.isAbove (Nat.le_add_right _ j)
          (by rw [hm]; exact Nat.add_lt_add_left (List.mem_range.mp hj) _)
        exact (hadds.wellFormed.eq_of_isAbove_of_word? hw habove).symm
      split
      · next hrepeats =>
        refine List.filterMap_eq_nil_iff.mpr fun i hi => ?_
        rw [hnew hi]
        · rfl
        · rintro rfl
          obtain ⟨j, -, hj⟩ := List.mem_map.mp hi
          have hlt := (leafAfter_lt_size_iff calls call).mpr hrepeats
          omega
      · next hnot =>
        have hge := Nat.le_of_not_lt fun hlt => hnot ((leafAfter_lt_size_iff calls call).mp hlt)
        refine filterMap_eq_singleton (a := leafAfter calls call) ?_ ?_ ?_ ?_
        · exact List.nodup_range.map fun j j' => Nat.add_left_cancel
        · refine List.mem_map.mpr ⟨leafAfter calls call - (ofEntries calls).size, ?_, by omega⟩
          have hlt := hadds.lt_size
          rw [List.mem_range]
          omega
        · rw [hword, Option.map_some, hadds.plainFeatures]
          rfl
        · intro i hi hne
          rw [hnew hi hne]
          rfl

end Lexicon

namespace MonorailParser

open Lexicon

variable {calls : List (String × List Feature)} {w : String} {fs : List Feature}

/-- The features of a word that a parser knows, without their marks. -/
def plainFeatures? (p : MonorailParser) (w : String) : Option (List Feature) :=
  (p.words.get? w).map (·.map Feature.plain)

/-- The parser knows the words of some entries that are not silent. A word has the features of its
last entry that repeats no other. -/
structure IsVocabulary (p : MonorailParser) (calls : List (String × List Feature)) : Prop where
  knows_iff {w : String} : p.knows w = true ↔ isSilent w = false ∧ ∃ fs, (w, fs) ∈ calls
  plainFeatures?_eq {w : String} : isSilent w = false → p.plainFeatures? w =
    ((withoutRepeats calls).filter (·.1 = w)).getLast?.map (·.2.map Feature.plain)
  /-- The last entry for a word counts exactly if it repeats no other, or if all entries for this
  word between the first one that it repeats and itself are repetitions too. -/
  last_iff {w : String} {fs : List Feature} {before after : List (String × List Feature)} :
    isSilent w = false → calls = before ++ (w, fs) :: after → (∀ e ∈ after, e.1 ≠ w) →
      (p.plainFeatures? w = some (fs.map Feature.plain) ↔ ¬Repeats before (w, fs) ∨
        ∃ earlier first between, before = earlier ++ first :: between ∧
          plainEntry first = plainEntry (w, fs) ∧ ¬Repeats earlier first ∧
          ∀ e ∈ between, e.1 = w → Repeats (earlier ++ [first]) e)

/-- A parser gives a word the features of the leaf that was made for it last. -/
theorem plainFeatures?_ofLexicon (lex : Lexicon) (hw : isSilent w = false) :
    (ofLexicon lex).plainFeatures? w = ((lex.leafRows.filter (·.1 = w)).getLast?).map (·.2) := by
  rw [plainFeatures?, ofLexicon, Dict.get?_ofList, Option.map_map, leafRows, List.filter_filterMap,
    List.filter_filterMap, ← List.getLast?_map, ← List.getLast?_map, List.map_filterMap,
    List.map_filterMap]
  congr 1
  refine List.filterMap_congr fun i _ => ?_
  cases hword : lex.word? i with
  | none => rfl
  | some w' =>
    by_cases heq : w' = w
    · simp [heq, hw, Option.filter_some, Lexicon.plainFeatures]
    · cases hsilent : isSilent w' <;> simp [heq, hsilent, Option.filter_some]

theorem knows_iff_plainFeatures? (p : MonorailParser) (w : String) :
    p.knows w = true ↔ p.plainFeatures? w ≠ none := by
  rw [knows, Dict.contains, Option.isSome_iff_ne_none, plainFeatures?, ne_eq, ne_eq,
    Option.map_eq_none_iff]

theorem isSilent_of_knows {lex : Lexicon} (h : (ofLexicon lex).knows w = true) :
    isSilent w = false := by
  obtain ⟨fs, hfs⟩ := Dict.contains_iff.mp h
  rw [ofLexicon, Dict.get?_ofList] at hfs
  obtain ⟨e, he, -⟩ := Option.map_eq_some_iff.mp hfs
  obtain ⟨hmem, hword⟩ := List.mem_filter.mp (List.mem_of_getLast? he)
  obtain ⟨i, -, hi⟩ := List.mem_filterMap.mp hmem
  obtain ⟨w', hw', rfl⟩ := Option.map_eq_some_iff.mp hi
  obtain rfl : w' = w := by simpa using hword
  simpa using (Option.filter_eq_some_iff.mp hw').2

theorem plainFeatures?_ofEntries (calls : List (String × List Feature)) (hw : isSilent w = false) :
    (ofLexicon (ofEntries calls)).plainFeatures? w =
      ((withoutRepeats calls).filter (·.1 = w)).getLast?.map (·.2.map Feature.plain) := by
  rw [plainFeatures?_ofLexicon _ hw, leafRows_ofEntries, List.filter_map, List.getLast?_map,
    Option.map_map]
  rfl

/-- A parser knows the words of its lexicon that are not silent. -/
theorem knows_ofEntries_iff :
    (ofLexicon (ofEntries calls)).knows w = true ↔ isSilent w = false ∧ ∃ fs, (w, fs) ∈ calls := by
  constructor
  · intro h
    have hw := isSilent_of_knows h
    rw [knows_iff_plainFeatures?, plainFeatures?_ofEntries calls hw, ne_eq, Option.map_eq_none_iff,
      List.getLast?_eq_none_iff] at h
    obtain ⟨e, he⟩ := List.exists_mem_of_ne_nil _ h
    obtain ⟨hmem, hword⟩ := List.mem_filter.mp he
    obtain rfl : e.1 = w := by simpa using hword
    exact ⟨hw, e.2, mem_of_mem_withoutRepeats hmem⟩
  · rintro ⟨hw, fs, hmem⟩
    obtain ⟨e, he, hplain⟩ := exists_mem_withoutRepeats hmem
    rw [knows_iff_plainFeatures?, plainFeatures?_ofEntries calls hw, ne_eq, Option.map_eq_none_iff,
      List.getLast?_eq_none_iff]
    have hword : e.1 = w := (eq_of_plainEntry_eq hplain).1
    exact List.ne_nil_of_mem (List.mem_filter.mpr ⟨he, by simpa using hword⟩)

section counts

variable {before after : List (String × List Feature)}

/-- What is left of the later entries for a word behind one of its entries. -/
def laterFor (before : List (String × List Feature)) (w : String)
    (after : List (String × List Feature)) : List (String × List Feature) :=
  ((withoutRepeats after).filter (¬Repeats before ·)).filter (·.1 = w)

theorem mem_laterFor {e : String × List Feature} (h : e ∈ laterFor before w after) :
    e ∈ after ∧ e.1 = w ∧ ¬Repeats before e := by
  obtain ⟨hmem, hword⟩ := List.mem_filter.mp h
  obtain ⟨hmem, hnew⟩ := List.mem_filter.mp hmem
  exact ⟨mem_of_mem_withoutRepeats hmem, by simpa using hword, by simpa using hnew⟩

/-- An entry that repeats no other counts unless later ones do. -/
theorem plainFeatures?_append_cons (hw : isSilent w = false) (hnew : ¬Repeats before (w, fs)) :
    (ofLexicon (ofEntries (before ++ (w, fs) :: after))).plainFeatures? w = some
      (((laterFor (before ++ [(w, fs)]) w after).getLast?.getD (w, fs)).2.map Feature.plain) := by
  rw [plainFeatures?_ofEntries _ hw, List.append_cons, withoutRepeats_append, withoutRepeats_concat,
    if_neg hnew, List.filter_append, List.filter_append, List.getLast?_append, List.getLast?_append,
    ← laterFor]
  cases hlast : (laterFor (before ++ [(w, fs)]) w after).getLast? <;> simp

/-- The last entry for a word counts if it repeats no other. -/
theorem plainFeatures?_of_last (hw : isSilent w = false) (hlast : ∀ e ∈ after, e.1 ≠ w)
    (hnew : ¬Repeats before (w, fs)) :
    (ofLexicon (ofEntries (before ++ (w, fs) :: after))).plainFeatures? w =
      some (fs.map Feature.plain) := by
  have hnil : laterFor (before ++ [(w, fs)]) w after = [] :=
    List.eq_nil_iff_forall_not_mem.mpr fun e he => hlast e (mem_laterFor he).1 (mem_laterFor he).2.1
  rw [plainFeatures?_append_cons hw hnew, hnil]
  rfl

/-- An entry that repeats no other counts exactly if all later ones for its word are repetitions. -/
theorem plainFeatures?_eq_some_iff (hw : isSilent w = false) (hne : fs ≠ [])
    (hnew : ¬Repeats before (w, fs)) :
    (ofLexicon (ofEntries (before ++ (w, fs) :: after))).plainFeatures? w =
        some (fs.map Feature.plain) ↔
      ∀ e ∈ after, e.1 = w → Repeats (before ++ [(w, fs)]) e := by
  rw [plainFeatures?_append_cons hw hnew, Option.some_inj]
  constructor
  · intro heq e he hword
    by_contra hlater
    -- then another entry is left behind this one, and the last of them has other features
    obtain ⟨e', he', hplain⟩ := exists_mem_withoutRepeats he
    have hmem : e' ∈ laterFor (before ++ [(w, fs)]) w after := by
      refine List.mem_filter.mpr ⟨List.mem_filter.mpr ⟨he', ?_⟩, ?_⟩
      · simpa using fun hrepeats => hlater ((repeats_congr hplain).mp hrepeats)
      · simpa [hword] using (eq_of_plainEntry_eq hplain).1
    obtain ⟨x, hx⟩ := Option.ne_none_iff_exists'.mp
      (mt List.getLast?_eq_none_iff.mp (List.ne_nil_of_mem hmem))
    obtain ⟨-, hxword, hxnew⟩ := mem_laterFor (List.mem_of_getLast? hx)
    rw [hx, Option.getD_some] at heq
    have hsame : plainEntry x = plainEntry (w, fs) := Prod.ext hxword heq
    refine hxnew ((repeats_congr hsame).mpr ⟨hne, ?_⟩)
    exact List.mem_map_of_mem (List.mem_append_right _ (List.mem_singleton_self _))
  · intro hrepeats
    have hnil : laterFor (before ++ [(w, fs)]) w after = [] :=
      List.eq_nil_iff_forall_not_mem.mpr fun e he =>
        (mem_laterFor he).2.2 (hrepeats e (mem_laterFor he).1 (mem_laterFor he).2.1)
    rw [hnil]
    rfl

/-- A repetition that is the last entry for its word counts exactly if there are only repetitions
between what it repeats and itself. -/
theorem plainFeatures?_eq_some_iff_between {first : String × List Feature}
    {between : List (String × List Feature)} (hw : isSilent w = false) (hne : fs ≠ [])
    (hfirst : plainEntry first = plainEntry (w, fs)) (hnew : ¬Repeats before first)
    (hlast : ∀ e ∈ after, e.1 ≠ w) :
    (ofLexicon (ofEntries (before ++ first :: between ++ (w, fs) :: after))).plainFeatures? w =
        some (fs.map Feature.plain) ↔
      ∀ e ∈ between, e.1 = w → Repeats (before ++ [first]) e := by
  obtain ⟨hword, hplain⟩ := eq_of_plainEntry_eq hfirst
  obtain ⟨w', fs'⟩ := first
  obtain rfl : w' = w := hword
  have hne' : fs' ≠ [] := by
    rintro rfl
    exact hne (List.map_eq_nil_iff.mp hplain.symm)
  have hrepeats : Repeats (before ++ [(w', fs')]) (w', fs) := by
    refine ⟨hne, ?_⟩
    rw [← hfirst]
    exact List.mem_map_of_mem (List.mem_append_right _ (List.mem_singleton_self _))
  rw [List.append_assoc, List.cons_append, ← hplain, plainFeatures?_eq_some_iff hw hne' hnew,
    List.forall_mem_append, List.forall_mem_cons]
  refine and_iff_left ⟨fun _ => hrepeats, fun e he hword => absurd hword (hlast e he)⟩

end counts

/-- What a parser knows by the entries of its lexicon. -/
theorem isVocabulary_ofEntries (calls : List (String × List Feature)) :
    IsVocabulary (ofLexicon (ofEntries calls)) calls := by
  refine ⟨knows_ofEntries_iff, plainFeatures?_ofEntries calls, ?_⟩
  rintro w fs before after hw rfl hlast
  by_cases hrepeats : Repeats before (w, fs)
  · constructor
    · intro hcounts
      obtain ⟨earlier, first, between, rfl, hfirst, hnew⟩ := exists_first_of_repeats hrepeats
      refine Or.inr ⟨earlier, first, between, rfl, hfirst, hnew, ?_⟩
      exact (plainFeatures?_eq_some_iff_between hw hrepeats.1 hfirst hnew hlast).mp hcounts
    · rintro (hnew | ⟨earlier, first, between, rfl, hfirst, hnew, hbetween⟩)
      · exact absurd hrepeats hnew
      · exact (plainFeatures?_eq_some_iff_between hw hrepeats.1 hfirst hnew hlast).mpr hbetween
  · exact iff_of_true (plainFeatures?_of_last hw hlast hrepeats) (Or.inl hrepeats)

/-- **The last entry for a word that repeats no other counts**, be the lexicon made of entries or
read from a text. -/
theorem isVocabulary_ofLexicon (lex : Lexicon) :
    (∀ calls, ofEntries calls = lex → IsVocabulary (ofLexicon lex) calls) ∧
      ∀ text, Lexicon.parse text = .ok lex → ∃ entries, readEntries text = .ok entries ∧
        IsVocabulary (ofLexicon lex) (entries.map fun e => (e.word, e.features)) := by
  refine ⟨?_, fun text h => ?_⟩
  · rintro calls rfl
    exact isVocabulary_ofEntries calls
  cases hread : readEntries text with
  | error e => simp [Lexicon.parse, hread, bind, Except.bind] at h
  | ok entries =>
    obtain rfl : ofEntries (entries.map fun e => (e.word, e.features)) = lex := by
      simpa [Lexicon.parse, hread, bind, Except.bind] using h
    exact ⟨entries, rfl, isVocabulary_ofEntries _⟩

/-- The third entry repeats the first one, so the second one counts. -/
theorem isVocabulary_threeEntries : ∃ lex entries,
    Lexicon.parse "a :: A\na :: =X A\na :: A" = .ok lex ∧
      readEntries "a :: A\na :: =X A\na :: A" = .ok entries ∧
      IsVocabulary (ofLexicon lex) (entries.map fun e => (e.word, e.features)) ∧
      entries.getLast?.map (·.features) = some [.categorial "A"] ∧
      (ofLexicon lex).plainFeatures? "a" = some [.selector "X", .categorial "A"] := by
  have hparse : Lexicon.parse "a :: A\na :: =X A\na :: A" = .ok (ofEntries
      [("a", [.categorial "A"]), ("a", [.selector "X", .categorial "A"]),
        ("a", [.categorial "A"])]) := by
    decide +kernel
  obtain ⟨entries, hread, hvocabulary⟩ := (isVocabulary_ofLexicon _).2 _ hparse
  have hentries : readEntries "a :: A\na :: =X A\na :: A" = .ok
      [⟨"a", [.categorial "A"], 1⟩, ⟨"a", [.selector "X", .categorial "A"], 2⟩,
        ⟨"a", [.categorial "A"], 3⟩] := by
    decide +kernel
  obtain rfl := Except.ok.inj (hread.symm.trans hentries)
  exact ⟨_, _, hparse, hread, hvocabulary, rfl, by decide +kernel⟩

end MonorailParser
end MinimalistGrammar
