import MinimalistGrammar.Proofs.Lexicon.Reading
import MinimalistGrammar.Proofs.Lexicon.Storage

/-!
# A lexicon is read back from its text

The text of a lexicon lists its entries in the order of its forest. Adding them again in this order
makes the same forest, since a forest is what its rows make. And each entry that was read from some
line is read back from the line it is written on.

## Main results

* `Lexicon.entries_ofEntries_entries` — entries, added in the order of the trie, keep this order.
* `Lexicon.mem_of_mem_entries` — unmarked entries are listed as they were added.
* `Lexicon.exists_parse_text` — **the text of a lexicon that was read is read as a lexicon with the
  same entries and the same text.**
-/

namespace MinimalistGrammar

/-- A written feature has no mark. -/
theorem Feature.IsWritten.plain_eq {f : Feature} (h : f.IsWritten) : f.plain = f := by
  rw [Feature.plain, ← h.required]

/-! ### Lines -/

/-- Entries are read back from their lines. -/
theorem readLines_map_lineOf {es : List (String × List Feature)} (h : ∀ e ∈ es, IsWritable e)
    (n : Nat) :
    ∃ entries, readLines n (es.map lineOf) = .ok entries ∧
      entries.map (fun e => (e.word, e.features)) = es := by
  induction es generalizing n with
  | nil => exact ⟨[], rfl, rfl⟩
  | cons e es ih =>
    obtain ⟨he, hes⟩ := List.forall_mem_cons.mp h
    obtain ⟨entries, hread, hentries⟩ := ih hes (n + 1)
    refine ⟨⟨e.1, e.2, n⟩ :: entries, ?_, by rw [List.map_cons, hentries]⟩
    rw [List.map_cons, readLines, he.trim_lineOf, readTrimmed_lineOf he]
    simp [hread, bind, Except.bind]

/-- Entries that were read can be written. -/
theorem isWritable_of_readLines {n : Nat} {ls : List (List Char)} {entries : List Entry}
    (h : readLines n ls = .ok entries) : ∀ e ∈ entries, IsWritable (e.word, e.features) := by
  induction ls generalizing n entries with
  | nil =>
    obtain rfl : [] = entries := Except.ok.inj h
    simp
  | cons l ls ih =>
    rw [readLines] at h
    cases hline : readTrimmed (Text.trim l) with
    | error fault => simp [hline] at h
    | ok e? =>
      cases e? with
      | none => exact ih (by simpa [hline] using h)
      | some e =>
        cases hrest : readLines (n + 1) ls with
        | error fault => simp [hline, hrest, bind, Except.bind] at h
        | ok rest =>
          obtain rfl : ⟨e.1, e.2, n⟩ :: rest = entries := by
            simpa [hline, hrest, bind, Except.bind] using h
          exact List.forall_mem_cons.mpr ⟨isWritable_of_readTrimmed hline, ih hrest⟩

namespace Lexicon

variable {calls : List (String × List Feature)}

/-- The lines of the text of a lexicon are those for its entries. -/
theorem lines_text {lex : Lexicon} (h : ∀ e ∈ lex.entries, IsWritable e) :
    Text.lines lex.text.toList = lex.entries.map lineOf := by
  have htext : lex.text.toList = (lex.entries.map lineOf).flatMap (· ++ ['\n']) := by
    rw [text, String.toList_join, List.flatMap_map, List.flatMap_map]
    exact List.flatMap_congr fun e _ => String.toList_append
  rw [htext, Text.lines_flatMap]
  · exact List.forall_mem_map.mpr fun e he => (h e he).feed_not_mem_lineOf
  · exact List.forall_mem_map.mpr fun e he => (h e he).getLast?_lineOf

/-! ### Adding the entries again -/

/-- The entries, as rows to be added again, are the rows of the forest. -/
theorem rowsFor_entries (calls : List (String × List Feature)) :
    rowsFor (ofEntries calls).entries = Trie.rowsOf (ofEntries calls).forest := by
  have hne : ∀ e ∈ (ofEntries calls).entries, (!e.2.isEmpty) = true := by
    intro e he
    have hplain := (mem_entries_iff.mp (List.mem_map_of_mem (f := plainEntry) he)).1
    simpa [plainEntry] using hplain
  have hrow : entryOf ∘ entryOf = id := funext entryOf_entryOf
  rw [rowsFor, List.filter_eq_self.mpr hne, entries_eq (wellFormed_ofEntries calls)]
  show ((Trie.rowsOf (ofEntries calls).forest).map entryOf).map entryOf = _
  rw [List.map_map, hrow, List.map_id]

/-- Entries that are added in the order of the trie come out in this order. -/
theorem entries_ofEntries_entries (calls : List (String × List Feature)) :
    (ofEntries (ofEntries calls).entries).entries = (ofEntries calls).entries := by
  have hforest : (ofEntries (ofEntries calls).entries).forest = (ofEntries calls).forest := by
    rw [forest_ofEntries, rowsFor_entries, Trie.sowAll_rowsOf (areGrown_forest calls)]
  rw [entries_eq (wellFormed_ofEntries _), hforest, ← entries_eq (wellFormed_ofEntries calls)]

/-- The features of the entries are features that were added, with their marks. -/
theorem forall_of_mem_entries {P : Feature → Prop} (h : ∀ call ∈ calls, ∀ f ∈ call.2, P f) :
    ∀ e ∈ (ofEntries calls).entries, ∀ f ∈ e.2, P f := by
  have hrows : ∀ row ∈ rowsFor calls, ∀ f ∈ row.2, P f := by
    intro row hrow f hf
    obtain ⟨call, hcall, rfl⟩ := List.mem_map.mp hrow
    exact h call (List.mem_of_mem_filter hcall) f (List.mem_reverse.mp hf)
  have hforest : Trie.AllHave P (ofEntries calls).forest := by
    rw [forest_ofEntries]
    exact Trie.allHave_sowAll trivial hrows
  intro e he f hf
  rw [entries_eq (wellFormed_ofEntries calls)] at he
  obtain ⟨row, hrow, rfl⟩ := List.mem_map.mp he
  exact Trie.AllHave.forall_of_mem_rowsOf _ hforest row hrow f (List.mem_reverse.mp hf)

/-- Unmarked entries are listed as they were added. -/
theorem mem_of_mem_entries (h : ∀ call ∈ calls, ∀ f ∈ call.2, f.plain = f)
    {e : String × List Feature} (he : e ∈ (ofEntries calls).entries) : e ∈ calls := by
  have hplain (e : String × List Feature) (he : ∀ f ∈ e.2, f.plain = f) : plainEntry e = e := by
    rw [plainEntry, List.map_congr_left (g := id) he, List.map_id]
  have hmem : plainEntry e ∈ calls.map plainEntry :=
    (mem_entries_iff.mp (List.mem_map_of_mem (f := plainEntry) he)).2
  obtain ⟨call, hcall, heq⟩ := List.mem_map.mp hmem
  rw [hplain call (h call hcall), hplain e (forall_of_mem_entries h e he)] at heq
  rwa [← heq]

/-- The text of a lexicon that was read is read as a lexicon with the same entries and the same
text. -/
theorem exists_parse_text {text : String} {lex : Lexicon} (h : parse text = .ok lex) :
    ∃ lex', parse lex.text = .ok lex' ∧ lex'.entries = lex.entries ∧ lex'.text = lex.text := by
  rw [parse] at h
  cases hread : readEntries text with
  | error e => simp [hread, bind, Except.bind] at h
  | ok entries =>
    obtain rfl : ofEntries (entries.map fun e => (e.word, e.features)) = lex := by
      simpa [hread, bind, Except.bind] using h
    have hcalls : ∀ call ∈ entries.map fun e => (e.word, e.features), IsWritable call :=
      List.forall_mem_map.mpr (isWritable_of_readLines hread)
    generalize entries.map (fun e => (e.word, e.features)) = calls at hcalls ⊢
    have hplain : ∀ call ∈ calls, ∀ f ∈ call.2, f.plain = f := by
      intro call hcall f hf
      exact ((hcalls call hcall).features f hf).plain_eq
    have hwritable : ∀ e ∈ (ofEntries calls).entries, IsWritable e := fun e he =>
      hcalls e (mem_of_mem_entries hplain he)
    obtain ⟨again, hagain, hentries⟩ := readLines_map_lineOf hwritable 1
    have hsame := entries_ofEntries_entries calls
    refine ⟨ofEntries (ofEntries calls).entries, ?_, hsame, ?_⟩
    case refine_2 => rw [Lexicon.text, hsame, Lexicon.text]
    rw [parse, readEntries, lines_text hwritable, hagain]
    simp [hentries, bind, Except.bind]

/-- Entries that end alike come together, and comments, blank lines and needless blanks go. -/
theorem exists_parse_text_threeEntries :
    ∃ lex, parse "a: :: =x c\n# x\n b  d::x\n\ne :: =x c" = .ok lex ∧
      lex.text = "a: :: =x c\ne :: =x c\nb d :: x\n" ∧
      ∃ lex', parse lex.text = .ok lex' ∧ lex'.entries = lex.entries ∧ lex'.text = lex.text := by
  have h : parse "a: :: =x c\n# x\n b  d::x\n\ne :: =x c" = .ok (ofEntries
      [("a:", [.selector "x", .categorial "c"]), ("b d", [.categorial "x"]),
        ("e", [.selector "x", .categorial "c"])]) := by
    decide +kernel
  exact ⟨_, h, by decide +kernel, exists_parse_text h⟩

end Lexicon
end MinimalistGrammar
