import MinimalistGrammar.Words

/-!
# Words and lines put together again

Words with one space between them are cut into the same words again, and lines that end in line
feeds into the same lines. A text without the blanks at its ends is known by its words if there is
at most one of them, and so is the silent word.

## Main definitions

* `Text.IsToken` — a text with a character but without blanks.

## Main results

* `Text.words_append`, `Text.words_intercalate`, `Text.trim_intercalate` — the words of words with
  spaces between them.
* `Text.trim_eq_of_words_eq` — the one word of a text is what is left between its blanks.
* `Text.lines_flatMap` — the lines of lines that end in line feeds.
* `isSilent_iff` — the silent word has no words but its sign.
-/

namespace MinimalistGrammar
namespace Text

variable {p : Char → Bool} {c : Char} {s w rest : List Char}

/-! ### Fields -/

theorem fields_append (hs : ∀ d ∈ s, p d = false) (hc : p c = true) (rest : List Char) :
    fields p (s ++ c :: rest) = s :: fields p rest := by
  induction s with
  | nil => rw [List.nil_append, fields, if_pos hc]
  | cons d s ih =>
    obtain ⟨hd, hs⟩ := List.forall_mem_cons.mp hs
    rw [List.cons_append, fields, if_neg (by simp [hd]), ih hs]

theorem fields_of_forall (hs : ∀ d ∈ s, p d = false) : fields p s = [s] := by
  induction s with
  | nil => rfl
  | cons d s ih =>
    obtain ⟨hd, hs⟩ := List.forall_mem_cons.mp hs
    rw [fields, if_neg (by simp [hd]), ih hs]

theorem fields_append_singleton (hc : p c = true) (s : List Char) :
    fields p (s ++ [c]) = fields p s ++ [[]] := by
  induction s with
  | nil => exact fields_append (s := []) (by simp) hc []
  | cons d s ih =>
    obtain ⟨first, others, hfields⟩ := List.exists_cons_of_ne_nil (fields_ne_nil p s)
    rw [List.cons_append, fields, fields, ih, hfields]
    split <;> rfl

/-- No field has a character that ends one, and a field has only characters of the text. -/
theorem forall_of_mem_fields (hw : w ∈ fields p s) : ∀ d ∈ w, p d = false ∧ d ∈ s := by
  induction s generalizing w with
  | nil =>
    obtain rfl : w = [] := by simpa using hw
    simp
  | cons c s ih =>
    rw [fields] at hw
    split at hw
    · rcases List.mem_cons.mp hw with rfl | hw
      · simp
      · exact fun d hd => ⟨(ih hw d hd).1, List.mem_cons_of_mem _ (ih hw d hd).2⟩
    · next hc =>
      obtain ⟨first, others, hfields⟩ := List.exists_cons_of_ne_nil (fields_ne_nil p s)
      rw [hfields] at hw ih
      have hothers : ∀ v ∈ first :: others, ∀ d ∈ v, p d = false ∧ d ∈ c :: s := fun v hv d hd =>
        ⟨(ih hv d hd).1, List.mem_cons_of_mem _ (ih hv d hd).2⟩
      rcases List.mem_cons.mp hw with rfl | hw
      · refine List.forall_mem_cons.mpr ⟨⟨by simpa using hc, List.mem_cons_self⟩, ?_⟩
        exact hothers first List.mem_cons_self
      · exact hothers w (List.mem_cons_of_mem _ hw)

/-! ### Words -/

/-- A text with a character but without blanks. -/
def IsToken (w : List Char) : Prop := w ≠ [] ∧ ∀ c ∈ w, isBlank c = false

theorem isToken_iff : IsToken w ↔ (!w.isEmpty && w.all fun c => !isBlank c) = true := by
  simp [IsToken]

instance : Decidable (IsToken w) := decidable_of_iff _ isToken_iff.symm

theorem isToken_of_mem_words (hw : w ∈ words s) : IsToken w := by
  rw [words, List.mem_filter] at hw
  exact ⟨by simpa using hw.2, fun c hc => (forall_of_mem_fields hw.1 c hc).1⟩

/-- A blank ends a word. -/
theorem words_append (hs : IsToken s) (hc : isBlank c = true) (rest : List Char) :
    words (s ++ c :: rest) = s :: words rest := by
  rw [words, fields_append hs.2 hc, List.filter_cons_of_pos (by simpa using hs.1), words]

theorem words_of_isToken (hs : IsToken s) : words s = [s] := by
  rw [words, fields_of_forall hs.2, List.filter_cons_of_pos (by simpa using hs.1), List.filter_nil]

/-- A blank at the start is no part of any word. -/
theorem words_cons_of_isBlank (hc : isBlank c = true) (rest : List Char) :
    words (c :: rest) = words rest := by
  rw [words, fields, if_pos hc, List.filter_cons_of_neg (by simp), words]

/-- Another character begins the first word. -/
theorem exists_words_cons (hc : isBlank c = false) (rest : List Char) :
    ∃ w ws, words (c :: rest) = (c :: w) :: ws := by
  obtain ⟨first, others, hfields⟩ := List.exists_cons_of_ne_nil (fields_ne_nil isBlank rest)
  refine ⟨first, others.filter (· ≠ []), ?_⟩
  rw [words, fields, if_neg (by simp [hc]), hfields, List.filter_cons_of_pos (by simp)]

/-- Words with one space between them are cut into the same words again. -/
theorem words_intercalate {ws : List (List Char)} (h : ∀ w ∈ ws, IsToken w) :
    words ([' '].intercalate ws) = ws := by
  induction ws with
  | nil => rfl
  | cons w ws ih =>
    obtain ⟨hw, hws⟩ := List.forall_mem_cons.mp h
    cases ws with
    | nil => rw [List.intercalate_singleton, words_of_isToken hw]
    | cons v ws =>
      rw [List.intercalate_cons_cons, List.append_assoc, List.singleton_append,
        words_append hw (by decide), ih hws]

/-- A text has no words exactly if it has nothing but blanks. -/
theorem words_eq_nil_iff : words s = [] ↔ ∀ c ∈ s, isBlank c = true := by
  induction s with
  | nil => simp
  | cons c s ih =>
    rw [List.forall_mem_cons]
    by_cases hc : isBlank c = true
    · rw [words_cons_of_isBlank hc, ih, and_iff_right hc]
    · obtain ⟨first, others, hfields⟩ := List.exists_cons_of_ne_nil (fields_ne_nil isBlank s)
      rw [words, fields, if_neg hc, hfields]
      simp [hc]

/-- The first word of a text stands behind blanks, and a blank follows it unless the text ends. -/
theorem exists_of_words_eq_cons {ws : List (List Char)} (h : words s = w :: ws) :
    ∃ blanks rest, s = blanks ++ (w ++ rest) ∧ (∀ b ∈ blanks, isBlank b = true) ∧
      words rest = ws := by
  induction s generalizing w with
  | nil => simp at h
  | cons c s ih =>
    by_cases hc : isBlank c = true
    · rw [words_cons_of_isBlank hc] at h
      obtain ⟨blanks, rest, rfl, hblanks, hrest⟩ := ih h
      exact ⟨c :: blanks, rest, rfl, List.forall_mem_cons.mpr ⟨hc, hblanks⟩, hrest⟩
    · obtain ⟨first, others, hfields⟩ := List.exists_cons_of_ne_nil (fields_ne_nil isBlank s)
      rw [words, fields, if_neg hc, hfields, List.filter_cons_of_pos (by simp),
        List.cons.injEq] at h
      obtain ⟨rfl, hothers⟩ := h
      cases first with
      | nil =>
        -- the word is this one character
        refine ⟨[], s, rfl, by simp, ?_⟩
        rw [words, hfields, List.filter_cons_of_neg (by simp), hothers]
      | cons d first =>
        have hs : words s = (d :: first) :: ws := by
          rw [words, hfields, List.filter_cons_of_pos (by simp), hothers]
        obtain ⟨blanks, rest, hsplit, hblanks, hrest⟩ := ih hs
        cases blanks with
        | nil => exact ⟨[], rest, by rw [hsplit]; rfl, by simp, hrest⟩
        | cons b blanks =>
          -- a blank would have ended the word before
          have hb := (List.forall_mem_cons.mp hblanks).1
          rw [hsplit, List.cons_append, fields, if_pos hb] at hfields
          simp at hfields

/-! ### Trimming -/

/-- Blanks around a text that has none at its ends. -/
theorem trim_append (before after : List Char) (hbefore : ∀ b ∈ before, isBlank b = true)
    (hafter : ∀ b ∈ after, isBlank b = true) (hhead : ∀ c, w.head? = some c → isBlank c = false)
    (hlast : ∀ c, w.getLast? = some c → isBlank c = false) : trim (before ++ (w ++ after)) = w := by
  have hstart : (before ++ (w ++ after)).dropWhile isBlank = (w ++ after).dropWhile isBlank :=
    List.dropWhile_append_of_pos hbefore
  have hend : w.reverse.dropWhile isBlank = w.reverse := by
    cases hw : w.reverse with
    | nil => rfl
    | cons c cs =>
      have hc : isBlank c = false := hlast c (by rw [← List.head?_reverse, hw]; rfl)
      rw [List.dropWhile_cons_of_neg (by simp [hc])]
  rw [trim, hstart]
  cases w with
  | nil =>
    have hall : (after ++ []).dropWhile isBlank = [] := List.dropWhile_append_of_pos hafter
    rw [List.append_nil] at hall
    rw [List.nil_append, hall]
    rfl
  | cons c cs =>
    have hc : isBlank c = false := hhead c rfl
    rw [List.cons_append, List.dropWhile_cons_of_neg (by simp [hc]), trimEnd, ← List.cons_append,
      List.reverse_append, List.dropWhile_append_of_pos (by simpa using hafter), hend,
      List.reverse_reverse]

/-- A text without blanks at its ends stays as it is. -/
theorem trim_eq_self (hhead : ∀ c, w.head? = some c → isBlank c = false)
    (hlast : ∀ c, w.getLast? = some c → isBlank c = false) : trim w = w := by
  have h := trim_append [] [] (by simp) (by simp) hhead hlast
  rwa [List.nil_append, List.append_nil] at h

theorem trim_eq_nil_of_words_eq_nil (h : words s = []) : trim s = [] := by
  have hall := trim_append s [] (w := []) (words_eq_nil_iff.mp h)
    (by simp) (by simp) (by simp)
  rwa [List.append_nil, List.append_nil] at hall

/-- The one word of a text is what is left between its blanks. -/
theorem trim_eq_of_words_eq (h : words s = [w]) : trim s = w := by
  have hw : IsToken w := isToken_of_mem_words (by rw [h]; exact List.mem_cons_self)
  obtain ⟨blanks, rest, rfl, hblanks, hrest⟩ := exists_of_words_eq_cons h
  exact trim_append blanks rest hblanks (words_eq_nil_iff.mp hrest)
    (fun c hc => hw.2 c (List.mem_of_mem_head? hc)) fun c hc => hw.2 c (List.mem_of_mem_getLast? hc)

theorem words_append_left {before : List Char} (h : ∀ b ∈ before, isBlank b = true)
    (s : List Char) :
    words (before ++ s) = words s := by
  induction before with
  | nil => rfl
  | cons b before ih =>
    obtain ⟨hb, hbefore⟩ := List.forall_mem_cons.mp h
    rw [List.cons_append, words_cons_of_isBlank hb, ih hbefore]

theorem words_append_right {after : List Char} (h : ∀ b ∈ after, isBlank b = true) (s : List Char) :
    words (s ++ after) = words s := by
  induction after generalizing s with
  | nil => rw [List.append_nil]
  | cons b after ih =>
    obtain ⟨hb, hafter⟩ := List.forall_mem_cons.mp h
    rw [List.append_cons, ih hafter, words, fields_append_singleton hb, List.filter_append, words]
    simp

/-- What is left between the blanks at the ends has the words of the text. -/
theorem words_trim (s : List Char) : words (trim s) = words s := by
  have hblank (t : List Char) : ∀ b ∈ t.takeWhile isBlank, isBlank b = true :=
    List.all_eq_true.mp List.all_takeWhile
  have hend (t : List Char) : words (trimEnd t) = words t := by
    have hsplit : t = trimEnd t ++ (t.reverse.takeWhile isBlank).reverse := by
      rw [trimEnd, ← List.reverse_append, List.takeWhile_append_dropWhile, List.reverse_reverse]
    conv => rhs; rw [hsplit]
    exact (words_append_right (by simpa using hblank t.reverse) _).symm
  rw [trim, hend]
  conv => rhs; rw [← List.takeWhile_append_dropWhile (p := isBlank) (l := s)]
  exact (words_append_left (hblank s) _).symm

/-- A text begins with no blank once those at its ends are gone. -/
theorem isBlank_of_head?_trim (h : (trim s).head? = some c) : isBlank c = false := by
  have hprefix : trim s <+: s.dropWhile isBlank := by
    rw [trim, trimEnd, ← List.reverse_suffix, List.reverse_reverse]
    exact List.dropWhile_suffix _
  obtain ⟨rest, hrest⟩ := hprefix
  have hhead : (s.dropWhile isBlank).head? = some c := by
    rw [← hrest, List.head?_append, h]
    rfl
  have hnot := List.head?_dropWhile_not isBlank s
  rw [hhead] at hnot
  simpa using hnot

/-! ### Words with spaces between them -/

theorem intercalate_append {ws vs : List (List Char)} (hws : ws ≠ []) (hvs : vs ≠ []) :
    [' '].intercalate (ws ++ vs) = [' '].intercalate ws ++ ' ' :: [' '].intercalate vs := by
  induction ws with
  | nil => exact absurd rfl hws
  | cons w ws ih =>
    cases ws with
    | nil =>
      rw [List.singleton_append, List.intercalate_cons_of_ne_nil hvs, List.intercalate_singleton,
        List.append_assoc, List.singleton_append]
    | cons v ws =>
      have hrest := ih (List.cons_ne_nil v ws)
      rw [List.cons_append] at hrest
      rw [List.cons_append, List.cons_append, List.intercalate_cons_cons, hrest,
        List.intercalate_cons_cons, List.append_assoc, List.append_assoc, List.append_assoc]

/-- Between words there are spaces and no other characters. -/
theorem mem_of_mem_intercalate {ws : List (List Char)} (hc : c ∈ [' '].intercalate ws) :
    c = ' ' ∨ ∃ w ∈ ws, c ∈ w := by
  induction ws with
  | nil => simp at hc
  | cons w ws ih =>
    have hlater (h : c = ' ' ∨ ∃ v ∈ ws, c ∈ v) : c = ' ' ∨ ∃ v ∈ w :: ws, c ∈ v :=
      h.imp_right fun ⟨v, hv, hcv⟩ => ⟨v, List.mem_cons_of_mem _ hv, hcv⟩
    cases ws with
    | nil =>
      rw [List.intercalate_singleton] at hc
      exact Or.inr ⟨w, List.mem_cons_self, hc⟩
    | cons v ws =>
      rw [List.intercalate_cons_cons, List.mem_append, List.mem_append, List.mem_singleton] at hc
      rcases hc with (hc | hc) | hc
      · exact Or.inr ⟨w, List.mem_cons_self, hc⟩
      · exact Or.inl hc
      · exact hlater (ih hc)

theorem head?_intercalate (hw : w ≠ []) (ws : List (List Char)) :
    ([' '].intercalate (w :: ws)).head? = w.head? := by
  cases ws with
  | nil => rw [List.intercalate_singleton]
  | cons v ws =>
    rw [List.intercalate_cons_cons, List.append_assoc, List.head?_append,
      Option.or_of_isSome (by simpa using hw)]

theorem getLast?_intercalate (hw : w ≠ []) (ws : List (List Char)) :
    ([' '].intercalate (ws ++ [w])).getLast? = w.getLast? := by
  cases ws with
  | nil => rw [List.nil_append, List.intercalate_singleton]
  | cons v ws =>
    rw [intercalate_append (List.cons_ne_nil v ws) (List.cons_ne_nil w []),
      List.intercalate_singleton, List.append_cons, List.getLast?_append,
      Option.or_of_isSome (by simpa using hw)]

theorem isBlank_of_head?_intercalate {ws : List (List Char)} (h : ∀ w ∈ ws, IsToken w)
    (hc : ([' '].intercalate ws).head? = some c) : isBlank c = false := by
  cases ws with
  | nil => simp at hc
  | cons w ws =>
    have hw := h w List.mem_cons_self
    rw [head?_intercalate hw.1] at hc
    exact hw.2 c (List.mem_of_mem_head? hc)

theorem isBlank_of_getLast?_intercalate {ws : List (List Char)} (h : ∀ w ∈ ws, IsToken w)
    (hc : ([' '].intercalate ws).getLast? = some c) : isBlank c = false := by
  rcases List.eq_nil_or_concat ws with rfl | ⟨ws, w, rfl⟩
  · simp at hc
  · have hw := h w (by simp)
    rw [List.concat_eq_append, getLast?_intercalate hw.1] at hc
    exact hw.2 c (List.mem_of_mem_getLast? hc)

/-- Words with spaces between them begin and end with no blank. -/
theorem trim_intercalate {ws : List (List Char)} (h : ∀ w ∈ ws, IsToken w) :
    trim ([' '].intercalate ws) = [' '].intercalate ws :=
  trim_eq_self (fun _ => isBlank_of_head?_intercalate h) fun _ => isBlank_of_getLast?_intercalate h

/-! ### Lines -/

/-- The lines of lines that end in line feeds. -/
theorem lines_flatMap {ls : List (List Char)} (hfeed : ∀ l ∈ ls, '\n' ∉ l)
    (hreturn : ∀ l ∈ ls, l.getLast? ≠ some '\r') : lines (ls.flatMap (· ++ ['\n'])) = ls := by
  have hfields : fields (· == '\n') (ls.flatMap (· ++ ['\n'])) = ls ++ [[]] := by
    induction ls with
    | nil => rfl
    | cons l ls ih =>
      obtain ⟨hl, hls⟩ := List.forall_mem_cons.mp hfeed
      have hnone : ∀ d ∈ l, (d == '\n') = false := by
        intro d hd
        rw [beq_eq_false_iff_ne]
        rintro rfl
        exact hl hd
      rw [List.flatMap_cons, List.append_assoc, List.singleton_append,
        fields_append hnone (by decide), ih hls fun l hl => hreturn l (List.mem_cons_of_mem _ hl)]
      rfl
  have hdrop : ls.map dropReturn = ls := by
    have hkeep : ∀ l ∈ ls, dropReturn l = id l := by
      intro l hl
      rw [dropReturn]
      split
      · next hlast => exact absurd hlast (hreturn l hl)
      · rfl
    rw [List.map_congr_left hkeep, List.map_id]
  rw [lines, hfields]
  simp [hdrop]

end Text

/-! ### The silent word -/

/-- The silent word has no words but its sign. -/
theorem isSilent_iff {s : List Char} :
    isSilent (String.ofList s) = true ↔ Text.words s = [] ∨ Text.words s = [epsilon.toList] := by
  have hepsilon : Text.IsToken epsilon.toList := by decide
  rw [isSilent, String.toList_ofList, Bool.or_eq_true, List.isEmpty_iff, beq_iff_eq]
  constructor
  · rintro (h | h)
    · exact Or.inl (by rw [← Text.words_trim, h, Text.words_nil])
    · exact Or.inr (by rw [← Text.words_trim, h, Text.words_of_isToken hepsilon])
  · rintro (h | h)
    · exact Or.inl (Text.trim_eq_nil_of_words_eq_nil h)
    · exact Or.inr (Text.trim_eq_of_words_eq h)

/-- A word without blanks is its own token, unless it is silent. -/
theorem tokens_of_isToken {w : String} (hw : Text.IsToken w.toList) :
    tokens w = if isSilent w then [] else [w] := by
  rw [tokens, Text.wordsOf, Text.words_of_isToken hw, List.map_singleton, String.ofList_toList]

end MinimalistGrammar
