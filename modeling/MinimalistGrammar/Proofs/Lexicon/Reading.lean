import MinimalistGrammar.Lexicon.Text
import MinimalistGrammar.Proofs.Text.Fields

/-!
# Entries that can be written

What is read from a line is an entry that can be written on a line: its word has single spaces
between its tokens and does not begin like a comment, and its features have names that stand on
their own. Such an entry is read back from the line it is written on, since its features have no
colon, so the separator in front of them is the last one.

## Main definitions

* `Feature.IsWritten` — a feature that a token can stand for.
* `IsWritable` — an entry that a line can stand for.
* `lineOf` — the line for an entry.

## Main results

* `Feature.parse_text`, `Feature.isWritten_of_parse` — a written feature is read back from its text.
* `splitAtLastSeparator_append` — the last separator is found.
* `isWritable_of_readTrimmed` — entries that were read can be written.
* `readTrimmed_lineOf` — an entry is read back from its line.
-/

namespace MinimalistGrammar

variable {c : Char} {s before after : List Char} {f : Feature} {fs : List Feature}

/-! ### Names -/

namespace Text

/-- The code points of the blanks. -/
def blankCodes : List Nat :=
  [0x9, 0xA, 0xB, 0xC, 0xD, 0x20, 0x85, 0xA0, 0x1680, 0x2000, 0x2001, 0x2002, 0x2003, 0x2004,
    0x2005, 0x2006, 0x2007, 0x2008, 0x2009, 0x200A, 0x2028, 0x2029, 0x202F, 0x205F, 0x3000]

theorem toNat_mem_blankCodes (h : isBlank c = true) : c.toNat ∈ blankCodes := by
  simp only [isBlank, Bool.or_eq_true, Bool.and_eq_true, decide_eq_true_eq, beq_iff_eq] at h
  simp only [blankCodes, List.mem_cons, List.not_mem_nil, or_false]
  omega

theorem isWordChar_of_isBlank (h : isBlank c = true) : isWordChar c = false := by
  have hnone : ∀ n ∈ blankCodes, (wordRanges.any fun r => r.1 ≤ n && n ≤ r.2) = false := by
    decide +kernel
  exact hnone c.toNat (toNat_mem_blankCodes h)

end Text

/-- No blank stands in a name. -/
theorem isNameChar_of_isBlank (h : Text.isBlank c = true) : isNameChar c = false := by
  have hother : ∀ d ∈ ['.', '\'', '-'], c ≠ d := by
    rintro d hd rfl
    simp only [List.mem_cons, List.not_mem_nil, or_false] at hd
    rcases hd with rfl | rfl | rfl <;> exact absurd h (by decide)
  simp [isNameChar, isNameStart, Text.isWordChar_of_isBlank h, hother]

theorem isNameChar_colon : isNameChar ':' = false := by decide +kernel

/-- No sign begins a name. -/
theorem isNameStart_sign (hc : c ∈ ['=', '+', '-', '≈', '*']) : isNameStart c = false := by
  have hall : (['=', '+', '-', '≈', '*'].all fun d => !isNameStart d) = true := by decide +kernel
  simpa using List.all_eq_true.mp hall c hc

theorem isNameChar_of_isNameStart (h : isNameStart c = true) : isNameChar c = true := by
  rw [isNameChar, h, Bool.true_or]

/-- All characters of a name may stand in it. -/
theorem isNameChar_of_isName (h : isName s = true) : ∀ d ∈ s, isNameChar d = true := by
  cases s with
  | nil => simp
  | cons c cs =>
    rw [isName, Bool.and_eq_true, List.all_eq_true] at h
    exact List.forall_mem_cons.mpr ⟨isNameChar_of_isNameStart h.1, h.2⟩

theorem ne_nil_of_isName (h : isName s = true) : s ≠ [] := by
  rintro rfl
  simp at h

/-- A name has no sign. -/
theorem splitSign_of_isName (h : isName s = true) : splitSign s = (.categorial, s) := by
  have hsign (d : Char) (rest : List Char) (hd : d ∈ ['=', '+', '-', '≈', '*'])
      (hs : isName (d :: rest) = true) : False := by
    rw [isName, isNameStart_sign hd] at hs
    simp at hs
  rw [splitSign]
  all_goals
    rintro rest rfl
    exact hsign _ rest (by simp) h

/-! ### Features -/

namespace Feature

/-- A feature that a token can stand for. -/
structure IsWritten (f : Feature) : Prop where
  isName : isName f.name.toList = true
  required : f.required = false

/-- A token stands for a feature that can be written. -/
theorem isWritten_of_parse {token : String} (h : parse token = .ok f) : f.IsWritten := by
  rw [parse] at h
  obtain ⟨sign, name⟩ := splitSign token.toList
  dsimp only at h
  split at h
  · next hname =>
    obtain rfl := Except.ok.inj h
    exact ⟨by rwa [String.toList_ofList], rfl⟩
  · simp at h

theorem splitSign_text (h : f.IsWritten) : splitSign f.text.toList = (f.sign, f.name.toList) := by
  rw [text, String.toList_append]
  cases f.sign with
  | categorial => exact splitSign_of_isName h.isName
  | selector => rfl
  | licensor => rfl
  | licensee => rfl
  | adjunct => rfl
  | pair => rfl

/-- A written feature is read back from its text. -/
theorem parse_text (h : f.IsWritten) : parse f.text = .ok f := by
  have hf : ({ name := String.ofList f.name.toList, sign := f.sign } : Feature) = f := by
    rw [String.ofList_toList, ← h.required]
  rw [parse, splitSign_text h]
  exact (if_pos h.isName).trans (congrArg Except.ok hf)

/-- The characters of a feature are its sign or stand in its name. -/
theorem mem_text (h : f.IsWritten) (hc : c ∈ f.text.toList) :
    c ∈ ['=', '+', '-', '≈', '*'] ∨ isNameChar c = true := by
  rw [text, String.toList_append, List.mem_append] at hc
  refine hc.imp (fun hc => ?_) (isNameChar_of_isName h.isName c)
  cases hsign : f.sign <;> simp_all [Sign.symbol]

theorem isToken_text (h : f.IsWritten) : Text.IsToken f.text.toList := by
  have hsigns : Text.IsToken ['=', '+', '-', '≈', '*'] := by decide
  refine ⟨?_, fun c hc => ?_⟩
  · rw [text, String.toList_append]
    exact List.append_ne_nil_of_right_ne_nil _ (ne_nil_of_isName h.isName)
  · rcases mem_text h hc with hsign | hname
    · exact hsigns.2 c hsign
    · refine Bool.eq_false_iff.mpr fun hblank => ?_
      simp [isNameChar_of_isBlank hblank] at hname

theorem colon_not_mem_text (h : f.IsWritten) : ':' ∉ f.text.toList := by
  intro hc
  rcases mem_text h hc with hsign | hname
  · exact absurd hsign (by decide)
  · simp [isNameChar_colon] at hname

end Feature

/-- Reads one feature of an entry. -/
def readToken (token : List Char) : Except LexiconFault Feature :=
  match Feature.parse (String.ofList token) with
  | .ok f => .ok f
  | .error e => .error (.malformedFeature e.token)

theorem readFeatures_eq (s : List Char) : readFeatures s = (Text.words s).mapM readToken := rfl

theorem readToken_text (h : f.IsWritten) : readToken f.text.toList = .ok f := by
  rw [readToken, String.ofList_toList, Feature.parse_text h]

theorem isWritten_of_readToken {token : List Char} (h : readToken token = .ok f) : f.IsWritten := by
  rw [readToken] at h
  split at h
  · next hf =>
    obtain rfl := Except.ok.inj h
    exact Feature.isWritten_of_parse hf
  · simp at h

/-- Tokens of written features are read as these. -/
theorem mapM_readToken_text (h : ∀ f ∈ fs, f.IsWritten) :
    (fs.map (·.text.toList)).mapM readToken = .ok fs := by
  induction fs with
  | nil => rfl
  | cons f fs ih =>
    obtain ⟨hf, hfs⟩ := List.forall_mem_cons.mp h
    rw [List.map_cons, List.mapM_cons, ih hfs, readToken_text hf]
    rfl

theorem toList_listText (fs : List Feature) :
    (Feature.listText fs).toList = [' '].intercalate (fs.map (·.text.toList)) := by
  rw [Feature.listText, String.toList_intercalate, List.map_map]
  rfl

/-- Written features are read back from their texts with one space between them. -/
theorem readFeatures_listText (h : ∀ f ∈ fs, f.IsWritten) :
    readFeatures (' ' :: (Feature.listText fs).toList) = .ok fs := by
  have htokens : ∀ w ∈ fs.map (·.text.toList), Text.IsToken w :=
    List.forall_mem_map.mpr fun f hf => Feature.isToken_text (h f hf)
  rw [readFeatures_eq, Text.words_cons_of_isBlank (by decide), toList_listText,
    Text.words_intercalate htokens, mapM_readToken_text h]

/-- Features that were read can be written. -/
theorem isWritten_of_readFeatures (h : readFeatures s = .ok fs) : ∀ f ∈ fs, f.IsWritten := by
  rw [readFeatures_eq] at h
  generalize Text.words s = tokens at h
  induction tokens generalizing fs with
  | nil =>
    obtain rfl := Except.ok.inj h
    simp
  | cons token tokens ih =>
    rw [List.mapM_cons] at h
    cases hf : readToken token with
    | error e => simp [hf, bind, Except.bind] at h
    | ok f =>
      cases hrest : tokens.mapM readToken with
      | error e => simp [hf, hrest, bind, Except.bind] at h
      | ok gs =>
        obtain rfl : f :: gs = fs := by
          simpa [hf, hrest, bind, Except.bind, pure, Except.pure] using h
        exact List.forall_mem_cons.mpr ⟨isWritten_of_readToken hf, ih hrest⟩

/-! ### The separator -/

theorem splitAtLastSeparator_eq_none (h : ':' ∉ s) : splitAtLastSeparator s = none := by
  induction s with
  | nil => rfl
  | cons c s ih =>
    obtain ⟨hc, hs⟩ := not_or.mp fun hmem => h (List.mem_cons.mpr hmem)
    rw [splitAtLastSeparator, ih hs]
    exact fun _ heq _ => hc heq.symm

/-- The separator with no colon behind it is the last one. -/
theorem splitAtLastSeparator_append (before : List Char) (h : ':' ∉ after) :
    splitAtLastSeparator (before ++ ':' :: ':' :: after) = some (before, after) := by
  induction before with
  | nil =>
    -- the second colon begins no separator
    have hsecond : splitAtLastSeparator (':' :: after) = none := by
      rw [splitAtLastSeparator, splitAtLastSeparator_eq_none h]
      rintro _ - rfl
      exact h List.mem_cons_self
    rw [List.nil_append, splitAtLastSeparator, hsecond]
  | cons c before ih =>
    rw [List.cons_append, splitAtLastSeparator.eq_def]
    simp only [ih]

/-! ### Words -/

/-- The tokens of a word as it is kept. -/
def normalTokens (s : List Char) : List (List Char) :=
  if isSilent (String.ofList s) then [epsilon.toList] else Text.words s

theorem toList_normalWord (s : List Char) :
    (normalWord s).toList = [' '].intercalate (normalTokens s) := by
  rw [normalWord, normalTokens]
  split
  · rw [List.intercalate_singleton]
  · rw [String.toList_intercalate, Text.wordsOf, String.toList_ofList, List.map_map]
    simp [Function.comp_def]

theorem isToken_of_mem_normalTokens {w : List Char} (h : w ∈ normalTokens s) : Text.IsToken w := by
  rw [normalTokens] at h
  split at h
  · rw [List.mem_singleton.mp h]
    decide
  · exact Text.isToken_of_mem_words h

theorem normalTokens_ne_nil (s : List Char) : normalTokens s ≠ [] := by
  rw [normalTokens]
  split
  · simp
  · next h => exact fun hnil => h (isSilent_iff.mpr (Or.inl hnil))

/-- A word is known by its tokens. -/
theorem normalTokens_congr {s t : List Char} (h : Text.words s = Text.words t) :
    normalTokens s = normalTokens t := by
  have hsilent : isSilent (String.ofList s) = isSilent (String.ofList t) := by
    rw [Bool.eq_iff_iff, isSilent_iff, isSilent_iff, h]
  rw [normalTokens, normalTokens, hsilent, h]

/-- A word as it is kept is kept as it is. -/
theorem normalTokens_normalWord (s : List Char) :
    normalTokens (normalWord s).toList = normalTokens s := by
  have hwords : Text.words (normalWord s).toList = normalTokens s := by
    rw [toList_normalWord, Text.words_intercalate fun w => isToken_of_mem_normalTokens]
  have hself : normalTokens s = [epsilon.toList] ∨ normalTokens s = Text.words s := by
    rw [normalTokens]
    split
    · exact Or.inl rfl
    · exact Or.inr rfl
  rcases hself with hepsilon | hself
  · have hsilent : isSilent (String.ofList (normalWord s).toList) = true :=
      isSilent_iff.mpr (Or.inr (hwords.trans hepsilon))
    rw [normalTokens, if_pos hsilent, hepsilon]
  · exact normalTokens_congr (hwords.trans hself)

/-- The word of a line does not begin like a comment if the line does not. -/
theorem head?_normalWord_ne_comment (h : ∀ c, s.head? = some c → Text.isBlank c = false ∧ c ≠ '#') :
    (normalWord s).toList.head? ≠ some '#' := by
  rw [toList_normalWord, normalTokens]
  split
  · decide
  · next hsilent =>
    cases s with
    | nil => exact absurd (by decide) hsilent
    | cons c cs =>
      obtain ⟨hblank, hcomment⟩ := h c rfl
      obtain ⟨w, ws, hwords⟩ := Text.exists_words_cons hblank cs
      rw [hwords, Text.head?_intercalate (List.cons_ne_nil c w), List.head?_cons]
      simpa using hcomment

/-! ### Lines -/

/-- An entry that a line can stand for. -/
structure IsWritable (e : String × List Feature) : Prop where
  /-- The word is as it is kept. -/
  word : e.1.toList = [' '].intercalate (normalTokens e.1.toList)
  /-- The line is no comment. -/
  noComment : e.1.toList.head? ≠ some '#'
  ne_nil : e.2 ≠ []
  features : ∀ f ∈ e.2, f.IsWritten

/-- The line for an entry. -/
def lineOf (e : String × List Feature) : List Char :=
  (e.1 ++ " :: " ++ Feature.listText e.2).toList

/-- The tokens on the line for an entry. -/
def lineTokens (e : String × List Feature) : List (List Char) :=
  normalTokens e.1.toList ++ [':', ':'] :: e.2.map (·.text.toList)

variable {e : String × List Feature}

theorem lineOf_eq_append (e : String × List Feature) : lineOf e =
    (e.1.toList ++ [' ']) ++ ':' :: ':' :: ' ' :: (Feature.listText e.2).toList := by
  rw [lineOf, String.toList_append, String.toList_append, List.append_assoc, List.append_assoc]
  rfl

namespace IsWritable

theorem lineOf_eq (h : IsWritable e) : lineOf e = [' '].intercalate (lineTokens e) := by
  have hfeatures : e.2.map (·.text.toList) ≠ [] := by simpa using h.ne_nil
  rw [lineTokens, Text.intercalate_append (normalTokens_ne_nil _) (by simp), ← h.word,
    List.intercalate_cons_of_ne_nil hfeatures, ← toList_listText, lineOf_eq_append,
    List.append_assoc]
  rfl

theorem isToken_of_mem_lineTokens (h : IsWritable e) : ∀ w ∈ lineTokens e, Text.IsToken w := by
  have hseparator : Text.IsToken [':', ':'] := by decide
  have hfeatures : ∀ w ∈ e.2.map (·.text.toList), Text.IsToken w :=
    List.forall_mem_map.mpr fun f hf => Feature.isToken_text (h.features f hf)
  exact List.forall_mem_append.mpr
    ⟨fun w => isToken_of_mem_normalTokens, List.forall_mem_cons.mpr ⟨hseparator, hfeatures⟩⟩

theorem toList_ne_nil (h : IsWritable e) : e.1.toList ≠ [] := by
  obtain ⟨w, ws, htokens⟩ := List.exists_cons_of_ne_nil (normalTokens_ne_nil e.1.toList)
  have hw : w ≠ [] := (isToken_of_mem_normalTokens (htokens ▸ List.mem_cons_self)).1
  intro hnil
  have hhead := Text.head?_intercalate hw ws
  rw [← htokens, ← h.word, hnil] at hhead
  exact hw (List.head?_eq_none_iff.mp hhead.symm)

/-- The line for an entry has no blanks at its ends. -/
theorem trim_lineOf (h : IsWritable e) : Text.trim (lineOf e) = lineOf e := by
  rw [h.lineOf_eq, Text.trim_intercalate h.isToken_of_mem_lineTokens]

/-- The line for an entry is one line. -/
theorem feed_not_mem_lineOf (h : IsWritable e) : '\n' ∉ lineOf e := by
  intro hmem
  rw [h.lineOf_eq] at hmem
  rcases Text.mem_of_mem_intercalate hmem with hspace | ⟨w, hw, hmem⟩
  · exact absurd hspace (by decide)
  · exact absurd ((h.isToken_of_mem_lineTokens w hw).2 _ hmem) (by decide)

/-- The line for an entry does not end in a carriage return. -/
theorem getLast?_lineOf (h : IsWritable e) : (lineOf e).getLast? ≠ some '\r' := by
  intro hlast
  rw [h.lineOf_eq] at hlast
  exact absurd (Text.isBlank_of_getLast?_intercalate h.isToken_of_mem_lineTokens hlast) (by decide)

/-- No colon comes behind the separator. -/
theorem colon_not_mem (h : IsWritable e) : ':' ∉ ' ' :: (Feature.listText e.2).toList := by
  rw [List.mem_cons, toList_listText]
  rintro (hspace | hmem)
  · exact absurd hspace (by decide)
  · rcases Text.mem_of_mem_intercalate hmem with hspace | ⟨w, hw, hmem⟩
    · exact absurd hspace (by decide)
    · obtain ⟨f, hf, rfl⟩ := List.mem_map.mp hw
      exact Feature.colon_not_mem_text (h.features f hf) hmem

end IsWritable

/-- A word is kept as it is, whatever blanks come behind it. -/
theorem normalWord_append_space (h : IsWritable e) : normalWord (e.1.toList ++ [' ']) = e.1 := by
  have htokens : normalTokens (e.1.toList ++ [' ']) = normalTokens e.1.toList :=
    normalTokens_congr (Text.words_append_right (by simp [Text.isBlank]) _)
  rw [← String.toList_inj, toList_normalWord, htokens, ← h.word]

/-- An entry is read back from its line. -/
theorem readTrimmed_lineOf (h : IsWritable e) : readTrimmed (lineOf e) = .ok (some e) := by
  have hsays : ((lineOf e).isEmpty || (lineOf e).head? == some '#') = false := by
    obtain ⟨c, cs, hword⟩ := List.exists_cons_of_ne_nil h.toList_ne_nil
    have hc := h.noComment
    rw [hword, List.head?_cons] at hc
    rw [lineOf_eq_append, hword]
    simpa using hc
  have hfeatures : readFeatures (' ' :: (Feature.listText e.2).toList) = .ok e.2 :=
    readFeatures_listText h.features
  rw [readTrimmed, hsays, lineOf_eq_append, splitAtLastSeparator_append _ h.colon_not_mem]
  simp [hfeatures, normalWord_append_space h, h.ne_nil, bind, Except.bind]

/-- What is read from a line without blanks at its ends can be written. -/
theorem isWritable_of_readTrimmed (h : readTrimmed (Text.trim s) = .ok (some e)) :
    IsWritable e := by
  rw [readTrimmed] at h
  split at h
  · simp at h
  · next hsays =>
    split at h
    · simp at h
    · next before after hsplit =>
      cases hfeatures : readFeatures after with
      | error fault => simp [hfeatures, bind, Except.bind] at h
      | ok fs =>
        have hne : fs ≠ [] := by
          rintro rfl
          simp [hfeatures, bind, Except.bind] at h
        obtain rfl : (normalWord before, fs) = e := by
          simpa [hfeatures, hne, bind, Except.bind] using h
        refine ⟨?_, ?_, hne, isWritten_of_readFeatures hfeatures⟩
        · rw [normalTokens_normalWord, ← toList_normalWord]
        · refine head?_normalWord_ne_comment fun c hc => ?_
          have hhead : (Text.trim s).head? = some c := by
            rw [splitAtLastSeparator_eq hsplit, List.head?_append, hc]
            rfl
          refine ⟨Text.isBlank_of_head?_trim hhead, ?_⟩
          rintro rfl
          simp [hhead] at hsays

end MinimalistGrammar
