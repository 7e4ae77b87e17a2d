import MinimalistGrammar.Proofs.Bracketing.Reading

/-!
# Reading back a bracketing

The text of a bracketing has the tokens of the tree, and tokens are put together to the tree that
they come from. So a bracketing that was read is read back from its text, with one exception: a word
with a dot in front, right behind a bracket without a label, comes back as the label of the bracket.

## Main definitions

* `Bracketing.tokenList` — the tokens of a tree.
* `Bracketing.isPlain` — no bracket without a label has a word behind it that looks like a label.
* `Bracketing.relabel` — the tree that is read back.

## Main results

* `Bracketing.tokensIn_text` — the text of a plain tree has the tokens of the tree.
* `Bracketing.assemble_tokenList` — the tokens of a tree are put together to the tree.
* `Bracketing.parse_text_of_parse` — what is read back from the text of a tree that was read.
-/

namespace MinimalistGrammar

/-! ### Tokens of a text -/

/-- The tokens of a text. -/
def tokensIn (s : List Char) : List BracketToken := (scanBrackets s).map (·.1)

/-- What follows a word or a label: nothing that could be a part of it. -/
def EndsRun (rest : List Char) : Prop := ∀ c, rest.head? = some c → isWordPiece c = false

theorem endsRun_nil : EndsRun [] := by simp [EndsRun]

theorem endsRun_space (rest : List Char) : EndsRun (' ' :: rest) := by
  rintro c ⟨⟩
  decide

theorem endsRun_close (rest : List Char) : EndsRun (']' :: rest) := by
  rintro c ⟨⟩
  decide

theorem scanBrackets_nil : scanBrackets [] = [] := by rw [scanBrackets.eq_def]

theorem scanBrackets_cons (c : Char) (cs : List Char) :
    scanBrackets (c :: cs) =
      if Text.isBlank c then scanBrackets cs
      else if c == '[' then (.open (splitLabel cs).1, c :: cs) :: scanBrackets (splitLabel cs).2
      else if c == ']' then (.close, c :: cs) :: scanBrackets cs
      else
        (.word (String.ofList (c :: cs.takeWhile isWordPiece)), c :: cs) ::
          scanBrackets (cs.dropWhile isWordPiece) := by
  rw [scanBrackets.eq_def]

@[simp] theorem tokensIn_nil : tokensIn [] = [] := by
  rw [tokensIn, scanBrackets_nil, List.map_nil]

theorem tokensIn_cons (c : Char) (cs : List Char) :
    tokensIn (c :: cs) =
      if Text.isBlank c then tokensIn cs
      else if c == '[' then .open (splitLabel cs).1 :: tokensIn (splitLabel cs).2
      else if c == ']' then .close :: tokensIn cs
      else .word (String.ofList (c :: cs.takeWhile isWordPiece)) ::
        tokensIn (cs.dropWhile isWordPiece) := by
  rw [tokensIn, scanBrackets_cons]
  simp only [apply_ite (List.map _), List.map_cons]
  rfl

@[simp] theorem tokensIn_space (rest : List Char) : tokensIn (' ' :: rest) = tokensIn rest := by
  rw [tokensIn_cons, if_pos (by decide)]

@[simp] theorem tokensIn_close (rest : List Char) :
    tokensIn (']' :: rest) = .close :: tokensIn rest := by
  rw [tokensIn_cons, if_neg (by decide), if_neg (by decide), if_pos (by decide)]

theorem tokensIn_open (rest : List Char) :
    tokensIn ('[' :: rest) = .open (splitLabel rest).1 :: tokensIn (splitLabel rest).2 := by
  rw [tokensIn_cons, if_neg (by decide), if_pos (by decide)]

/-- A run ends where something follows that could not be a part of it. -/
theorem takeWhile_append_of_endsRun {s rest : List Char} (hs : ∀ c ∈ s, isWordPiece c = true)
    (hrest : EndsRun rest) :
    (s ++ rest).takeWhile isWordPiece = s ∧ (s ++ rest).dropWhile isWordPiece = rest := by
  rw [List.takeWhile_append_of_pos hs, List.dropWhile_append_of_pos hs]
  cases rest with
  | nil => simp
  | cons c rest => simp [hrest c rfl]

theorem tokensIn_word {w : String} {rest : List Char} (hw : IsRunWord w) (hrest : EndsRun rest) :
    tokensIn (w.toList ++ rest) = .word w :: tokensIn rest := by
  obtain ⟨hne, hrun⟩ := hw
  rw [IsRun] at hrun
  obtain ⟨c, cs, hcs⟩ := List.exists_cons_of_ne_nil hne
  rw [hcs] at hrun
  obtain ⟨hc, hpieces⟩ := List.forall_mem_cons.mp hrun
  obtain ⟨hblank, hopen, hclose⟩ := isWordPiece_iff.mp hc
  obtain ⟨htake, hdrop⟩ := takeWhile_append_of_endsRun hpieces hrest
  have hword : String.ofList (c :: cs) = w := by rw [← hcs, String.ofList_toList]
  rw [hcs, List.cons_append, tokensIn_cons, if_neg (by simp [hblank]),
    if_neg (by simpa using hopen), if_neg (by simpa using hclose), htake, hdrop, hword]

theorem splitLabel_label {l : String} {rest : List Char} (hl : IsRun l) (hrest : EndsRun rest) :
    splitLabel ('.' :: (l.toList ++ rest)) = (some l, rest) := by
  obtain ⟨htake, hdrop⟩ := takeWhile_append_of_endsRun hl hrest
  rw [splitLabel, htake, hdrop, String.ofList_toList]

theorem splitLabel_of_head?_ne {s : List Char} (h : s.head? ≠ some '.') :
    splitLabel s = (none, s) := by
  unfold splitLabel
  split
  · simp at h
  · rfl

namespace Bracketing

/-! ### Words that look like labels -/

/-- Whether a word would be read as a label behind an opening bracket. -/
def looksLikeLabel (w : String) : Bool := w.toList.head? == some '.'

/-- Whether a bracket without a label has no word right behind it that looks like one. -/
def opensPlainly : Option String → List Bracketing → Bool
  | none, word w :: _ => !looksLikeLabel w
  | _, _ => true

mutual

/-- Whether no bracket without a label has a word right behind it that looks like one. -/
def isPlain : Bracketing → Bool
  | word _ => true
  | node label parts => opensPlainly label parts && arePlain parts

/-- Whether all bracketings on a list are plain. -/
def arePlain : List Bracketing → Bool
  | [] => true
  | p :: ps => p.isPlain && arePlain ps

end

/-- A node as its text is read: a first word that looks like a label is one. -/
def labelled : Option String → List Bracketing → Bracketing
  | none, word w :: ps =>
    match w.toList with
    | '.' :: l => node (some (String.ofList l)) ps
    | _ => node none (word w :: ps)
  | label, ps => node label ps

mutual

/-- The tree that the text of a tree is read as. -/
def relabel : Bracketing → Bracketing
  | word w => word w
  | node label parts => labelled label (relabelParts parts)

/-- The trees that the texts of some trees are read as. -/
def relabelParts : List Bracketing → List Bracketing
  | [] => []
  | p :: ps => p.relabel :: relabelParts ps

end

/-- A node is read as it is, or its first word as its label. -/
theorem labelled_cases (label : Option String) (ps : List Bracketing) :
    (labelled label ps = node label ps ∧ opensPlainly label ps = true) ∨
      ∃ l rest, label = none ∧ ps = word (String.ofList ('.' :: l)) :: rest ∧
        labelled label ps = node (some (String.ofList l)) rest ∧ opensPlainly label ps = false := by
  unfold labelled
  split
  · next w rest =>
    split
    · next l hl =>
      refine Or.inr ⟨l, rest, rfl, ?_, rfl, by simp [opensPlainly, looksLikeLabel, hl]⟩
      rw [← hl, String.ofList_toList]
    · next hl =>
      refine Or.inl ⟨rfl, ?_⟩
      cases hs : w.toList with
      | nil => simp [opensPlainly, looksLikeLabel, hs]
      | cons c cs =>
        have hc : c ≠ '.' := by
          rintro rfl
          exact hl cs hs
        simp [opensPlainly, looksLikeLabel, hs, hc]
  · next hnone =>
    refine Or.inl ⟨rfl, ?_⟩
    unfold opensPlainly
    split
    · next w rest => exact absurd rfl (hnone w rest rfl)
    · rfl

/-! ### What reading back changes -/

@[simp] theorem relabel_word (w : String) : (word w).relabel = word w := rfl

/-- Reading back makes no node a word, and no word a node. -/
theorem opensPlainly_relabelParts (label : Option String) (ps : List Bracketing) :
    opensPlainly label (relabelParts ps) = opensPlainly label ps := by
  cases ps with
  | nil => rfl
  | cons p ps =>
    cases p with
    | word w => cases label <;> rfl
    | node l parts =>
      rw [relabelParts, relabel]
      rcases labelled_cases l (relabelParts parts) with ⟨h, -⟩ | ⟨_, _, _, _, h, -⟩
      · cases label <;> rw [h] <;> rfl
      · cases label <;> rw [h] <;> rfl

mutual

/-- Reading back changes nothing exactly in plain trees. -/
theorem relabel_eq_self_iff (b : Bracketing) : b.relabel = b ↔ b.isPlain = true := by
  cases b with
  | word w => simp [isPlain]
  | node label parts =>
    rw [relabel, isPlain, Bool.and_eq_true, ← relabelParts_eq_self_iff parts,
      ← opensPlainly_relabelParts]
    rcases labelled_cases label (relabelParts parts) with ⟨h, hplain⟩ | ⟨l, rest, rfl, -, h, hplain⟩
    · simp [h, hplain]
    · simp [h, hplain]

theorem relabelParts_eq_self_iff (ps : List Bracketing) :
    relabelParts ps = ps ↔ arePlain ps = true := by
  cases ps with
  | nil => simp [relabelParts, arePlain]
  | cons p ps =>
    rw [relabelParts, List.cons.injEq, arePlain, Bool.and_eq_true, relabel_eq_self_iff p,
      relabelParts_eq_self_iff ps]

end

theorem text_labelled (label : Option String) (ps : List Bracketing) :
    (labelled label ps).text = (node label ps).text := by
  rcases labelled_cases label ps with ⟨h, -⟩ | ⟨l, rest, rfl, rfl, h, -⟩
  · rw [h]
  · rw [h]
    cases rest <;> simp [text, opening, textParts, String.ext_iff]

theorem isEmpty_relabelParts (ps : List Bracketing) : (relabelParts ps).isEmpty = ps.isEmpty := by
  cases ps <;> rfl

mutual

/-- The text stays the same when it is read back. -/
theorem text_relabel (b : Bracketing) : b.relabel.text = b.text := by
  cases b with
  | word w => rfl
  | node label parts =>
    have hopening : opening label (relabelParts parts) = opening label parts := by
      cases label <;> simp [opening, isEmpty_relabelParts]
    rw [relabel, text_labelled, text, text, textParts_relabelParts parts, hopening]

theorem textParts_relabelParts (ps : List Bracketing) :
    textParts (relabelParts ps) = textParts ps := by
  match ps with
  | [] => rfl
  | [p] => exact text_relabel p
  | p :: q :: ps =>
    have htail := textParts_relabelParts (q :: ps)
    rw [relabelParts] at htail
    rw [relabelParts, relabelParts, textParts, textParts, text_relabel p, htail]

end

theorem isLegible_labelled {label : Option String} {ps : List Bracketing}
    (h : (node label ps).IsLegible) :
    (labelled label ps).IsLegible ∧ (arePlain ps = true → (labelled label ps).isPlain = true) := by
  rcases labelled_cases label ps with ⟨heq, hplain⟩ | ⟨l, rest, rfl, rfl, heq, -⟩
  · rw [heq]
    exact ⟨h, fun hps => by rw [isPlain, hplain, hps]; rfl⟩
  · obtain ⟨-, hword, hrest⟩ := h
    rw [heq]
    refine ⟨⟨?_, hrest⟩, fun hps => ?_⟩
    · rintro _ ⟨⟩ c hc
      rw [String.toList_ofList] at hc
      exact hword.2 c (by rw [String.toList_ofList]; exact List.mem_cons_of_mem _ hc)
    · rw [arePlain, Bool.and_eq_true] at hps
      rw [isPlain, hps.2]
      rfl

mutual

/-- What is read back from a legible tree is legible and plain. -/
theorem isLegible_relabel (b : Bracketing) (h : b.IsLegible) :
    b.relabel.IsLegible ∧ b.relabel.isPlain = true := by
  cases b with
  | word w => exact ⟨h, rfl⟩
  | node label parts =>
    obtain ⟨hparts, hplain⟩ := areLegible_relabelParts parts h.2
    have hnode : (node label (relabelParts parts)).IsLegible := ⟨h.1, hparts⟩
    exact ⟨(isLegible_labelled hnode).1, (isLegible_labelled hnode).2 hplain⟩

theorem areLegible_relabelParts (ps : List Bracketing) (h : AreLegible ps) :
    AreLegible (relabelParts ps) ∧ arePlain (relabelParts ps) = true := by
  cases ps with
  | nil => exact ⟨trivial, rfl⟩
  | cons p ps =>
    obtain ⟨hp, hps⟩ := h
    obtain ⟨hlegible, hplain⟩ := isLegible_relabel p hp
    obtain ⟨hlegibles, hplains⟩ := areLegible_relabelParts ps hps
    exact ⟨⟨hlegible, hlegibles⟩, by rw [relabelParts, arePlain, hplain, hplains]; rfl⟩

end

/-! ### The tokens of a tree -/

mutual

/-- The tokens of a tree. -/
def tokenList : Bracketing → List BracketToken
  | word w => [.word w]
  | node label parts => .open label :: (tokenLists parts ++ [.close])

/-- The tokens of some trees, side by side. -/
def tokenLists : List Bracketing → List BracketToken
  | [] => []
  | p :: ps => p.tokenList ++ tokenLists ps

end

theorem tokenLists_cons (p : Bracketing) (ps : List Bracketing) :
    tokenLists (p :: ps) = p.tokenList ++ tokenLists ps := rfl

/-- Behind a bracket without a label there is no dot, unless a word begins with it. -/
theorem head?_textParts_ne {ps : List Bracketing} (hlegible : AreLegible ps)
    (hplain : opensPlainly none ps = true) (rest : List Char) :
    ((textParts ps).toList ++ ']' :: rest).head? ≠ some '.' := by
  cases ps with
  | nil => simp [textParts]
  | cons p ps =>
    have htext : ∃ more, (textParts (p :: ps)).toList = p.text.toList ++ more := by
      cases ps with
      | nil => exact ⟨[], by simp [textParts]⟩
      | cons q ps => exact ⟨' ' :: (textParts (q :: ps)).toList, by simp [textParts]⟩
    obtain ⟨more, hmore⟩ := htext
    rw [hmore]
    cases p with
    | word w =>
      obtain ⟨c, cs, hcs⟩ := List.exists_cons_of_ne_nil hlegible.1.1
      simpa [opensPlainly, looksLikeLabel, text, hcs] using hplain
    | node label parts => cases label <;> simp [text, opening]; split <;> simp

theorem toList_opening_none (ps : List Bracketing) : (opening none ps).toList = ['['] := by
  simp [opening]

theorem toList_opening_some (l : String) (ps : List Bracketing) :
    (opening (some l) ps).toList =
      '[' :: '.' :: (l.toList ++ if ps.isEmpty then [] else [' ']) := by
  rw [opening]
  split <;> simp

/-- A bracket is read with its label. -/
theorem tokensIn_opening {label : Option String} {ps : List Bracketing} (hlabel : IsRunLabel label)
    (hlegible : AreLegible ps) (hplain : opensPlainly label ps = true) (rest : List Char) :
    tokensIn ((opening label ps).toList ++ ((textParts ps).toList ++ ']' :: rest)) =
      .open label :: tokensIn ((textParts ps).toList ++ ']' :: rest) := by
  cases label with
  | none =>
    have hhead := head?_textParts_ne hlegible hplain rest
    rw [toList_opening_none, List.singleton_append, tokensIn_open, splitLabel_of_head?_ne hhead]
  | some l =>
    rw [toList_opening_some, List.cons_append, List.cons_append, List.append_assoc, tokensIn_open]
    cases ps with
    | nil =>
      have hsplit := splitLabel_label (hlabel l rfl) (endsRun_close rest)
      exact congrArg (fun r => BracketToken.open r.1 :: tokensIn r.2) hsplit
    | cons p ps =>
      have hsplit := splitLabel_label (hlabel l rfl)
        (endsRun_space ((textParts (p :: ps)).toList ++ ']' :: rest))
      rw [List.isEmpty_cons, if_neg Bool.false_ne_true, List.singleton_append, hsplit,
        tokensIn_space]

mutual

/-- The text of a plain tree has the tokens of the tree. -/
theorem tokensIn_text (b : Bracketing) (hlegible : b.IsLegible) (hplain : b.isPlain = true)
    {rest : List Char} (hrest : EndsRun rest) :
    tokensIn (b.text.toList ++ rest) = b.tokenList ++ tokensIn rest := by
  cases b with
  | word w => exact tokensIn_word hlegible hrest
  | node label parts =>
    obtain ⟨hlabel, hparts⟩ := hlegible
    rw [isPlain, Bool.and_eq_true] at hplain
    have htext : (node label parts).text.toList ++ rest =
        (opening label parts).toList ++ ((textParts parts).toList ++ ']' :: rest) := by
      rw [text, String.toList_append, String.toList_append, List.append_assoc, List.append_assoc]
      rfl
    rw [htext, tokensIn_opening hlabel hparts hplain.1, tokensIn_textParts parts hparts hplain.2,
      tokenList]
    simp

theorem tokensIn_textParts (ps : List Bracketing) (hlegible : AreLegible ps)
    (hplain : arePlain ps = true) (rest : List Char) :
    tokensIn ((textParts ps).toList ++ ']' :: rest) = tokenLists ps ++ .close :: tokensIn rest := by
  match ps with
  | [] => exact tokensIn_close rest
  | [p] =>
    rw [arePlain, Bool.and_eq_true] at hplain
    rw [textParts, tokensIn_text p hlegible.1 hplain.1 (endsRun_close rest), tokensIn_close]
    simp [tokenLists]
  | p :: q :: ps =>
    rw [arePlain, Bool.and_eq_true] at hplain
    have htext : (textParts (p :: q :: ps)).toList ++ ']' :: rest =
        p.text.toList ++ ' ' :: ((textParts (q :: ps)).toList ++ ']' :: rest) := by
      simp [textParts]
    rw [htext, tokensIn_text p hlegible.1 hplain.1 (endsRun_space _), tokensIn_space,
      tokensIn_textParts (q :: ps) hlegible.2 hplain.2, tokenLists_cons p, List.append_assoc]

end

/-! ### Putting tokens together -/

mutual

/-- The tokens of a tree are put together to the tree: one more part of the open bracket. -/
theorem assemble_tokenList (b : Bracketing) (top : OpenBracket) (below : List OpenBracket)
    {ts : List (BracketToken × List Char)} {rest : List BracketToken}
    (h : ts.map (·.1) = b.tokenList ++ rest) :
    ∃ left, left.map (·.1) = rest ∧
      assemble top below ts = assemble (top.1, b :: top.2) below left := by
  cases b with
  | word w =>
    obtain ⟨⟨_, s⟩, left, rfl, rfl, hleft⟩ := List.map_eq_cons_iff.mp h
    exact ⟨left, hleft, rfl⟩
  | node label parts =>
    rw [tokenList, List.cons_append, List.append_assoc] at h
    obtain ⟨⟨_, s⟩, inner, rfl, rfl, hinner⟩ := List.map_eq_cons_iff.mp h
    obtain ⟨closing, hclosing, heq⟩ :=
      assemble_tokenLists parts (label, []) (top :: below) hinner
    obtain ⟨⟨_, s'⟩, left, rfl, rfl, hleft⟩ := List.map_eq_cons_iff.mp hclosing
    refine ⟨left, hleft, ?_⟩
    rw [assemble, heq, assemble, List.append_nil, List.reverse_reverse]

theorem assemble_tokenLists (ps : List Bracketing) (top : OpenBracket) (below : List OpenBracket)
    {ts : List (BracketToken × List Char)} {rest : List BracketToken}
    (h : ts.map (·.1) = tokenLists ps ++ rest) :
    ∃ left, left.map (·.1) = rest ∧
      assemble top below ts = assemble (top.1, ps.reverse ++ top.2) below left := by
  cases ps with
  | nil => exact ⟨ts, h, rfl⟩
  | cons p ps =>
    rw [tokenLists, List.append_assoc] at h
    obtain ⟨middle, hmiddle, hfirst⟩ := assemble_tokenList p top below h
    obtain ⟨left, hleft, hothers⟩ := assemble_tokenLists ps (top.1, p :: top.2) below hmiddle
    refine ⟨left, hleft, ?_⟩
    rw [hfirst, hothers, List.reverse_cons, List.append_assoc]
    rfl

end

/-! ### Reading back -/

/-- A legible and plain tree is read back from its text. -/
theorem parse_text {b : Bracketing} (hlegible : b.IsLegible) (hplain : b.isPlain = true) :
    parse b.text = .ok b := by
  have htokens := tokensIn_text b hlegible hplain endsRun_nil
  rw [List.append_nil, tokensIn_nil, tokensIn] at htokens
  rw [parse]
  cases b with
  | word w =>
    obtain ⟨⟨_, s⟩, left, hscan, rfl, hleft⟩ := List.map_eq_cons_iff.mp htokens
    obtain rfl : left = [] := by simpa using hleft
    rw [hscan]
    rfl
  | node label parts =>
    rw [tokenList, List.append_nil] at htokens
    obtain ⟨⟨_, s⟩, inner, hscan, rfl, hinner⟩ := List.map_eq_cons_iff.mp htokens
    obtain ⟨closing, hclosing, heq⟩ := assemble_tokenLists parts (label, []) [] hinner
    obtain ⟨⟨_, s'⟩, left, rfl, rfl, hleft⟩ := List.map_eq_cons_iff.mp hclosing
    obtain rfl : left = [] := by simpa using hleft
    rw [hscan]
    simp only [heq, assemble, List.append_nil, List.reverse_reverse]
    rfl

/-- What is read back from the text of a tree that was read. It is the tree itself exactly if the
tree is plain, and its text is the same in any case. -/
theorem parse_text_of_parse {text : String} {b : Bracketing} (h : parse text = .ok b) :
    parse b.text = .ok b.relabel ∧ (b.relabel = b ↔ b.isPlain = true) ∧
      b.relabel.text = b.text := by
  obtain ⟨hlegible, hplain⟩ := isLegible_relabel b (isLegible_of_parse h)
  refine ⟨?_, relabel_eq_self_iff b, text_relabel b⟩
  rw [← text_relabel b]
  exact parse_text hlegible hplain

/-- A word with a dot in front, right behind a bracket without a label, is lost to the label. -/
theorem parse_text_dottedWord :
    parse "[ .a b]" = .ok (node none [word ".a", word "b"]) ∧
      parse (node none [word ".a", word "b"]).text = .ok (node (some "a") [word "b"]) ∧
      (node none [word ".a", word "b"]).relabel ≠ node none [word ".a", word "b"] := by
  have h : parse "[ .a b]" = .ok (node none [word ".a", word "b"]) := by
    simp [parse, scanBrackets_cons, scanBrackets_nil, splitLabel, isWordPiece, Text.isBlank,
      assemble, bind, Except.bind]
  obtain ⟨hparse, hiff, -⟩ := parse_text_of_parse h
  exact ⟨h, hparse, fun heq => absurd (hiff.mp heq) (by decide)⟩

end Bracketing
end MinimalistGrammar
