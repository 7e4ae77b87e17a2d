import MinimalistGrammar.Bracketing.Reader

/-!
# What a bracketing that was read is made of

The words of a bracketing that was read from a text are runs of characters that are neither blank
nor brackets, and so are its labels; a label may be empty, but no word is.

## Main definitions

* `IsRun` — a text without blanks and brackets.
* `Bracketing.IsLegible` — all words and labels are runs, and no word is empty.

## Main results

* `Bracketing.isLegible_of_parse` — what is read is legible.
-/

namespace MinimalistGrammar

/-- A text without blanks and brackets. -/
def IsRun (s : String) : Prop := ∀ c ∈ s.toList, isWordPiece c = true

/-- A label, if there is one, is a run. -/
def IsRunLabel (label : Option String) : Prop := ∀ l, label = some l → IsRun l

/-- A word that may stand in a text. -/
def IsRunWord (w : String) : Prop := w.toList ≠ [] ∧ IsRun w

namespace Bracketing

mutual

/-- All words and labels are runs, and no word is empty. -/
def IsLegible : Bracketing → Prop
  | word w => IsRunWord w
  | node label parts => IsRunLabel label ∧ AreLegible parts

/-- All bracketings on a list are legible. -/
def AreLegible : List Bracketing → Prop
  | [] => True
  | p :: ps => p.IsLegible ∧ AreLegible ps

end

theorem areLegible_iff {ps : List Bracketing} : AreLegible ps ↔ ∀ p ∈ ps, p.IsLegible := by
  induction ps with
  | nil => simp [AreLegible]
  | cons p ps ih => simp [AreLegible, ih]

end Bracketing

/-! ### Tokens -/

/-- A token that may stand in a text. -/
def BracketToken.IsLegible : BracketToken → Prop
  | .open label => IsRunLabel label
  | .close => True
  | .word w => IsRunWord w

theorem isRun_takeWhile (s : List Char) : IsRun (String.ofList (s.takeWhile isWordPiece)) := by
  intro c hc
  rw [String.toList_ofList] at hc
  exact List.all_eq_true.mp List.all_takeWhile c hc

theorem isRunLabel_splitLabel (s : List Char) : IsRunLabel (splitLabel s).1 := by
  intro l hl
  unfold splitLabel at hl
  split at hl
  · next rest =>
    obtain rfl : String.ofList (rest.takeWhile isWordPiece) = l := by simpa using hl
    exact isRun_takeWhile rest
  · simp at hl

theorem isWordPiece_iff {c : Char} :
    isWordPiece c = true ↔ Text.isBlank c = false ∧ c ≠ '[' ∧ c ≠ ']' := by
  simp [isWordPiece, and_assoc]

/-- All tokens of a text are legible. -/
theorem isLegible_of_mem_scanBrackets {s : List Char} :
    ∀ t ∈ scanBrackets s, t.1.IsLegible := by
  fun_induction scanBrackets s with
  | case1 => simp
  | case2 c cs _ ih => exact ih
  | case3 c cs _ _ ih => exact List.forall_mem_cons.mpr ⟨isRunLabel_splitLabel cs, ih⟩
  | case4 c cs _ _ _ ih => exact List.forall_mem_cons.mpr ⟨trivial, ih⟩
  | case5 c cs hblank hopen hclose ih =>
    refine List.forall_mem_cons.mpr ⟨⟨by simp, ?_⟩, ih⟩
    have hc : isWordPiece c = true :=
      isWordPiece_iff.mpr ⟨by simpa using hblank, by simpa using hopen, by simpa using hclose⟩
    intro d hd
    rw [String.toList_ofList] at hd
    rcases List.mem_cons.mp hd with rfl | hd
    · exact hc
    · exact List.all_eq_true.mp List.all_takeWhile d hd

/-! ### Assembly -/

/-- An open bracket with a legible label and legible parts. -/
def IsLegibleBracket (top : OpenBracket) : Prop :=
  IsRunLabel top.1 ∧ ∀ p ∈ top.2, p.IsLegible

/-- Legible tokens are put together to a legible tree, whatever legible brackets are open. -/
theorem isLegible_of_assemble {top : OpenBracket} {below : List OpenBracket}
    {ts rest : List (BracketToken × List Char)} {tree : Bracketing} (htop : IsLegibleBracket top)
    (hbelow : ∀ o ∈ below, IsLegibleBracket o) (hts : ∀ t ∈ ts, t.1.IsLegible)
    (h : assemble top below ts = .ok (tree, rest)) : tree.IsLegible := by
  fun_induction assemble top below ts with
  | case1 => simp at h
  | case2 top below label _ ts ih =>
    obtain ⟨hlabel, hts⟩ := List.forall_mem_cons.mp hts
    exact ih ⟨hlabel, by simp⟩ (List.forall_mem_cons.mpr ⟨htop, hbelow⟩) hts h
  | case3 top below w _ ts ih =>
    obtain ⟨hword, hts⟩ := List.forall_mem_cons.mp hts
    exact ih ⟨htop.1, List.forall_mem_cons.mpr ⟨hword, htop.2⟩⟩ hbelow hts h
  | case4 top _ ts done =>
    obtain ⟨rfl, -⟩ : done = tree ∧ ts = rest := by simpa using h
    exact ⟨htop.1, Bracketing.areLegible_iff.mpr (by simpa using htop.2)⟩
  | case5 top _ ts done next others ih =>
    obtain ⟨hnext, hothers⟩ := List.forall_mem_cons.mp hbelow
    have hdone : done.IsLegible :=
      ⟨htop.1, Bracketing.areLegible_iff.mpr (by simpa using htop.2)⟩
    exact ih ⟨hnext.1, List.forall_mem_cons.mpr ⟨hdone, hnext.2⟩⟩ hothers
      (List.forall_mem_cons.mp hts).2 h

namespace Bracketing

/-- What is read is legible. -/
theorem isLegible_of_parse {text : String} {tree : Bracketing} (h : parse text = .ok tree) :
    tree.IsLegible := by
  have hscan := isLegible_of_mem_scanBrackets (s := text.toList)
  rw [parse] at h
  cases hs : scanBrackets text.toList with
  | nil => simp [hs, bind, Except.bind] at h
  | cons t rest =>
    rw [hs] at hscan
    obtain ⟨ht, hrest⟩ := List.forall_mem_cons.mp hscan
    obtain ⟨token, s⟩ := t
    cases token with
    | close => simp [hs, bind, Except.bind] at h
    | word w =>
      obtain rfl : word w = tree := by
        cases rest <;> simp_all [bind, Except.bind]
      exact ht
    | «open» label =>
      cases hassemble : assemble (label, []) [] rest with
      | error e => simp [hs, hassemble, bind, Except.bind] at h
      | ok result =>
        obtain ⟨done, left⟩ := result
        have htop : IsLegibleBracket (label, []) := ⟨ht, by simp⟩
        have hlegible := isLegible_of_assemble htop (by simp) hrest hassemble
        obtain rfl : done = tree := by
          cases left <;> simp_all [bind, Except.bind]
        exact hlegible

end Bracketing
end MinimalistGrammar
