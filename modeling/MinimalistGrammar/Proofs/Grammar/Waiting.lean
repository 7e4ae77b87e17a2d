import MinimalistGrammar.Proofs.Grammar.Movers

/-!
# Movers and the nodes that are filed

A mover of a derivation is known by its node. It becomes one when it is selected, and it stays one
as long as it has a licensee left. As long as every licensor finds what waits for it, nothing else
is ever filed but the root: a rebuilt tree files a node only under names of licensees that it has
left.

## Main definitions

* `Derivation.Awaits` — a mover waits at a node.

## Main results

* `Derivation.awaits_merge_cases`, `Derivation.awaits_move_cases` — where a mover comes from.
* `Derivation.filed_cases` — what is filed in a faithful derivation.
-/

namespace MinimalistGrammar

theorem mem_licenseeNames {features : List Feature} {z : String} :
    z ∈ licenseeNames features ↔ ∃ f ∈ features, f.sign = .licensee ∧ f.name = z := by
  simp [licenseeNames, and_assoc]

/-- A feature that is no licensee brings no name of a licensee. -/
theorem licenseeNames_cons_of_ne {f : Feature} {features : List Feature}
    (hsign : f.sign ≠ .licensee) : licenseeNames (f :: features) = licenseeNames features := by
  rw [licenseeNames, List.filter_cons_of_neg (by simpa using hsign), licenseeNames]

/-- Nothing is known of no features. -/
theorem IsKnownOf.eq_nil {known : List Feature} (h : IsKnownOf known []) : known = [] := by
  obtain ⟨rest, -, heq⟩ := h
  exact (List.append_eq_nil_iff.mp (List.map_eq_nil_iff.mp heq)).1

/-- What is known of some features is known of all but the first. -/
theorem IsKnownOf.tails {known features : List Feature} (h : IsKnownOf known features) :
    IsKnownOf known.tail features.tail := by
  cases features with
  | nil =>
    rw [h.eq_nil]
    exact .nil
  | cons f features => exact h.tail

/-- What finds its place leaves the movers that there were. -/
theorem Phrase.get?_movers_of_place? {side : Branch} {head : List String} {features : List Feature}
    {movers : Dict String Moved} {other m : Moved} {r : Phrase} {z : String}
    (h : place? side head features movers other = some r) (hm : movers.get? z = some m) :
    r.movers.get? z = some m := by
  rcases place?_eq_some_iff.mp h with ⟨-, rfl⟩ | ⟨g, rest, -, -, hnew, rfl⟩
  · exact hm
  · refine (Dict.get?_insert_of_ne ?_).trans hm
    rintro rfl
    exact absurd (hm.symm.trans hnew) (by simp)

/-- A mover still has to move under all names under which it had to but for that which is
attracted. -/
theorem Phrase.IsGrounded.mem_licenseeNames_tail {lex : Lexicon} {q : Phrase} {m : Moved}
    {x z : String} (h : q.IsGrounded lex) (hm : q.movers.get? x = some m)
    (hz : z ∈ licenseeNames m.features) (hne : z ≠ x) : z ∈ licenseeNames m.features.tail := by
  obtain ⟨-, g, rest, heq, hg⟩ := h.movers hm
  obtain ⟨g', hg', hlicensee, rfl⟩ := mem_licenseeNames.mp hz
  rw [heq] at hg' ⊢
  rcases List.mem_cons.mp hg' with rfl | hg'
  · exact absurd (show g'.plain.name = x from congrArg Feature.name hg) hne
  · exact mem_licenseeNames.mpr ⟨g', hg', hlicensee, rfl⟩

namespace Derivation

/-- A mover of the phrase of a derivation waits at a node. -/
def Awaits (lex : Lexicon) (d : Derivation) (p : Phrase) (n : Nat) (m : Moved) : Prop :=
  ∃ z, (d.waiting lex).get? z = some n ∧ p.movers.get? z = some m

variable {lex : Lexicon} {d part selector selected : Derivation} {p q r : Phrase} {z : String}
  {n node : Nat} {m m' : Moved} {f : Feature}

/-- A word has no movers. -/
theorem not_awaits_word {leaf : Nat} : ¬Awaits lex (.word leaf) p n m := by
  rintro ⟨z, hn, -⟩
  exact absurd hn (by simp [waiting])

/-- What waits under a name is a mover. -/
theorem exists_awaits (hp : d.phrase? lex = some p) (hn : (d.waiting lex).get? z = some n) :
    ∃ m, p.movers.get? z = some m ∧ Awaits lex d p n m := by
  have hz := contains_waiting hp z
  rw [Dict.contains, Dict.contains, hn] at hz
  obtain ⟨m, hm⟩ := Option.isSome_iff_exists.mp hz.symm
  exact ⟨m, hm, z, hn, hm⟩

/-- One mover waits at a node, and under one name. -/
theorem Awaits.eq (h : Awaits lex d p n m) (hp : d.phrase? lex = some p)
    (hn : (d.waiting lex).get? z = some n) : p.movers.get? z = some m := by
  obtain ⟨y, hy, hm⟩ := h
  rw [← waiting_injective hp hy hn]
  exact hm

/-- A mover is a node below the root. -/
theorem Awaits.lt (h : Awaits lex d p n m) (hp : d.phrase? lex = some p) : n + 1 < d.size := by
  obtain ⟨z, hn, -⟩ := h
  exact lt_of_waiting hp hn

section merge

variable (hr : (merge selector selected).phrase? lex = some r) (hp : selector.phrase? lex = some p)
  (hq : selected.phrase? lex = some q)

include hr hp hq

/-- The first features of the parts of a merge are no licensees. -/
theorem licenseeNames_tail_of_merge : licenseeNames p.features.tail = licenseeNames p.features ∧
    licenseeNames q.features.tail = licenseeNames q.features := by
  obtain ⟨p', hp', hbind⟩ := Option.bind_eq_some_iff.mp hr
  obtain ⟨q', hq', hmerge⟩ := Option.bind_eq_some_iff.mp hbind
  obtain rfl := Option.some.inj (hp.symm.trans hp')
  obtain rfl := Option.some.inj (hq.symm.trans hq')
  obtain ⟨f, features, g, rest, hpf, hqf, hg, hcases⟩ := Phrase.merge?_eq_some_iff.mp hmerge
  have hf : f.sign ≠ .licensee := by
    rcases hcases with ⟨h, -⟩ | ⟨h, -⟩ | ⟨h, -⟩ <;> rw [h] <;> decide
  have hg : g.sign ≠ .licensee := by
    rw [show g.sign = .categorial from congrArg Feature.sign hg]
    decide
  rw [hpf, hqf, licenseeNames_cons_of_ne hf, licenseeNames_cons_of_ne hg]
  exact ⟨rfl, rfl⟩

/-- A mover of a merge is what is selected, or a mover of one of the parts. -/
theorem awaits_merge_cases (h : Awaits lex (merge selector selected) r n m) :
    (n = selector.size + selected.size - 1 ∧ m = ⟨q.words, q.features.tail⟩) ∨
      Awaits lex selector p n m ∨ ∃ k, n = selector.size + k ∧ Awaits lex selected q k m := by
  obtain ⟨z, hn, hm⟩ := h
  rcases mover_merge_cases hr hp hq hn hm with hnew | ⟨hn, hm⟩ | ⟨k, hk, hm, rfl⟩
  · exact Or.inl hnew
  · exact Or.inr (Or.inl ⟨z, hn, hm⟩)
  · exact Or.inr (Or.inr ⟨k, rfl, z, hk, hm⟩)

omit hq in
/-- A mover of the selector waits still. -/
theorem Awaits.merge_of_selector (h : Awaits lex selector p n m) :
    Awaits lex (merge selector selected) r n m := by
  obtain ⟨z, hn, hm⟩ := h
  obtain ⟨p', q', f, features, g, rest, movers, hp', hq', -, -, -, hplace, hmovers⟩ :=
    exists_of_phrase?_merge hr
  obtain rfl := Option.some.inj (hp.symm.trans hp')
  refine ⟨z, waiting_merge_of_selector hr hn, Phrase.get?_movers_of_place? hplace ?_⟩
  rcases hmovers with ⟨hempty, rfl⟩ | ⟨-, rfl⟩
  · rw [hempty] at hm
    exact absurd hm (by simp)
  · exact hm

omit hp in
/-- A mover of what is selected waits still. -/
theorem Awaits.merge_of_selected (h : Awaits lex selected q n m) :
    Awaits lex (merge selector selected) r (selector.size + n) m := by
  obtain ⟨z, hn, hm⟩ := h
  obtain ⟨p', q', f, features, g, rest, movers, hp', hq', -, -, -, hplace, hmovers⟩ :=
    exists_of_phrase?_merge hr
  obtain rfl := Option.some.inj (hq.symm.trans hq')
  refine ⟨z, waiting_merge_of_selected hr hn, Phrase.get?_movers_of_place? hplace ?_⟩
  rcases hmovers with ⟨-, rfl⟩ | ⟨hempty, -⟩
  · exact hm
  · rw [hempty] at hm
    exact absurd hm (by simp)

omit hp in
/-- What is selected waits to move if it has features left. -/
theorem awaits_selected (hne : q.features.tail ≠ []) : Awaits lex (merge selector selected) r
    (selector.size + selected.size - 1) ⟨q.words, q.features.tail⟩ := by
  obtain ⟨p', q', f, features, g, rest, movers, hp', hq', -, hqf, -, hplace, -⟩ :=
    exists_of_phrase?_merge hr
  obtain rfl := Option.some.inj (hq.symm.trans hq')
  rw [hqf, List.tail_cons] at hne ⊢
  rcases Phrase.place?_eq_some_iff.mp hplace with ⟨hnil, -⟩ | ⟨g', rest', heq, -, -, rfl⟩
  · exact absurd hnil hne
  · simp only at heq
    refine ⟨g'.name, ?_, Dict.get?_insert_self⟩
    rw [waiting_merge hq, hqf, List.tail_cons, heq, fileNext_cons, Dict.get?_insert_self]

end merge

section move

variable (hr : (move part).phrase? lex = some r) (hq : part.phrase? lex = some q)
  (hx : part.attracted? lex = some (f.name, m)) (hnode : (part.waiting lex).get? f.name = some node)

include hr hq hx hnode

/-- A mover of a movement is what is attracted, with one licensee less, or another mover of the
part. -/
theorem awaits_move_cases (h : Awaits lex (move part) r n m') :
    (n = node ∧ m' = ⟨m.words, m.features.tail⟩) ∨ n ≠ node ∧ Awaits lex part q n m' := by
  obtain ⟨z, hn, hm'⟩ := h
  rcases mover_move_cases hr hx hnode hq hn hm' with hnew | ⟨hz, hn, hm'⟩
  · exact Or.inl hnew
  · exact Or.inr ⟨fun heq => hz (waiting_injective hq (heq ▸ hn) hnode), z, hn, hm'⟩

/-- All other movers wait still. -/
theorem Awaits.move (h : Awaits lex part q n m') (hne : n ≠ node) :
    Awaits lex (move part) r n m' := by
  obtain ⟨z, hn, hm'⟩ := h
  obtain ⟨q', f', features, m'', hq', -, -, -, hx', hplace⟩ := exists_of_phrase?_move hr
  obtain ⟨hf, rfl⟩ := Prod.mk.inj (Option.some.inj (hx.symm.trans hx'))
  obtain rfl := Option.some.inj (hq.symm.trans hq')
  have hz : z ≠ f.name := by
    rintro rfl
    exact hne (Option.some.inj (hn.symm.trans hnode))
  refine ⟨z, waiting_move_of_ne hr hx hnode hz hn, Phrase.get?_movers_of_place? hplace ?_⟩
  rw [← hf, Dict.get?_erase_of_ne hz, hm']

omit hq in
/-- What is attracted waits to move on if it has features left. -/
theorem awaits_attracted (hne : m.features.tail ≠ []) :
    Awaits lex (.move part) r node ⟨m.words, m.features.tail⟩ := by
  obtain ⟨q', f', features, m'', hq', -, -, -, hx', hplace⟩ := exists_of_phrase?_move hr
  obtain ⟨-, rfl⟩ := Prod.mk.inj (Option.some.inj (hx.symm.trans hx'))
  rcases Phrase.place?_eq_some_iff.mp hplace with ⟨hnil, -⟩ | ⟨g, rest, heq, -, -, rfl⟩
  · exact absurd hnil hne
  · simp only at heq
    refine ⟨g.name, ?_, Dict.get?_insert_self⟩
    rw [waiting_move hx hnode, heq, fileNext_cons, Dict.get?_insert_self]

end move

/-! ### What is filed -/

/-- A movement files its root, and otherwise what its part files under another name. -/
theorem filed_move_cases (hp : (move part).phrase? lex = some p)
    (hx : part.attracted? lex = some (f.name, m)) (hn : ((move part).filed lex).get? z = some n) :
    n = part.size ∧ z ∈ licenseeNames p.features ∨
      z ∉ licenseeNames p.features ∧ z ≠ f.name ∧ (part.filed lex).get? z = some n := by
  rw [filed, Dict.get?_insertAll, licensees_eq hp, hx, Option.elim_some] at hn
  split at hn
  · next hmem => exact Or.inl ⟨(Option.some.inj hn).symm, hmem⟩
  · next hmem => exact Or.inr ⟨hmem, Dict.get?_erase_eq_some_iff.mp hn⟩

/-- A merge files its root, and otherwise what its parts file. -/
theorem filed_merge_cases (hp : (merge selector selected).phrase? lex = some p)
    (hn : ((merge selector selected).filed lex).get? z = some n) :
    n = selector.size + selected.size ∧ z ∈ licenseeNames p.features ∨
      z ∉ licenseeNames p.features ∧ ((selector.filed lex).get? z = some n ∨
        ∃ k, (selected.filed lex).get? z = some k ∧ n = selector.size + k) := by
  rw [filed, Dict.get?_insertAll, licensees_eq hp] at hn
  split at hn
  · next hmem => exact Or.inl ⟨(Option.some.inj hn).symm, hmem⟩
  · next hmem =>
    rw [Dict.get?_unite, Dict.get?_map] at hn
    rcases Option.or_eq_some_iff.mp hn with hn | ⟨-, hn⟩
    · exact Or.inr ⟨hmem, Or.inl hn⟩
    · obtain ⟨k, hk, rfl⟩ := Option.map_eq_some_iff.mp hn
      exact Or.inr ⟨hmem, Or.inr ⟨k, hk, rfl⟩⟩

theorem ne_nil_of_mem_licenseeNames {features : List Feature} (h : z ∈ licenseeNames features) :
    features ≠ [] := by
  rintro rfl
  exact absurd h List.not_mem_nil

/-- What a node of a faithful derivation files: the root, or a mover, under the name of a licensee
that it has left. -/
theorem filed_cases (hlex : lex.WellFormed) (hp : d.phrase? lex = some p)
    (hd : d.isFaithful lex = true) (hn : (d.filed lex).get? z = some n) :
    (n = d.size - 1 ∧ z ∈ licenseeNames p.features) ∨
      ∃ m, Awaits lex d p n m ∧ z ∈ licenseeNames m.features := by
  induction d generalizing p n with
  | word leaf =>
    rw [filed, Dict.get?_insertAll, licensees_eq hp] at hn
    split at hn
    · next hmem => exact Or.inl ⟨(Option.some.inj hn).symm, hmem⟩
    · exact absurd hn (by simp)
  | move part ih =>
    obtain ⟨q, f, features, m, hq, hqf, hsign, hm, hx, hplace⟩ := exists_of_phrase?_move hp
    obtain ⟨node, hnode⟩ := exists_waiting hq hm
    obtain ⟨hpart, -⟩ := (isFaithful_move_iff hx).mp hd
    rcases filed_move_cases hp hx hn with hroot | ⟨hmem, hz, hn⟩
    · exact Or.inl hroot
    rcases ih hq hpart hn with ⟨-, hroot⟩ | ⟨m', hm', hz'⟩
    · -- the new node has hidden its part
      rw [hqf, licenseeNames_cons_of_ne (by rw [hsign]; decide),
        ← (Phrase.features_of_place? hplace).2] at hroot
      exact absurd hroot hmem
    by_cases hne : n = node
    · -- what is attracted is filed under its next licensee
      subst hne
      obtain rfl := Option.some.inj (hm.symm.trans (hm'.eq hq hnode))
      have htail := (isGrounded_of_phrase? hlex hq).mem_licenseeNames_tail hm hz' hz
      exact Or.inr ⟨_, awaits_attracted hp hx hnode (ne_nil_of_mem_licenseeNames htail), htail⟩
    · exact Or.inr ⟨m', hm'.move hp hq hx hnode hne, hz'⟩
  | merge selector selected ih₁ ih₂ =>
    obtain ⟨p₁, p₂, f, features, g, rest, movers, hp₁, hp₂, hpf₁, -, -, hplace, -⟩ :=
      exists_of_phrase?_merge hp
    obtain ⟨hselector, hselected⟩ := isFaithful_merge_iff.mp hd
    obtain ⟨htail₁, htail₂⟩ := licenseeNames_tail_of_merge hp hp₁ hp₂
    rcases filed_merge_cases hp hn with hroot | ⟨hmem, hn | ⟨k, hk, rfl⟩⟩
    · exact Or.inl hroot
    · rcases ih₁ hp₁ hselector hn with ⟨-, hroot⟩ | ⟨m, hm, hz⟩
      · -- the new node has hidden the selector
        rw [← htail₁, hpf₁, List.tail_cons, ← (Phrase.features_of_place? hplace).2] at hroot
        exact absurd hroot hmem
      · exact Or.inr ⟨m, hm.merge_of_selector hp hp₁, hz⟩
    · rcases ih₂ hp₂ hselected hk with ⟨rfl, hroot⟩ | ⟨m, hm, hz⟩
      · -- what is selected becomes a mover
        rw [← htail₂] at hroot
        rw [← Nat.add_sub_assoc selected.size_pos]
        exact Or.inr ⟨_, awaits_selected hp hp₂ (ne_nil_of_mem_licenseeNames hroot), hroot⟩
      · exact Or.inr ⟨m, hm.merge_of_selected hp hp₂, hz⟩

end Derivation
end MinimalistGrammar
