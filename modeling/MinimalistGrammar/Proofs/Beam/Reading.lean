import MinimalistGrammar.Proofs.Beam.Completion

/-!
# Reading a derivation off its records

The records of a complete parse are those of a derivation: every node has one, and those of words
name their leaves. Put together by their paths they are the tree of this derivation and no other.

## Main definitions

* `RecordTree.Encodes` — a tree of records is that of a derivation.
* `Describes` — some placed records are those of a derivation.

## Main results

* `RecordTree.exists_encodes_of_completes` — the tree of the records of a complete parse is that of
  the derivation that completes it.
-/

namespace MinimalistGrammar

/-! ### Placed records -/

section placed

variable {rs : List Placed} {way : List Branch} {r : NodeRecord} {side : Branch}

theorem mem_atNode : r ∈ atNode rs ↔ ([], r) ∈ rs := by
  simp [atNode, List.mem_filterMap]

theorem mem_belowOn : (way, r) ∈ belowOn side rs ↔ (side :: way, r) ∈ rs := by
  rw [belowOn, List.mem_filterMap]
  constructor
  · rintro ⟨⟨way', r'⟩, hmem, heq⟩
    cases way' with
    | nil => simp at heq
    | cons b rest =>
      simp only [Option.ite_none_right_eq_some, Option.some.injEq, Prod.mk.injEq] at heq
      obtain ⟨rfl, rfl, rfl⟩ := heq
      exact hmem
  · intro hmem
    exact ⟨_, hmem, by simp⟩

theorem belowOn_eq_nil_iff : belowOn side rs = [] ↔ ∀ way r, (side :: way, r) ∉ rs := by
  simp only [List.eq_nil_iff_forall_not_mem, Prod.forall, mem_belowOn]

end placed

/-- A record with a word is preferred to those without. -/
theorem preferred_of_label {rs : List NodeRecord} {r : NodeRecord} (hr : r ∈ rs)
    (hlabel : r.label.isSome) : ∃ r' ∈ rs, preferred rs = some r' ∧ r'.label.isSome := by
  rw [preferred]
  cases hfind : rs.reverse.find? (·.label.isSome) with
  | none => exact absurd hlabel (List.find?_eq_none.mp hfind r (List.mem_reverse.mpr hr))
  | some r' =>
    exact ⟨r', List.mem_reverse.mp (List.mem_of_find?_eq_some hfind), rfl,
      List.find?_some (p := fun r : NodeRecord => r.label.isSome) hfind⟩

theorem exists_preferred {rs : List NodeRecord} {r : NodeRecord} (hr : r ∈ rs) :
    ∃ r' ∈ rs, preferred rs = some r' := by
  rw [preferred]
  cases hfind : rs.reverse.find? (·.label.isSome) with
  | none =>
    cases hlast : rs.getLast? with
    | none => exact absurd hr (by simp [List.getLast?_eq_none_iff.mp hlast])
    | some r' => exact ⟨r', List.mem_of_getLast? hlast, rfl⟩
  | some r' => exact ⟨r', List.mem_reverse.mp (List.mem_of_find?_eq_some hfind), rfl⟩

namespace RecordTree

theorem ofPlaced_nil : ofPlaced [] = none := by
  rw [ofPlaced]
  rfl

theorem ofPlaced_eq {rs : List Placed} {r : NodeRecord} (h : preferred (atNode rs) = some r) :
    ofPlaced rs = some
      (match ofPlaced (belowOn .left rs), ofPlaced (belowOn .right rs) with
      | none, none => leaf r
      | some part, none => unary r .left part
      | none, some part => unary r .right part
      | some left, some right => binary r left right) := by
  rw [ofPlaced]
  split
  · next hnone => exact absurd (hnone.symm.trans h) (by simp)
  · next r' hr' =>
    obtain rfl := Option.some.inj (hr'.symm.trans h)
    rfl

end RecordTree

/-! ### Records of a derivation -/

/-- The tree is that of a derivation: its leaves name the words, and no other node is a lexical
head. -/
inductive RecordTree.Encodes (lex : Lexicon) : RecordTree → Derivation → Prop
  | word {r : NodeRecord} {leaf : Nat} (hnames : r.Names lex leaf) :
      Encodes lex (.leaf r) (.word leaf)
  | move {r : NodeRecord} {tree : RecordTree} {part : Derivation} (hinner : r.isLexical = false)
      (hpart : Encodes lex tree part) : Encodes lex (.unary r .left tree) (.move part)
  | merge {r : NodeRecord} {left right : RecordTree} {selector selected : Derivation}
      (hinner : r.isLexical = false) (hselector : Encodes lex left selector)
      (hselected : Encodes lex right selected) :
      Encodes lex (.binary r left right) (.merge selector selected)

/-- The tree of a derivation stands for this derivation. -/
theorem RecordTree.Encodes.derivation?_eq {lex : Lexicon} {tree : RecordTree} {d : Derivation}
    (h : tree.Encodes lex d) : tree.derivation? lex = some d := by
  induction h with
  | @word r leaf hnames =>
    obtain ⟨w, hw, -⟩ := hnames.label
    rw [derivation?, hnames.lexKey, Lexicon.byKey?_key (Lexicon.lt_size_of_word? hw)]
    simp [Lexicon.isLeaf, hw]
  | move hinner hpart ih => rw [derivation?, ih, Option.map_some]
  | merge hinner hselector hselected ih₁ ih₂ =>
    rw [derivation?, ih₁, ih₂, Option.bind_some, Option.map_some]

/-- The records are those of the nodes of a derivation. -/
structure Describes (lex : Lexicon) (rs : List Placed) (d : Derivation) : Prop where
  recorded {way : List Branch} {r : NodeRecord} : (way, r) ∈ rs → ∃ d', d.at? way = some d' ∧
    (r.isLexical = true → d'.IsWord) ∧
    (r.label.isSome → ∃ leaf, d' = .word leaf ∧ r.Names lex leaf)
  covered {way : List Branch} {d' : Derivation} : d.at? way = some d' →
    ∃ r, (way, r) ∈ rs ∧ (d'.IsWord → r.label.isSome)

namespace Describes

variable {lex : Lexicon} {rs : List Placed} {d part : Derivation} {side : Branch}

/-- The records below a node are those of the part there. -/
theorem belowOn (side : Branch) (h : Describes lex rs d)
    (hpart : ∀ way, d.at? (side :: way) = part.at? way) : Describes lex (belowOn side rs) part where
  recorded {way r} hr := by
    obtain ⟨d', hd', hrecord⟩ := h.recorded (mem_belowOn.mp hr)
    exact ⟨d', (hpart way).symm.trans hd', hrecord⟩
  covered {way d'} hway := by
    obtain ⟨r, hr, hlabel⟩ := h.covered ((hpart way).trans hway)
    exact ⟨r, mem_belowOn.mpr hr, hlabel⟩

/-- There are no records where the derivation has no part. -/
theorem belowOn_eq_nil (h : Describes lex rs d) (hpart : ∀ way, d.at? (side :: way) = none) :
    MinimalistGrammar.belowOn side rs = [] := by
  refine belowOn_eq_nil_iff.mpr fun way r hr => ?_
  obtain ⟨d', hd', -⟩ := h.recorded hr
  exact absurd ((hpart way).symm.trans hd') (by simp)

/-- There is a record of the node itself, and that of an inner node is no lexical head. -/
theorem exists_preferred (h : Describes lex rs d) (hd : ¬d.IsWord) :
    ∃ r, preferred (atNode rs) = some r ∧ r.isLexical = false := by
  obtain ⟨r, hr, -⟩ := h.covered (Derivation.at?_nil d)
  obtain ⟨r', hr', hpreferred⟩ := MinimalistGrammar.exists_preferred (mem_atNode.mpr hr)
  obtain ⟨d', hd', hlexical, -⟩ := h.recorded (mem_atNode.mp hr')
  obtain rfl : d = d' := by simpa using hd'
  exact ⟨r', hpreferred, Bool.eq_false_iff.mpr fun hl => hd (hlexical hl)⟩

/-- The tree of the records of a derivation is that of the derivation. -/
theorem exists_ofPlaced (h : Describes lex rs d) :
    ∃ tree, RecordTree.ofPlaced rs = some tree ∧ tree.Encodes lex d := by
  induction d generalizing rs with
  | word leaf =>
    obtain ⟨r, hr, hlabel⟩ := h.covered (Derivation.at?_nil _)
    obtain ⟨r', hr', hpreferred, hlabel'⟩ :=
      preferred_of_label (mem_atNode.mpr hr) (hlabel ⟨leaf, rfl⟩)
    -- the record with the word names the leaf
    obtain ⟨d', hd', -, hword⟩ := h.recorded (mem_atNode.mp hr')
    obtain ⟨leaf', rfl, hnames⟩ := hword hlabel'
    obtain rfl : leaf = leaf' := by simpa using hd'
    refine ⟨.leaf r', ?_, .word hnames⟩
    rw [RecordTree.ofPlaced_eq hpreferred, h.belowOn_eq_nil (fun _ => rfl),
      h.belowOn_eq_nil (fun _ => rfl), RecordTree.ofPlaced_nil]
  | move part ih =>
    obtain ⟨r, hpreferred, hinner⟩ := h.exists_preferred (by rintro ⟨_, ⟨⟩⟩)
    obtain ⟨tree, htree, hpart⟩ := ih (h.belowOn .left fun _ => rfl)
    refine ⟨.unary r .left tree, ?_, .move hinner hpart⟩
    rw [RecordTree.ofPlaced_eq hpreferred, htree, h.belowOn_eq_nil (fun _ => rfl),
      RecordTree.ofPlaced_nil]
  | merge selector selected ih₁ ih₂ =>
    obtain ⟨r, hpreferred, hinner⟩ := h.exists_preferred (by rintro ⟨_, ⟨⟩⟩)
    obtain ⟨left, hleft, hselector⟩ := ih₁ (h.belowOn .left fun _ => rfl)
    obtain ⟨right, hright, hselected⟩ := ih₂ (h.belowOn .right fun _ => rfl)
    refine ⟨.binary r left right, ?_, .merge hinner hselector hselected⟩
    rw [RecordTree.ofPlaced_eq hpreferred, hleft, hright]

end Describes

section complete

variable {lex : Lexicon} {records : List NodeRecord} {input : List String} {d : Derivation}

/-- The records of a complete parse are those of the derivation that completes it. -/
theorem Completes.describes (hcoherent : IsCoherent lex records [])
    (h : Completes lex records [] input d) :
    Describes lex (records.map fun r => (r.path.branches, r)) d where
  recorded hr := by
    obtain ⟨r', hr', heq⟩ := List.mem_map.mp hr
    obtain ⟨rfl, rfl⟩ := Prod.mk.inj heq
    obtain ⟨d', hd', hlexical, hword⟩ := h.recorded hr'
    refine ⟨d', hd', hlexical, fun hlabel => ?_⟩
    obtain ⟨leaf, rfl, hkey⟩ := hword hlabel
    obtain ⟨leaf', hnames⟩ := hcoherent.named hr' hlabel
    obtain rfl := Lexicon.key_injective (hkey.symm.trans hnames.lexKey)
    exact ⟨leaf, rfl, hnames⟩
  covered hway := by
    rcases h.covered hway with ⟨r, hr, rfl, hlabel⟩ | ⟨c, hc, -⟩
    · exact ⟨r, List.mem_map_of_mem hr, hlabel⟩
    · exact absurd hc (by simp)

/-- The tree of the records of a complete parse is that of the derivation that completes it. -/
theorem RecordTree.exists_encodes_of_completes (hcoherent : IsCoherent lex records [])
    (h : Completes lex records [] input d) :
    ∃ tree, RecordTree.ofRecords records = some tree ∧ tree.Encodes lex d :=
  (h.describes hcoherent).exists_ofPlaced

end complete
end MinimalistGrammar
