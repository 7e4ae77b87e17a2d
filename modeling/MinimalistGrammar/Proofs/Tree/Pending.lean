import MinimalistGrammar.Proofs.Grammar.Waiting
import MinimalistGrammar.Proofs.Tree.Careful

/-!
# What is left to move

A rebuilt tree files its nodes under names of licensees, and it may file them wrongly. But it never
files anything under a name under which neither the phrase itself nor one of its movers still has to
move. So when the derivation is at its end, nothing is filed.

## Main definitions

* `Phrase.Owes` — a phrase or one of its movers still has to move under a name.

## Main results

* `RecordTree.Encodes.isKnownOf` — what is recorded of a phrase is known of it.
* `Store.owes_of_pending` — what is filed is owed.
-/

namespace MinimalistGrammar

variable {lex : Lexicon} {d selector selected part : Derivation} {p q r : Phrase}
  {tree : RecordTree} {f : Feature} {features known : List Feature} {z : String}

/-! ### What a phrase owes -/

/-- A phrase still has to move under a name, or one of its movers has to. -/
def Phrase.Owes (p : Phrase) (z : String) : Prop :=
  z ∈ licenseeNames p.features ∨ ∃ y m, p.movers.get? y = some m ∧ z ∈ licenseeNames m.features

/-- What finds its place brings on what it owes. -/
theorem Phrase.owes_of_place? {side : Branch} {head words : List String}
    {features rest : List Feature} {movers : Dict String Moved}
    (h : Phrase.place? side head features movers ⟨words, rest⟩ = some r)
    (hz : z ∈ licenseeNames features ∨ z ∈ licenseeNames rest ∨
      ∃ y m, movers.get? y = some m ∧ z ∈ licenseeNames m.features) : r.Owes z := by
  rcases Phrase.place?_eq_some_iff.mp h with ⟨hnil, rfl⟩ | ⟨g, rest', heq, -, hnew, rfl⟩
  · rcases hz with hz | hz | hz
    · exact Or.inl hz
    · simp only at hnil
      rw [hnil] at hz
      exact absurd hz List.not_mem_nil
    · exact Or.inr hz
  · rcases hz with hz | hz | ⟨y, m, hm, hz⟩
    · exact Or.inl hz
    · exact Or.inr ⟨g.name, _, Dict.get?_insert_self, hz⟩
    · refine Or.inr ⟨y, m, ?_, hz⟩
      rw [Dict.get?_insert_of_ne, hm]
      rintro rfl
      exact absurd (hm.symm.trans hnew) (by simp)

/-- A merge owes what its parts owe. -/
theorem Derivation.owes_merge (hr : (merge selector selected).phrase? lex = some r)
    (hp : selector.phrase? lex = some p) (hq : selected.phrase? lex = some q)
    (hz : p.Owes z ∨ q.Owes z) : r.Owes z := by
  obtain ⟨p', q', f, features, g, rest, movers, hp', hq', hpf, hqf, -, hplace, hmovers⟩ :=
    exists_of_phrase?_merge hr
  obtain rfl := Option.some.inj (hp.symm.trans hp')
  obtain rfl := Option.some.inj (hq.symm.trans hq')
  obtain ⟨htail₁, htail₂⟩ := licenseeNames_tail_of_merge hr hp hq
  refine Phrase.owes_of_place? hplace ?_
  rcases hz with (hz | ⟨y, m, hm, hz⟩) | (hz | ⟨y, m, hm, hz⟩)
  · rw [← htail₁, hpf] at hz
    exact Or.inl hz
  · rcases hmovers with ⟨hempty, -⟩ | ⟨-, rfl⟩
    · rw [hempty] at hm
      exact absurd hm (by simp)
    · exact Or.inr (Or.inr ⟨y, m, hm, hz⟩)
  · rw [← htail₂, hqf] at hz
    exact Or.inr (Or.inl hz)
  · rcases hmovers with ⟨-, rfl⟩ | ⟨hempty, -⟩
    · exact Or.inr (Or.inr ⟨y, m, hm, hz⟩)
    · rw [hempty] at hm
      exact absurd hm (by simp)

/-- A movement owes what its part owes under other names than that which is attracted. -/
theorem Derivation.owes_move (hlex : lex.WellFormed) (hr : (move part).phrase? lex = some r)
    (hq : part.phrase? lex = some q) (hqf : q.features.head? = some f) (hz : q.Owes z)
    (hne : z ≠ f.name) : r.Owes z := by
  obtain ⟨q', f', features, m, hq', hqf', hsign, hm, -, hplace⟩ := exists_of_phrase?_move hr
  obtain rfl := Option.some.inj (hq.symm.trans hq')
  rw [hqf', List.head?_cons, Option.some.injEq] at hqf
  subst hqf
  refine Phrase.owes_of_place? hplace ?_
  rcases hz with hz | ⟨y, m', hm', hz⟩
  · rw [hqf', licenseeNames_cons_of_ne (by rw [hsign]; decide)] at hz
    exact Or.inl hz
  · by_cases hy : y = f'.name
    · -- what is attracted loses the licensee for which it has moved
      subst hy
      obtain rfl := Option.some.inj (hm.symm.trans hm')
      exact Or.inr (Or.inl ((isGrounded_of_phrase? hlex hq).mem_licenseeNames_tail hm hz hne))
    · exact Or.inr (Or.inr ⟨y, m', by rw [Dict.get?_erase_of_ne hy, hm'], hz⟩)

/-! ### Records of phrases -/

/-- What is recorded of a phrase is known of it. -/
theorem RecordTree.Encodes.isKnownOf (h : tree.Encodes lex d) (htree : tree.Projects)
    (hp : d.phrase? lex = some p) : IsKnownOf tree.record.features p.features := by
  induction h generalizing p with
  | word hnames =>
    obtain ⟨w, -, rfl⟩ := Option.map_eq_some_iff.mp hp
    exact hnames.features
  | move _ _ ih =>
    obtain ⟨q, f, features, m, hq, hqf, -, -, -, hplace⟩ := Derivation.exists_of_phrase?_move hp
    cases htree with
    | unary hpart hfeatures =>
      have hknown := ih hpart hq
      rw [hfeatures, hqf] at hknown
      rw [(Phrase.features_of_place? hplace).2]
      exact hknown.tail
  | merge _ _ _ ih =>
    obtain ⟨p₁, p₂, f, features, g, rest, movers, hp₁, -, hpf, -, -, hplace, -⟩ :=
      Derivation.exists_of_phrase?_merge hp
    cases htree with
    | binary hleft _ hfeatures =>
      have hknown := ih hleft hp₁
      rw [hfeatures, hpf] at hknown
      rw [(Phrase.features_of_place? hplace).2]
      exact hknown.tail

/-- The first feature that is recorded of a phrase has the name and the sign of its active one,
unless this is its category. -/
theorem RecordTree.Encodes.first_eq {f' : Feature} {rest : List Feature} (h : tree.Encodes lex d)
    (htree : tree.Projects) (hp : d.phrase? lex = some p) (hpf : p.features = f :: features)
    (hsign : f.sign ≠ .categorial) (hfeatures : tree.record.features = f' :: rest) :
    f'.name = f.name ∧ f'.sign = f.sign := by
  have hknown := h.isKnownOf htree hp
  rw [hfeatures, hpf] at hknown
  obtain ⟨f'', known, heq, hplain⟩ := hknown.exists_cons hsign
  obtain ⟨rfl, -⟩ := List.cons.inj heq
  exact ⟨show f'.plain.name = f.plain.name from congrArg Feature.name hplain,
    show f'.plain.sign = f.plain.sign from congrArg Feature.sign hplain⟩

namespace Store

variable {s : Store} {id : ConstituentId} {o : Outline} {pending : PendingMovers}

/-- The names of the pending licensees of a node are those of features that are left. -/
theorem Bears.mem_licenseeNames (ho : s.outline? id = some o) (h : s.Bears o.features features)
    (hz : z ∈ (s.pendingLicensees id).map Prod.fst) : z ∈ licenseeNames features := by
  obtain ⟨⟨z', fid⟩, hmem, rfl⟩ := List.mem_map.mp hz
  obtain ⟨o', ho', hfid⟩ := s.mem_pendingLicensees id fid hmem
  obtain rfl := Option.some.inj (ho.symm.trans ho')
  obtain ⟨-, f, hf, hsign, hname⟩ := of_mem_pendingLicensees hmem
  refine MinimalistGrammar.mem_licenseeNames.mpr ⟨f, ?_, hsign, hname⟩
  have hvalue : some f ∈ features.map some := by
    rw [← h.values, ← hf]
    exact List.mem_map_of_mem hfid
  simpa using hvalue

/-- A licensor attracts what is filed under its name. -/
theorem Bears.attracted?_eq (ho : s.outline? id = some o) (h : s.Bears o.features (f :: features))
    (hsign : f.sign = .licensor) :
    s.attracted? id pending = (pending.get? f.name).map fun mover => (f.name, mover) := by
  obtain ⟨fid, rest, hfeatures, hfid, -⟩ := List.map_eq_cons_iff.mp h.values
  obtain ⟨occurrence, hstored, rfl⟩ := Option.map_eq_some_iff.mp hfid
  have hactive : s.activeFeature? id = some occurrence := by
    rw [activeFeature?, active?_eq, ho, Option.bind_some, hfeatures, List.head?_cons,
      Option.bind_some, hstored]
  rw [attracted?, hactive]
  simp only [Option.bind_eq_bind, Option.bind_some, hsign, if_true]
  cases pending.get? occurrence.feature.name <;> rfl

/-- A finished node is filed under its own licensees, and other nodes were filed before. -/
theorem pending_finishNode_cases {path : Address}
    (hz : (s.finishNode path id pending).2.get? z ≠ none) :
    z ∈ ((s.finishNode path id pending).1.pendingLicensees id).map Prod.fst ∨
      pending.get? z ≠ none := by
  have hsame : (s.finishNode path id pending).1.pendingLicensees id = s.pendingLicensees id := by
    rw [pendingLicensees_eq, featuresAt, outline?_finishNode, s.pendingLicensees_eq]
    rfl
  rw [hsame]
  rw [finishNode, Dict.get?_insertAll] at hz
  split at hz
  · next hmem => exact Or.inl hmem
  · exact Or.inr hz

/-- Nothing is filed under the name of a licensor once it has attracted what was. -/
theorem pending_buildUnary_cases {r : NodeRecord} (ho : s.outline? id = some o)
    (h : s.Bears o.features (f :: features)) (hsign : f.sign = .licensor)
    (hz : (s.buildUnary r id pending).2.get? z ≠ none) : pending.get? z ≠ none ∧ z ≠ f.name := by
  rw [buildUnary, h.attracted?_eq ho hsign] at hz
  cases hmover : pending.get? f.name with
  | none =>
    rw [hmover] at hz
    exact ⟨hz, fun heq => hz (heq ▸ hmover)⟩
  | some mover =>
    rw [hmover] at hz
    have hne : z ≠ f.name := by
      rintro rfl
      exact hz Dict.get?_erase_self
    exact ⟨fun hnone => hz ((Dict.get?_erase_of_ne hne).trans hnone), hne⟩

/-- A node is filed only under names under which its phrase still has to move. -/
theorem Bears.owes_of_mem (ho : s.outline? id = some o) (h : s.Bears o.features features)
    (hknown : IsKnownOf features p.features)
    (hz : z ∈ (s.pendingLicensees id).map Prod.fst) : p.Owes z := by
  have hname := h.mem_licenseeNames ho hz
  rw [hknown.licenseeNames_eq] at hname
  exact Or.inl hname

/-- Whatever is filed under a name by the rebuilt tree of a derivation is owed by the phrase. -/
theorem owes_of_pending (hlex : lex.WellFormed) (h : tree.Encodes lex d) (htree : tree.Projects)
    (hp : d.phrase? lex = some p) (hs : s.IsNumbered) (path : Address)
    (hz : (s.build path tree).2.pending.get? z ≠ none) : p.Owes z := by
  -- what is filed at the root is owed in any case
  have hroot : z ∈ ((s.build path tree).1.pendingLicensees (s.build path tree).2.id).map Prod.fst →
      p.Owes z := by
    obtain ⟨-, -, o, ho, hbears⟩ := build?_eq hs htree path
    exact hbears.owes_of_mem ho (h.isKnownOf htree hp)
  induction h generalizing p s path with
  | @word r leaf hnames =>
    rcases pending_finishNode_cases hz with hmem | hz
    · exact hroot hmem
    · exact absurd (Dict.get?_empty z) hz
  | @move r tree part hinner hpart ih =>
    obtain ⟨q, f, features, m, hq, hqf, hsign, -⟩ := Derivation.exists_of_phrase?_move hp
    cases htree with
    | @unary _ _ _ f' htree hfeatures =>
      rcases pending_finishNode_cases hz with hmem | hz
      · exact hroot hmem
      · obtain ⟨-, -, o, ho, hbears⟩ := build?_eq hs htree (path.child .left)
        have howes (hz : (s.build (path.child .left) tree).2.pending.get? z ≠ none) : q.Owes z :=
          ih htree hq hs _ hz (hbears.owes_of_mem ho (hpart.isKnownOf htree hq))
        obtain ⟨hname, hsign'⟩ := hpart.first_eq htree hq hqf (by rw [hsign]; decide) hfeatures
        rw [hfeatures] at hbears
        obtain ⟨hz, hne⟩ := pending_buildUnary_cases ho hbears (hsign'.trans hsign) hz
        exact Derivation.owes_move hlex hp hq (by rw [hqf, List.head?_cons]) (howes hz)
          (hname ▸ hne)
  | @merge r left right selector selected hinner hselector hselected ih₁ ih₂ =>
    obtain ⟨p₁, p₂, f, features, g, rest, movers, hp₁, hp₂, -⟩ :=
      Derivation.exists_of_phrase?_merge hp
    cases htree with
    | binary hleft hright _ _ =>
      rcases pending_finishNode_cases hz with hmem | hz
      · exact hroot hmem
      · have hs₁ := (standsAlone_build hs path.left left).separate.toIsNumbered
        obtain ⟨-, -, o₁, ho₁, hbears₁⟩ := build?_eq hs hleft path.left
        obtain ⟨-, -, o₂, ho₂, hbears₂⟩ := build?_eq hs₁ hright path.right
        refine Derivation.owes_merge hp hp₁ hp₂ ?_
        rw [Dict.get?_unite] at hz
        by_cases hnone : (s.build path.left left).2.pending.get? z = none
        · rw [hnone, Option.none_or] at hz
          exact Or.inr
            (ih₂ hright hp₂ hs₁ _ hz (hbears₂.owes_of_mem ho₂ (hselected.isKnownOf hright hp₂)))
        · exact Or.inl
            (ih₁ hleft hp₁ hs _ hnone (hbears₁.owes_of_mem ho₁ (hselector.isKnownOf hleft hp₁)))

end Store
end MinimalistGrammar
