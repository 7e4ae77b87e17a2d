import MinimalistGrammar.Proofs.Grammar.Prediction

/-!
# The rules of the parser

The rules of the parser are those of the grammar read backwards. A derivation fits a prediction if
and only if it begins with one of the expansions of the prediction and its parts fit the parts of
that expansion, and there is only one such expansion.

## Main definitions

* `Category.Fits` — a derivation derives a phrase that a category predicts.
* `Category.Expands` — the expansions of a category, by the rule of the grammar that they undo.
* `Expansion.Matches` — a derivation begins with an expansion, and its parts fit.

## Main results

* `Category.Expands.fits_of_matches` — what matches an expansion fits the prediction.
* `Category.exists_matches` — what fits a prediction matches one of its expansions.
* `Category.pairwise_expansions` — it matches no other one.
-/

namespace MinimalistGrammar

namespace Category

/-! ### Targets -/

section targets

variable {lex : Lexicon} {c : Category} {target : Nat}

theorem isLeaf_of_feature? {f : Feature} (hf : lex.feature? target = some f) :
    lex.isLeaf target = false := by
  rw [Lexicon.isLeaf, Lexicon.word?]
  rw [Lexicon.feature?] at hf
  cases hn : lex.node? target with
  | none => rfl
  | some n =>
    obtain ⟨content, _, _⟩ := n
    cases content with
    | feature g => rfl
    | word w => simp [hn, LexicalNode.feature?] at hf

theorem exists_word?_of_feature?_eq_none {p : Nat} (hp : lex.parent? target = some p)
    (hf : lex.feature? target = none) : ∃ w, lex.word? target = some w := by
  rw [Lexicon.word?]
  rw [Lexicon.feature?] at hf
  rw [Lexicon.parent?] at hp
  cases hn : lex.node? target with
  | none => simp [hn] at hp
  | some n =>
    obtain ⟨content, _, _⟩ := n
    cases content with
    | feature g => simp [hn, LexicalNode.feature?] at hf
    | word w => exact ⟨w, rfl⟩

theorem admits_iff : c.admits lex target = true ↔ c.frontier.Admits (lex.isLeaf target) := by
  rw [admits]
  cases c.frontier <;> simp [Frontier.Admits]

theorem mem_targets_iff (hlex : lex.WellFormed) :
    target ∈ c.targets lex ↔
      lex.parent? target = some c.node ∧ c.frontier.Admits (lex.isLeaf target) := by
  rw [targets, List.mem_filter, hlex.mem_parts, admits_iff]

end targets

/-! ### Parts -/

section parts

variable (c : Category) (target : Nat) (frontier : Frontier) (index : Address) (f : Feature)
  (movers : Dict String Mover) (moving : Dict String (List Feature)) (checked : List Feature)

/-- The active feature is the first one that is known of the part that projects. -/
@[simp] theorem features_projecting :
    (c.projecting target frontier index f movers moving).features = f :: c.features := by
  simp [features, projecting]

@[simp] theorem features_selected :
    (c.selected target index checked movers moving).features = checked.reverse := rfl

end parts

/-! ### What an expansion undoes -/

/-- The derivation derives a phrase that the category predicts. -/
def Fits (lex : Lexicon) (c : Category) (d : Derivation) : Prop :=
  ∃ p, d.phrase? lex = some p ∧ c.Predicts lex p

/-- What is pronounced of the phrase that a derivation derives, at the places of a category. -/
def piecesOf (lex : Lexicon) (c : Category) (d : Derivation) : List Piece :=
  (d.phrase? lex).elim [] c.pieces

/-- The three ways to take a phrase with the active node `s`, by the sign of the feature for which
it is taken: its side, the frontier of the head, and how the movers are divided between the two. -/
inductive Takes (lex : Lexicon) (s : Nat) (others : Dict String Mover) :
    Sign → Branch → Frontier → Dict String Mover → Dict String Mover → Prop
  | complement : Takes lex s others .selector .right .leaves ∅ others
  | specifier : Takes lex s others .selector .left .branches others ∅
  | adjunct (hroot : lex.parent? s = none) : Takes lex s others .adjunct .right .leaves ∅ others

/-- The expansions of a category with a lexicon node `target`. -/
inductive Expands (lex : Lexicon) (c : Category) (input : List String) (target : Nat) :
    Expansion → Prop
  | scan {w : String} (hparent : lex.parent? target = some c.node)
      (hadmits : c.frontier.Admits true) (hword : lex.word? target = some w)
      (hmovers : c.movers = ∅) (hinput : tokens w <+: input) :
      Expands lex c input target (.scan target c (tokens w))
  | move {rule : Rule} {s : Nat} {f g f' : Feature} {iHead iOther : Address}
      {others : Dict String Mover} {moving : Dict String (List Feature)}
      (hparent : lex.parent? target = some c.node) (hadmits : c.frontier.Admits false)
      (hf : lex.feature? target = some f) (hsign : f.sign = .licensor)
      (hs : lex.feature? s = some g) (hplain : g.plain = .licensee f.name)
      (hlands : c.Lands lex .left s iHead iOther others) (hnew : others.get? f.name = none)
      (hf' : f'.plain = f.plain)
      (hmoving : MoversAgree lex (others.insert f.name ⟨s, iOther⟩) moving) :
      Expands lex c input target (.predict rule
        [c.projecting target .all iHead f' (others.insert f.name ⟨s, iOther⟩) moving])
  | merge {rule : Rule} {s : Nat} {f g f' : Feature} {sign : Sign} {side : Branch}
      {frontier : Frontier} {iHead iOther : Address} {others mHead mOther : Dict String Mover}
      {movingHead movingOther : Dict String (List Feature)} {checked : List Feature}
      (hparent : lex.parent? target = some c.node)
      (hadmits : c.frontier.Admits false) (hf : lex.feature? target = some f)
      (hsign : f.sign = sign) (hs : lex.feature? s = some g)
      (hplain : g.plain = .categorial f.name)
      (htakes : Takes lex s others sign side frontier mHead mOther)
      (hlands : c.Lands lex side s iHead iOther others)
      (hf' : f'.plain = f.plain) (hknown : IsKnownOf checked.reverse (lex.featuresOf s))
      (hmoving : MoversAgree lex mHead movingHead ∧ MoversAgree lex mOther movingOther) :
      Expands lex c input target (.predict rule
        [c.projecting target frontier iHead f' mHead movingHead,
          c.selected s iOther checked mOther movingOther])

end Category

/-- The derivation begins with the expansion, and its parts fit. -/
def Expansion.Matches (lex : Lexicon) : Expansion → Derivation → Prop
  | .scan leaf _ _, .word i => i = leaf
  | .predict _ [part], .move d => part.Fits lex d
  | .predict _ [head, other], .merge d₁ d₂ => head.Fits lex d₁ ∧ other.Fits lex d₂
  | _, _ => False

/-- What is pronounced of a derivation at the places of the parts of an expansion. -/
def Expansion.piecesOf (lex : Lexicon) : Expansion → Derivation → List Piece
  | .scan _ c tokens, _ => [(c.index, tokens)]
  | .predict _ [part], .move d => part.piecesOf lex d
  | .predict _ [head, other], .merge d₁ d₂ => head.piecesOf lex d₁ ++ other.piecesOf lex d₂
  | _, _ => []

namespace Category

section rules

variable {lex : Lexicon} {c : Category} {input : List String} {e : Expansion} {d : Derivation}

theorem eq_empty_of_map_eq {α β γ : Type} {f : α → γ} {g : β → γ} {d : Dict String α}
    {e : Dict String β} (h : d.map f = e.map g) (he : e = ∅) : d = ∅ := by
  subst he
  refine Dict.ext_get? fun k => ?_
  have hk := congrArg (Dict.get? · k) h
  simpa using hk

/-! ### What matches an expansion fits the prediction -/

section soundness

variable {target s : Nat} {f g f' : Feature} {iHead iOther : Address} {others : Dict String Mover}
  {moving movingHead movingOther : Dict String (List Feature)} {checked : List Feature}

/-- A phrase with the predicted mover attracts it. -/
theorem exists_move? (hlex : lex.WellFormed) (hc : c.IsAnchored lex)
    (hparent : lex.parent? target = some c.node) (hadmits : c.frontier.Admits false)
    (hf : lex.feature? target = some f) (hsign : f.sign = .licensor)
    (hs : lex.feature? s = some g) (hlands : c.Lands lex .left s iHead iOther others)
    (hnew : others.get? f.name = none) {p : Phrase}
    (hp : (c.projecting target .all iHead f'
      (others.insert f.name ⟨s, iOther⟩) moving).Predicts lex p) :
    ∃ r, p.move? = some r ∧ c.Predicts lex r ∧
      ∀ rest ws, Arranges (c.pieces r ++ rest) ws ↔
        Arranges ((c.projecting target .all iHead f'
          (others.insert f.name ⟨s, iOther⟩) moving).pieces p ++ rest) ws := by
  have hpf : p.features = f :: lex.featuresOf c.node := by
    rw [hp.features]
    exact (hlex.featuresOf_of_feature? hf).trans (by rw [hparent]; rfl)
  have hpm : p.movers.map Moved.features =
      (others.map (Mover.remaining lex)).insert f.name (lex.featuresOf s) := by
    rw [hp.movers]
    exact Dict.map_insert ..
  -- the mover is there, with the predicted features
  obtain ⟨v, hv, hvf⟩ : ∃ v, p.movers.get? f.name = some v ∧ v.features = lex.featuresOf s := by
    have hget := congrArg (Dict.get? · f.name) hpm
    simp only [Dict.get?_map, Dict.get?_insert_self] at hget
    exact Option.map_eq_some_iff.mp hget
  have hothers : (p.movers.erase f.name).map Moved.features = others.map (Mover.remaining lex) := by
    rw [Dict.map_erase, hpm]
    exact Dict.erase_insert (by rw [Dict.get?_map, hnew, Option.map_none])
  obtain ⟨r, hr, hlexical, hfeatures, hmovers, hpieces⟩ :=
    hlands.exists_place? hlex hc hothers p.words v.words (lex.featuresOf c.node)
  refine ⟨r, Phrase.move?_eq_some_iff.mpr ⟨f, _, v, hpf, hsign, hv, ?_⟩,
    ⟨?_, hfeatures, hmovers⟩, ?_⟩
  · rw [hvf, hlex.featuresOf_of_feature? hs]
    exact hr
  · rw [hlexical]
    exact hadmits
  · intro rest ws
    refine (hpieces rest ws).trans (arranges_congr ?_ ws)
    have hperm := moverPieces_erase_perm
      (Dict.get?_insert_self (d := others) (k := f.name) (a := ⟨s, iOther⟩)) hv
    rw [Dict.erase_insert hnew] at hperm
    exact ((hperm.append_right rest).cons (iHead, p.words)).symm

/-- A phrase takes a phrase as predicted. -/
theorem exists_merge? (hlex : lex.WellFormed) (hc : c.IsAnchored lex) {sign : Sign}
    {side : Branch} {frontier : Frontier} {mHead mOther : Dict String Mover}
    (hparent : lex.parent? target = some c.node) (hadmits : c.frontier.Admits false)
    (hf : lex.feature? target = some f) (hsign : f.sign = sign)
    (hs : lex.feature? s = some g) (hplain : g.plain = .categorial f.name)
    (htakes : Takes lex s others sign side frontier mHead mOther)
    (hlands : c.Lands lex side s iHead iOther others) {p q : Phrase}
    (hp : (c.projecting target frontier iHead f' mHead movingHead).Predicts lex p)
    (hq : (c.selected s iOther checked mOther movingOther).Predicts lex q) :
    ∃ r, p.merge? q = some r ∧ c.Predicts lex r ∧
      ∀ rest ws, Arranges (c.pieces r ++ rest) ws ↔
        Arranges ((c.projecting target frontier iHead f' mHead movingHead).pieces p ++
          (c.selected s iOther checked mOther movingOther).pieces q ++ rest) ws := by
  have hpf : p.features = f :: lex.featuresOf c.node := by
    rw [hp.features]
    exact (hlex.featuresOf_of_feature? hf).trans (by rw [hparent]; rfl)
  have hqf : q.features = g :: lex.featuresUp (lex.parent? s) := by
    rw [hq.features]
    exact hlex.featuresOf_of_feature? hs
  -- the rules differ in where the movers come from
  cases htakes with
  | complement =>
    obtain ⟨r, hr, hlexical, hfeatures, hmovers, hpieces⟩ :=
      hlands.exists_place? hlex hc hq.movers p.words q.words (lex.featuresOf c.node)
    refine ⟨r, Phrase.merge?_eq_some_iff.mpr ⟨f, _, g, _, hpf, hqf, hplain, ?_⟩,
      ⟨by rw [hlexical]; exact hadmits, hfeatures, hmovers⟩, fun rest ws => hpieces rest ws⟩
    exact Or.inl ⟨hsign, hp.frontier, hr⟩
  | specifier =>
    obtain ⟨r, hr, hlexical, hfeatures, hmovers, hpieces⟩ :=
      hlands.exists_place? hlex hc hp.movers p.words q.words (lex.featuresOf c.node)
    refine ⟨r, Phrase.merge?_eq_some_iff.mpr ⟨f, _, g, _, hpf, hqf, hplain, ?_⟩,
      ⟨by rw [hlexical]; exact hadmits, hfeatures, hmovers⟩, fun rest ws => ?_⟩
    · exact Or.inr (Or.inl ⟨hsign, hp.frontier, eq_empty_of_map_eq hq.movers rfl, hr⟩)
    · refine (hpieces rest ws).trans (arranges_congr (List.Perm.cons _ ?_) ws)
      show List.Perm _ (moverPieces others p.movers ++ [(iOther, q.words)] ++ rest)
      rw [List.append_assoc]
      exact List.perm_middle.symm
  | adjunct hroot =>
    obtain ⟨r, hr, hlexical, hfeatures, hmovers, hpieces⟩ :=
      hlands.exists_place? hlex hc hq.movers p.words q.words (lex.featuresOf c.node)
    have hnil := hlex.featuresUp_parent?_eq_nil_iff.mpr hroot
    refine ⟨r, Phrase.merge?_eq_some_iff.mpr ⟨f, _, g, _, hpf, hqf, hplain, ?_⟩,
      ⟨by rw [hlexical]; exact hadmits, hfeatures, hmovers⟩, fun rest ws => hpieces rest ws⟩
    rw [hnil] at hr
    exact Or.inr (Or.inr ⟨hsign, hp.frontier, hnil, hr⟩)

end soundness

/-- What matches an expansion fits the prediction, and its pieces are pronounced where the expansion
says. -/
theorem Expands.fits_of_matches (hlex : lex.WellFormed) (hc : c.IsAnchored lex) {target : Nat}
    (he : c.Expands lex input target e) (hd : e.Matches lex d) :
    c.Fits lex d ∧ ∀ rest ws, Arranges (c.piecesOf lex d ++ rest) ws ↔
      Arranges (e.piecesOf lex d ++ rest) ws := by
  -- a derivation of another shape than the expansion does not match it
  cases he with
  | @scan w hparent hadmits hword hmovers hinput =>
    cases d with
    | word i =>
      obtain rfl : i = target := hd
      have hp : (Derivation.word i).phrase? lex = some ⟨true, tokens w, lex.featuresOf i, ∅⟩ := by
        rw [Derivation.phrase?, hword, Option.map_some]
      refine ⟨⟨_, hp, hadmits, ?_, ?_⟩, fun rest ws => ?_⟩
      · show lex.featuresOf i = lex.featuresOf c.node
        rw [hlex.featuresOf_of_word? hword, hparent]
        rfl
      · rw [hmovers]
        rfl
      · rw [piecesOf, hp, Option.elim, pieces, hmovers]
        rfl
    | move part => exact hd.elim
    | merge selector selected => exact hd.elim
  | move hparent hadmits hf hsign hs hplain hlands hnew =>
    cases d with
    | word i => exact hd.elim
    | move part =>
      obtain ⟨p, hp, hpredicts⟩ := hd
      obtain ⟨r, hr, hresult, hpieces⟩ :=
        exists_move? hlex hc hparent hadmits hf hsign hs hlands hnew hpredicts
      have hmove : (Derivation.move part).phrase? lex = some r := by
        rw [Derivation.phrase?, hp, Option.bind_some, hr]
      refine ⟨⟨r, hmove, hresult⟩, fun rest ws => ?_⟩
      rw [Expansion.piecesOf, piecesOf, piecesOf, hmove, hp]
      exact hpieces rest ws
    | merge selector selected => exact hd.elim
  | merge hparent hadmits hf hsign hs hplain htakes hlands =>
    cases d with
    | word i => exact hd.elim
    | move part => exact hd.elim
    | merge selector selected =>
      obtain ⟨⟨p, hp, hpredicts⟩, q, hq, hpredicts'⟩ := hd
      obtain ⟨r, hr, hresult, hpieces⟩ :=
        exists_merge? hlex hc hparent hadmits hf hsign hs hplain htakes hlands hpredicts hpredicts'
      have hmerge : (Derivation.merge selector selected).phrase? lex = some r := by
        rw [Derivation.phrase?, hp, Option.bind_some, hq, Option.bind_some, hr]
      refine ⟨⟨r, hmerge, hresult⟩, fun rest ws => ?_⟩
      rw [Expansion.piecesOf, piecesOf, piecesOf, piecesOf, hmerge, hp, hq]
      exact hpieces rest ws

/-! ### The list of expansions -/

theorem category?_eq_some_iff (hlex : lex.WellFormed) {x : String} {root : Nat} :
    lex.category? x = some root ↔
      lex.parent? root = none ∧ ∃ g, lex.feature? root = some g ∧ g.plain = .categorial x := by
  rw [Lexicon.category?, hlex.root?_eq_some_iff]
  refine and_congr_right fun _ => exists_congr fun g => and_congr_right fun _ => ?_
  rw [Feature.agrees_iff_plain]
  exact eq_comm

/-- A root of category `x` leads to one item. -/
theorem mem_map_category?_iff (hlex : lex.WellFormed) {α : Type} {a : α} {x : String}
    {make : Nat → α} :
    a ∈ (lex.category? x).toList.map make ↔
      ∃ s g, lex.parent? s = none ∧ lex.feature? s = some g ∧ g.plain = .categorial x ∧
        a = make s := by
  simp only [List.mem_map, Option.mem_toList, category?_eq_some_iff hlex]
  constructor
  · rintro ⟨s, ⟨hroot, g, hg, hplain⟩, rfl⟩
    exact ⟨s, g, hroot, hg, hplain, rfl⟩
  · rintro ⟨s, g, hroot, hg, hplain, rfl⟩
    exact ⟨s, ⟨hroot, g, hg, hplain⟩, rfl⟩

/-- A mover that comes from below a node with `f` leads to one item. -/
theorem mem_flatMap_movers_iff (hlex : lex.WellFormed) (f : Feature) {α : Type} {a : α}
    {entries : List (String × Mover)} {make : String → Mover → Nat → α}
    {items : String × Mover → List α}
    (hitems : ∀ z m, items (z, m) = (lex.childWith? m.node f).toList.map (make z m)) :
    a ∈ entries.flatMap items ↔
      ∃ z m s g, (z, m) ∈ entries ∧ lex.parent? s = some m.node ∧ lex.feature? s = some g ∧
        g.plain = f.plain ∧ a = make z m s := by
  simp only [List.mem_flatMap, Prod.exists, hitems, List.mem_map, Option.mem_toList,
    hlex.childWith?_eq_some_iff, Feature.agrees_iff_plain]
  constructor
  · rintro ⟨z, m, hmem, s, ⟨hparent, g, hg, hplain⟩, rfl⟩
    exact ⟨z, m, s, g, hmem, hparent, hg, hplain.symm, rfl⟩
  · rintro ⟨z, m, s, g, hmem, hparent, hg, hplain, rfl⟩
    exact ⟨z, m, hmem, s, ⟨hparent, g, hg, hplain.symm⟩, rfl⟩

section movers

variable {target : Nat} {x : String}

theorem mem_merge3_iff (hlex : lex.WellFormed) :
    e ∈ c.merge3 lex target x ↔
      ∃ z m s g, (z, m) ∈ c.movers.entries ∧ lex.parent? s = some m.node ∧
        lex.feature? s = some g ∧ g.plain = .categorial x ∧
        e = .predict .merge3
          [c.projecting target .leaves c.index (.selector x),
            c.selected s m.index (c.movingFeatures z ++ [.categorial x]) (c.movers.erase z)
              (c.moving.erase z)] :=
  mem_flatMap_movers_iff hlex (.categorial x) fun _ _ => rfl

theorem mem_merge4_iff (hlex : lex.WellFormed) :
    e ∈ c.merge4 lex target x ↔
      ∃ z m s g, (z, m) ∈ c.movers.entries ∧ lex.parent? s = some m.node ∧
        lex.feature? s = some g ∧ g.plain = .categorial x ∧
        e = .predict .merge4
          [c.projecting target .branches c.index (.selector x) (c.movers.erase z)
              (c.moving.erase z),
            c.selected s m.index (c.movingFeatures z ++ [.categorial x])] :=
  mem_flatMap_movers_iff hlex (.categorial x) fun _ _ => rfl

/-- A mover moves on under the name `x`, which no other mover has. -/
theorem mem_move2_iff (hlex : lex.WellFormed) :
    e ∈ c.move2 lex target x ↔
      ∃ z m s g, c.movers.get? z = some m ∧ (c.movers.erase z).get? x = none ∧
        lex.parent? s = some m.node ∧ lex.feature? s = some g ∧ g.plain = .licensee x ∧
        e = .predict .move2
          [c.projecting target .all c.index (.licensor x) ((c.movers.erase z).insert x ⟨s, m.index⟩)
            ((c.moving.erase z).insert x (c.movingFeatures z ++ [.licensee x]))] := by
  have hname {z : String} : (z == x || !c.movers.contains x) = true ↔
      (c.movers.erase z).get? x = none := by
    by_cases hz : x = z
    · simp [hz]
    · simp [Dict.get?_erase_of_ne hz, Ne.symm hz, Dict.contains_eq_false_iff]
  refine (mem_flatMap_movers_iff hlex (.licensee x) fun _ _ => rfl).trans ?_
  simp only [List.mem_filter, hname, ← Dict.get?_eq_some_iff, and_assoc]
  rfl

end movers

theorem mem_scan_iff {target : Nat} {w : String} (hw : lex.word? target = some w) :
    e ∈ c.scan lex target input ↔
      c.movers = ∅ ∧ tokens w <+: input ∧ e = .scan target c (tokens w) := by
  have hscan : c.scan lex target input =
      if c.movers.isEmpty && (tokens w).isPrefixOf input then [.scan target c (tokens w)]
      else [] := by
    rw [scan, hw]
    rfl
  rw [hscan, List.mem_ite_nil_right, List.mem_singleton, Bool.and_eq_true, Dict.isEmpty_iff,
    List.isPrefixOf_iff_prefix, and_assoc]

/-! ### What is known of the features -/

/-- At a root there is nothing more to know than its feature. -/
theorem map_plain_root (hlex : lex.WellFormed) {s : Nat} {f g : Feature}
    (hroot : lex.parent? s = none) (hg : lex.feature? s = some g) (hplain : g.plain = f) :
    [f].map Feature.plain = (lex.featuresOf s).map Feature.plain := by
  rw [hlex.featuresOf_of_feature? hg, hroot, ← hplain]
  rfl

/-- A phrase that moves is known by the feature at its node and what is known of the mover. -/
theorem IsAnchored.map_plain_mover (hc : c.IsAnchored lex) (hlex : lex.WellFormed) {z : String}
    {m : Mover} {s : Nat} {f g : Feature} (hm : c.movers.get? z = some m)
    (hs : lex.parent? s = some m.node) (hg : lex.feature? s = some g) (hplain : g.plain = f) :
    (c.movingFeatures z ++ [f]).reverse.map Feature.plain =
      (lex.featuresOf s).map Feature.plain := by
  obtain ⟨checked, hchecked, hagrees⟩ := hc.moving.features hm
  have hup : lex.featuresUp (some m.node) = lex.featuresOf m.node := rfl
  rw [movingFeatures, hchecked, Option.getD_some, hlex.featuresOf_of_feature? hg, hs, hup, ← hplain,
    List.reverse_append, List.map_append, hagrees]
  rfl

/-! ### What the lists hold -/

/-- The expansions by a selector: the head is a word that takes a complement, or a phrase that takes
a specifier. -/
theorem mem_selections_iff {target : Nat} {x : String} :
    e ∈ c.selections lex target x ↔
      ((lex.parts target).any lex.isLeaf = true ∧
        (e ∈ c.merge1 lex target x ∨ e ∈ c.merge3 lex target x)) ∨
      ((lex.parts target).any (!lex.isLeaf ·) = true ∧
        (e ∈ c.merge2 lex target x ∨ e ∈ c.merge4 lex target x)) := by
  rw [selections, List.mem_append]
  refine or_congr ?_ ?_
  · split
    · next h => simp [h]
    · next h => simp [h]
  · split
    · next h => simp [h]
    · next h => simp [h]

/-- What a selector can expand to takes a phrase. -/
theorem expands_of_mem_selections (hlex : lex.WellFormed) (hc : c.IsAnchored lex) {target : Nat}
    {f : Feature} (hparent : lex.parent? target = some c.node) (hadmits : c.frontier.Admits false)
    (hf : lex.feature? target = some f) (hsign : f.sign = .selector)
    (he : e ∈ c.selections lex target f.name) : c.Expands lex input target e := by
  have hf' : (Feature.selector f.name).plain = f.plain := by
    rw [Feature.plain, Feature.plain, hsign]; rfl
  rcases mem_selections_iff.mp he with ⟨-, he | he⟩ | ⟨-, he | he⟩
  · obtain ⟨s, g, hroot, hg, hplain, rfl⟩ := (mem_map_category?_iff hlex).mp he
    exact .merge hparent hadmits hf hsign hg hplain .complement (.stay hroot) hf'
      (.of_map_plain_eq (map_plain_root hlex hroot hg hplain)) ⟨.empty, hc.moving⟩
  · obtain ⟨z, m, s, g, hm, hs, hg, hplain, rfl⟩ := (mem_merge3_iff hlex).mp he
    have hm := Dict.get?_eq_some_iff.mpr hm
    exact .merge hparent hadmits hf hsign hg hplain .complement (.go hm hs) hf'
      (.of_map_plain_eq (hc.map_plain_mover hlex hm hs hg hplain)) ⟨.empty, hc.moving.erase z⟩
  · obtain ⟨s, g, hroot, hg, hplain, rfl⟩ := (mem_map_category?_iff hlex).mp he
    exact .merge hparent hadmits hf hsign hg hplain .specifier (.stay hroot) hf'
      (.of_map_plain_eq (map_plain_root hlex hroot hg hplain)) ⟨hc.moving, .empty⟩
  · obtain ⟨z, m, s, g, hm, hs, hg, hplain, rfl⟩ := (mem_merge4_iff hlex).mp he
    have hm := Dict.get?_eq_some_iff.mpr hm
    exact .merge hparent hadmits hf hsign hg hplain .specifier (.go hm hs) hf'
      (.of_map_plain_eq (hc.map_plain_mover hlex hm hs hg hplain)) ⟨hc.moving.erase z, .empty⟩

/-- What an adjunct can expand to takes a phrase that stays. -/
theorem expands_of_mem_adjunctions (hlex : lex.WellFormed) (hc : c.IsAnchored lex) {target : Nat}
    {f : Feature} (hparent : lex.parent? target = some c.node) (hadmits : c.frontier.Admits false)
    (hf : lex.feature? target = some f) (hsign : f.sign = .adjunct)
    (he : e ∈ c.adjunctions lex target f.name) : c.Expands lex input target e := by
  have hf' : (Feature.adjunct f.name).plain = f.plain := by
    rw [Feature.plain, Feature.plain, hsign]
    rfl
  rw [adjunctions] at he
  split at he
  · obtain ⟨s, g, hroot, hg, hplain, rfl⟩ := (mem_map_category?_iff hlex).mp he
    have hknown : IsKnownOf [].reverse (lex.featuresOf s) :=
      .nil_featuresOf hlex hg hroot (congrArg Feature.sign hplain)
    exact .merge hparent hadmits hf hsign hg hplain (.adjunct hroot) (.stay hroot) hf' hknown
      ⟨.empty, hc.moving⟩
  · exact absurd he (by simp)

/-- What a licensor can expand to attracts a mover. -/
theorem expands_of_mem_movements (hlex : lex.WellFormed) (hc : c.IsAnchored lex) {target : Nat}
    {f : Feature} (hparent : lex.parent? target = some c.node) (hadmits : c.frontier.Admits false)
    (hf : lex.feature? target = some f) (hsign : f.sign = .licensor)
    (he : e ∈ c.movements lex target f.name) : c.Expands lex input target e := by
  have hf' : (Feature.licensor f.name).plain = f.plain := by
    rw [Feature.plain, Feature.plain, hsign]; rfl
  rw [movements, List.mem_append] at he
  rcases he with he | he
  · split at he
    · exact absurd he (by simp)
    · next hnew =>
      rw [Bool.not_eq_true, Dict.contains_eq_false_iff] at hnew
      obtain ⟨s, hs, rfl⟩ := List.mem_map.mp he
      obtain ⟨hroot, g, hg, hagrees⟩ := hlex.root?_eq_some_iff.mp (Option.mem_toList.mp hs)
      have hplain := (Feature.agrees_iff_plain.mp hagrees).symm
      exact .move hparent hadmits hf hsign hg hplain (.stay hroot) hnew hf'
        (hc.moving.insert _ (map_plain_root hlex hroot hg hplain))
  · obtain ⟨z, m, s, g, hm, hnew, hs, hg, hplain, rfl⟩ := (mem_move2_iff hlex).mp he
    exact .move hparent hadmits hf hsign hg hplain (.go hm hs) hnew hf'
      ((hc.moving.erase z).insert _ (hc.map_plain_mover hlex hm hs hg hplain))

/-- Every item of the list of expansions is one by the rules. -/
theorem expands_of_mem_expansionsAt (hlex : lex.WellFormed) (hc : c.IsAnchored lex) {target : Nat}
    (htarget : target ∈ c.targets lex) (he : e ∈ c.expansionsAt lex target input) :
    c.Expands lex input target e := by
  obtain ⟨hparent, hadmits⟩ := (mem_targets_iff hlex).mp htarget
  rw [expansionsAt] at he
  split at he
  · next hf =>
    obtain ⟨w, hw⟩ := exists_word?_of_feature?_eq_none hparent hf
    rw [Lexicon.isLeaf, hw] at hadmits
    obtain ⟨hmovers, hinput, rfl⟩ := (mem_scan_iff hw).mp he
    exact .scan hparent hadmits hw hmovers hinput
  · next f hf =>
    rw [isLeaf_of_feature? hf] at hadmits
    split at he
    · next hsign => exact expands_of_mem_selections hlex hc hparent hadmits hf hsign he
    · next hsign => exact expands_of_mem_adjunctions hlex hc hparent hadmits hf hsign he
    · next hsign => exact expands_of_mem_movements hlex hc hparent hadmits hf hsign he
    all_goals exact absurd he (by simp)

theorem exists_expands_of_mem (hlex : lex.WellFormed) (hc : c.IsAnchored lex)
    (he : e ∈ c.expansions lex input) : ∃ target, c.Expands lex input target e := by
  obtain ⟨target, htarget, he⟩ := List.mem_flatMap.mp he
  exact ⟨target, expands_of_mem_expansionsAt hlex hc htarget he⟩

/-! ### What fits a prediction matches an expansion -/

/-- A way begins at a node, whose features it has. -/
theorem exists_node_of_isWay (hlex : lex.WellFormed) {way features : List Feature} {f : Feature}
    (h : lex.IsWay way) (hway : way = f :: features) :
    ∃ i, lex.feature? i = some f ∧ features = lex.featuresUp (lex.parent? i) ∧
      way = lex.featuresOf i := by
  subst hway
  obtain ⟨i, hi, hup⟩ := h.exists_of_cons hlex
  exact ⟨i, hi, hup, hup ▸ (hlex.featuresOf_of_feature? hi).symm⟩

/-- When the head `q` has checked a feature and what is left is at the node `n`, this feature is at
a part of `n`. -/
theorem exists_target (hlex : lex.WellFormed) {p q : Phrase} {n : Nat} {f : Feature}
    {features : List Feature} (hq : q.IsGrounded lex) (hqf : q.features = f :: features)
    (hr : p.isLexical = false ∧ p.features = features) (hn : (lex.feature? n).isSome)
    (hp : p.features = lex.featuresOf n) :
    ∃ i, lex.feature? i = some f ∧ lex.parent? i = some n ∧ q.features = lex.featuresOf i ∧
      lex.isLeaf i = p.isLexical := by
  obtain ⟨i, hi, hup, hfeatures⟩ := exists_node_of_isWay hlex hq.features hqf
  refine ⟨i, hi, hlex.parent?_eq_some_of_featuresUp hn ?_, hfeatures, ?_⟩
  · rw [← hup, ← hr.2, hp]
  · rw [isLeaf_of_feature? hi, hr.1]

/-- A node that says what is left of a phrase has a part of the kind of that phrase: a word, or
another node. -/
theorem exists_part_of_phrase? (hlex : lex.WellFormed) {p : Phrase} {n : Nat}
    (hd : d.phrase? lex = some p) (hn : (lex.feature? n).isSome)
    (hp : p.features = lex.featuresOf n) : ∃ i ∈ lex.parts n, lex.isLeaf i = p.isLexical := by
  -- the active feature of the head before it was checked is such a part
  have hhead {q : Phrase} {f : Feature} {features : List Feature} (hq : q.IsGrounded lex)
      (hqf : q.features = f :: features) (hr : p.isLexical = false ∧ p.features = features) :
      ∃ i ∈ lex.parts n, lex.isLeaf i = p.isLexical := by
    obtain ⟨i, -, hparent, -, hleaf⟩ := exists_target hlex hq hqf hr hn hp
    exact ⟨i, hlex.mem_parts.mpr hparent, hleaf⟩
  cases d with
  | word i =>
    obtain ⟨w, hw, rfl⟩ := Option.map_eq_some_iff.mp hd
    refine ⟨i, hlex.mem_parts.mpr (hlex.parent?_eq_some_of_featuresUp hn ?_), ?_⟩
    · rw [← hlex.featuresOf_of_word? hw]
      exact hp
    · rw [Lexicon.isLeaf, hw]
      rfl
  | move part =>
    obtain ⟨q, hq, hmove⟩ := Option.bind_eq_some_iff.mp hd
    obtain ⟨f, features, m, hqf, -, -, hplace⟩ := Phrase.move?_eq_some_iff.mp hmove
    exact hhead (Derivation.isGrounded_of_phrase? hlex hq) hqf (Phrase.features_of_place? hplace)
  | merge selector selected =>
    obtain ⟨q, hq, hbind⟩ := Option.bind_eq_some_iff.mp hd
    obtain ⟨q', -, hmerge⟩ := Option.bind_eq_some_iff.mp hbind
    obtain ⟨f, features, g, rest, hqf, -, -, hcases⟩ := Phrase.merge?_eq_some_iff.mp hmerge
    refine hhead (Derivation.isGrounded_of_phrase? hlex hq) hqf ?_
    rcases hcases with ⟨-, -, hplace⟩ | ⟨-, -, -, hplace⟩ | ⟨-, -, -, hplace⟩
    all_goals exact Phrase.features_of_place? hplace

section lists

variable {target s : Nat} {g : Feature} {x : String} {iHead iOther : Address}
  {others : Dict String Mover}

/-- A mover that lands as predicted is listed. -/
theorem exists_mem_movements (target : Nat) (hlex : lex.WellFormed) (hs : lex.feature? s = some g)
    (hplain : g.plain = .licensee x) (hlands : c.Lands lex .left s iHead iOther others)
    (hnew : others.get? x = none) :
    ∃ rule f' moving, Expansion.predict rule
      [c.projecting target .all iHead f' (others.insert x ⟨s, iOther⟩) moving] ∈
        c.movements lex target x := by
  cases hlands with
  | stay hroot =>
    refine ⟨.move1, .licensor x, c.moving.insert x [.licensee x], List.mem_append_left _ ?_⟩
    rw [if_neg (by simp [Dict.contains_eq_false_iff.mpr hnew])]
    refine List.mem_map.mpr ⟨s, Option.mem_toList.mpr ?_, rfl⟩
    exact hlex.root?_eq_some_iff.mpr ⟨hroot, g, hs, Feature.agrees_iff_plain.mpr hplain.symm⟩
  | @go z m hm hparent =>
    exact ⟨.move2, .licensor x, _, List.mem_append_right _
      ((mem_move2_iff hlex).mpr ⟨z, m, s, g, hm, hnew, hparent, hs, hplain, rfl⟩)⟩

/-- A complement that lands as predicted is listed if there is a word for the head. -/
theorem exists_mem_complements (hlex : lex.WellFormed)
    (hleaf : (lex.parts target).any lex.isLeaf = true) (hs : lex.feature? s = some g)
    (hplain : g.plain = .categorial x) (hlands : c.Lands lex .right s iHead iOther others) :
    ∃ rule f' checked moving, Expansion.predict rule
      [c.projecting target .leaves iHead f', c.selected s iOther checked others moving] ∈
        c.selections lex target x := by
  cases hlands with
  | stay hroot =>
    exact ⟨.merge1, .selector x, _, _, mem_selections_iff.mpr (Or.inl ⟨hleaf,
      Or.inl ((mem_map_category?_iff hlex).mpr ⟨s, g, hroot, hs, hplain, rfl⟩)⟩)⟩
  | @go z m hm hparent =>
    exact ⟨.merge3, .selector x, _, _, mem_selections_iff.mpr (Or.inl ⟨hleaf, Or.inr
      ((mem_merge3_iff hlex).mpr
        ⟨z, m, s, g, Dict.get?_eq_some_iff.mp hm, hparent, hs, hplain, rfl⟩)⟩)⟩

/-- A specifier that lands as predicted is listed if there is a feature for the head. -/
theorem exists_mem_specifiers (hlex : lex.WellFormed)
    (hbranch : (lex.parts target).any (!lex.isLeaf ·) = true) (hs : lex.feature? s = some g)
    (hplain : g.plain = .categorial x) (hlands : c.Lands lex .left s iHead iOther others) :
    ∃ rule f' checked moving, Expansion.predict rule
      [c.projecting target .branches iHead f' others moving, c.selected s iOther checked] ∈
        c.selections lex target x := by
  cases hlands with
  | stay hroot =>
    exact ⟨.merge2, .selector x, _, _, mem_selections_iff.mpr (Or.inr ⟨hbranch,
      Or.inl ((mem_map_category?_iff hlex).mpr ⟨s, g, hroot, hs, hplain, rfl⟩)⟩)⟩
  | @go z m hm hparent =>
    exact ⟨.merge4, .selector x, _, _, mem_selections_iff.mpr (Or.inr ⟨hbranch, Or.inr
      ((mem_merge4_iff hlex).mpr
        ⟨z, m, s, g, Dict.get?_eq_some_iff.mp hm, hparent, hs, hplain, rfl⟩)⟩)⟩

/-- An adjunct that joins a phrase which stays is listed if there is a word for it. -/
theorem exists_mem_adjunctions (hlex : lex.WellFormed)
    (hleaf : (lex.parts target).any lex.isLeaf = true) (hs : lex.feature? s = some g)
    (hplain : g.plain = .categorial x) (hroot : lex.parent? s = none)
    (hlands : c.Lands lex .right s iHead iOther others) :
    ∃ rule f' checked moving, Expansion.predict rule
      [c.projecting target .leaves iHead f', c.selected s iOther checked others moving] ∈
        c.adjunctions lex target x := by
  cases hlands with
  | stay =>
    refine ⟨.merge1b, .adjunct x, [], c.moving, ?_⟩
    rw [adjunctions, if_pos hleaf]
    exact (mem_map_category?_iff hlex).mpr ⟨s, g, hroot, hs, hplain, rfl⟩
  | go hm hparent => exact absurd (hroot.symm.trans hparent) (by simp)

end lists

section signs

variable {target : Nat} {f : Feature} (hf : lex.feature? target = some f)

include hf

theorem expansionsAt_of_selector (hsign : f.sign = .selector) :
    c.expansionsAt lex target input = c.selections lex target f.name := by
  simp only [expansionsAt, hf, hsign]

theorem expansionsAt_of_adjunct (hsign : f.sign = .adjunct) :
    c.expansionsAt lex target input = c.adjunctions lex target f.name := by
  simp only [expansionsAt, hf, hsign]

theorem expansionsAt_of_licensor (hsign : f.sign = .licensor) :
    c.expansionsAt lex target input = c.movements lex target f.name := by
  simp only [expansionsAt, hf, hsign]

end signs

theorem mem_expansions (hlex : lex.WellFormed) {target : Nat}
    (hparent : lex.parent? target = some c.node)
    (hadmits : c.frontier.Admits (lex.isLeaf target)) (he : e ∈ c.expansionsAt lex target input) :
    e ∈ c.expansions lex input :=
  List.mem_flatMap.mpr ⟨target, (mem_targets_iff hlex).mpr ⟨hparent, hadmits⟩, he⟩

/-- A movement that fits a prediction matches one of its expansions. -/
theorem exists_matches_move (hlex : lex.WellFormed) (hc : c.IsAnchored lex) {part : Derivation}
    (hd : c.Fits lex (.move part)) :
    ∃ e ∈ c.expansions lex input, e.Matches lex (.move part) := by
  obtain ⟨r, hr, hfrontier, hfeatures, hmovers⟩ := hd
  obtain ⟨q, hq, hmove⟩ := Option.bind_eq_some_iff.mp hr
  obtain ⟨f, features, m, hqf, hsign, hm, hplace⟩ := Phrase.move?_eq_some_iff.mp hmove
  have hgrounded := Derivation.isGrounded_of_phrase? hlex hq
  -- the licensor is at a node below that of the prediction
  obtain ⟨target, htarget, hparent, hqfeatures, hleaf⟩ :=
    exists_target hlex hgrounded hqf (Phrase.features_of_place? hplace) hc.node hfeatures
  -- and the mover has the licensee of this name as its active node
  obtain ⟨hmway, g, rest, hmf, hplain⟩ := hgrounded.movers hm
  obtain ⟨s, hs, hrest, hmfeatures⟩ := exists_node_of_isWay hlex hmway hmf
  rw [hmf, List.tail_cons, hrest] at hplace
  obtain ⟨-, -, iHead, iOther, others, hlands, hothers⟩ := exists_lands hlex hc hplace hmovers
  have hnew : others.get? f.name = none := by
    have hget := congrArg (Dict.get? · f.name) hothers
    simpa using hget.symm
  obtain ⟨rule, f', moving, he⟩ := exists_mem_movements target hlex hs hplain hlands hnew
  rw [← expansionsAt_of_licensor htarget hsign] at he
  refine ⟨_, mem_expansions hlex hparent (hleaf ▸ hfrontier) he, q, hq, trivial, hqfeatures, ?_⟩
  show q.movers.map Moved.features = (others.insert f.name ⟨s, iOther⟩).map _
  rw [Dict.map_insert, ← hothers, ← Dict.insert_erase hm, Dict.map_insert,
    Dict.erase_insert Dict.get?_erase_self, hmfeatures]
  rfl

/-- A merge that fits a prediction matches one of its expansions. -/
theorem exists_matches_merge (hlex : lex.WellFormed) (hc : c.IsAnchored lex)
    {selector selected : Derivation} (hd : c.Fits lex (.merge selector selected)) :
    ∃ e ∈ c.expansions lex input, e.Matches lex (.merge selector selected) := by
  obtain ⟨r, hr, hfrontier, hfeatures, hmovers⟩ := hd
  obtain ⟨p, hp, hbind⟩ := Option.bind_eq_some_iff.mp hr
  obtain ⟨q, hq, hmerge⟩ := Option.bind_eq_some_iff.mp hbind
  obtain ⟨f, features, g, rest, hpf, hqf, hplain, hcases⟩ := Phrase.merge?_eq_some_iff.mp hmerge
  -- the selector is at a node below that of the prediction, as the rest of it is what is predicted
  have hplaced : r.isLexical = false ∧ r.features = features := by
    rcases hcases with ⟨-, -, hplace⟩ | ⟨-, -, -, hplace⟩ | ⟨-, -, -, hplace⟩
    all_goals exact Phrase.features_of_place? hplace
  obtain ⟨target, htarget, hparent, hpfeatures, hleaf⟩ :=
    exists_target hlex (Derivation.isGrounded_of_phrase? hlex hp) hpf hplaced hc.node hfeatures
  have hmem {e : Expansion} (he : e ∈ c.expansionsAt lex target input) :
      e ∈ c.expansions lex input :=
    mem_expansions hlex hparent (hleaf ▸ hfrontier) he
  -- the category of the other phrase is at a node, too
  obtain ⟨s, hs, hrest, hqfeatures⟩ :=
    exists_node_of_isWay hlex (Derivation.isGrounded_of_phrase? hlex hq).features hqf
  obtain ⟨i, hi, hleaf⟩ := exists_part_of_phrase? hlex hp (by simp [htarget]) hpfeatures
  rcases hcases with ⟨hsign, hlexical, hplace⟩ | ⟨hsign, hlexical, hempty, hplace⟩ |
    ⟨hsign, hlexical, hnil, hplace⟩
  · -- a complement
    rw [hrest] at hplace
    obtain ⟨-, -, iHead, iOther, others, hlands, hothers⟩ := exists_lands hlex hc hplace hmovers
    have hany : (lex.parts target).any lex.isLeaf = true :=
      List.any_eq_true.mpr ⟨i, hi, hleaf.trans hlexical⟩
    obtain ⟨rule, f', checked, moving, he⟩ := exists_mem_complements hlex hany hs hplain hlands
    rw [← expansionsAt_of_selector htarget hsign] at he
    refine ⟨_, hmem he, ⟨p, hp, hlexical, hpfeatures, ?_⟩,
      q, hq, trivial, hqfeatures, hothers⟩
    rw [Derivation.movers_eq_empty_of_isLexical hp hlexical]
    rfl
  · -- a specifier
    rw [hrest] at hplace
    obtain ⟨-, -, iHead, iOther, others, hlands, hothers⟩ := exists_lands hlex hc hplace hmovers
    have hany : (lex.parts target).any (!lex.isLeaf ·) = true :=
      List.any_eq_true.mpr ⟨i, hi, by rw [hleaf, hlexical]; rfl⟩
    obtain ⟨rule, f', checked, moving, he⟩ := exists_mem_specifiers hlex hany hs hplain hlands
    rw [← expansionsAt_of_selector htarget hsign] at he
    refine ⟨_, hmem he, ⟨p, hp, hlexical, hpfeatures, hothers⟩,
      q, hq, trivial, hqfeatures, ?_⟩
    rw [hempty]
    rfl
  · -- an adjunct
    rw [hnil] at hrest
    rw [hrest] at hplace
    obtain ⟨-, -, iHead, iOther, others, hlands, hothers⟩ := exists_lands hlex hc hplace hmovers
    have hroot := hlex.featuresUp_parent?_eq_nil_iff.mp hrest.symm
    have hany : (lex.parts target).any lex.isLeaf = true :=
      List.any_eq_true.mpr ⟨i, hi, hleaf.trans hlexical⟩
    obtain ⟨rule, f', checked, moving, he⟩ :=
      exists_mem_adjunctions hlex hany hs hplain hroot hlands
    rw [← expansionsAt_of_adjunct htarget hsign] at he
    refine ⟨_, hmem he, ⟨p, hp, hlexical, hpfeatures, ?_⟩,
      q, hq, trivial, hqfeatures, hothers⟩
    rw [Derivation.movers_eq_empty_of_isLexical hp hlexical]
    rfl

/-- A word that fits a prediction and comes next in the input matches one of its expansions. -/
theorem exists_matches_word (hlex : lex.WellFormed) (hc : c.IsAnchored lex) {leaf : Nat}
    (hd : c.Fits lex (.word leaf))
    (hinput : ∀ w, lex.word? leaf = some w → tokens w <+: input) :
    ∃ e ∈ c.expansions lex input, e.Matches lex (.word leaf) := by
  obtain ⟨r, hr, hfrontier, hfeatures, hmovers⟩ := hd
  obtain ⟨w, hw, rfl⟩ := Option.map_eq_some_iff.mp hr
  have hparent : lex.parent? leaf = some c.node :=
    hlex.parent?_eq_some_of_featuresUp hc.node ((hlex.featuresOf_of_word? hw).symm.trans hfeatures)
  have hleaf : lex.isLeaf leaf = true := by
    rw [Lexicon.isLeaf, hw]
    rfl
  have he : Expansion.scan leaf c (tokens w) ∈ c.expansionsAt lex leaf input := by
    rw [expansionsAt, Lexicon.feature?_eq_none_of_word? hw]
    exact (mem_scan_iff hw).mpr ⟨eq_empty_of_map_eq hmovers.symm rfl, hinput w hw, rfl⟩
  refine ⟨_, mem_expansions hlex hparent ?_ he, rfl⟩
  rw [hleaf]
  exact hfrontier

/-- What fits a prediction matches one of its expansions, if it does not begin with a word that is
not next in the input. -/
theorem exists_matches (hlex : lex.WellFormed) (hc : c.IsAnchored lex) (hd : c.Fits lex d)
    (hinput : ∀ leaf w, d = .word leaf → lex.word? leaf = some w → tokens w <+: input) :
    ∃ e ∈ c.expansions lex input, e.Matches lex d := by
  cases d with
  | word leaf => exact exists_matches_word hlex hc hd fun w => hinput leaf w rfl
  | move part => exact exists_matches_move hlex hc hd
  | merge selector selected => exact exists_matches_merge hlex hc hd

end rules

end Category
end MinimalistGrammar
