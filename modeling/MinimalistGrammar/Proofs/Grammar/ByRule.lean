import MinimalistGrammar.Proofs.Grammar.Rules

/-!
# Expansions rule by rule

Each of the eight rules divides the place of a prediction in its own way, hands its movers on to one
of the parts, and tells what is known of the features of either part.

## Main definitions

* `Lexicon.Bears` — a node of the lexicon has a feature.
* `Category.ByRule` — the expansions of a prediction, one case for each rule.

## Main results

* `Category.byRule_of_mem` — every expansion is by one of the rules.
-/

namespace MinimalistGrammar

/-- A node below some place of the lexicon, or at a root, has a feature. -/
def Lexicon.Bears (lex : Lexicon) (place : Option Nat) (f : Feature) (i : Nat) : Prop :=
  lex.parent? i = place ∧ ∃ g, lex.feature? i = some g ∧ g.plain = f

theorem Lexicon.Bears.isSome {lex : Lexicon} {place : Option Nat} {f : Feature} {i : Nat}
    (h : lex.Bears place f i) : (lex.feature? i).isSome := by
  obtain ⟨-, g, hg, -⟩ := h
  rw [hg]
  rfl

/-- The features from a node up are its own and those from the place above. -/
theorem Lexicon.Bears.map_plain_featuresOf {lex : Lexicon} (hlex : lex.WellFormed)
    {place : Option Nat} {f : Feature} {i : Nat} (h : lex.Bears place f i) :
    (lex.featuresOf i).map Feature.plain = f :: (lex.featuresUp place).map Feature.plain := by
  obtain ⟨rfl, g, hg, rfl⟩ := h
  rw [hlex.featuresOf_of_feature? hg, List.map_cons]

namespace Category

/-- The expansions of a prediction by the eight rules. -/
inductive ByRule (lex : Lexicon) (c : Category) (input : List String) : Expansion → Prop
  | merge1 {target s : Nat} {x : String} (ht : lex.Bears (some c.node) (.selector x) target)
      (hs : lex.Bears none (.categorial x) s) :
      ByRule lex c input (.predict .merge1 [c.projecting target .leaves c.index.left (.selector x),
        c.selected s c.index.right [.categorial x] c.movers c.moving])
  | merge1b {target s : Nat} {x : String} (ht : lex.Bears (some c.node) (.adjunct x) target)
      (hs : lex.Bears none (.categorial x) s) :
      ByRule lex c input (.predict .merge1b [c.projecting target .leaves c.index.left (.adjunct x),
        c.selected s c.index.right [] c.movers c.moving])
  | merge2 {target s : Nat} {x : String} (ht : lex.Bears (some c.node) (.selector x) target)
      (hs : lex.Bears none (.categorial x) s) :
      ByRule lex c input (.predict .merge2
        [c.projecting target .branches c.index.right (.selector x) c.movers c.moving,
          c.selected s c.index.left [.categorial x]])
  | merge3 {target s : Nat} {x z : String} {m : Mover}
      (ht : lex.Bears (some c.node) (.selector x) target)
      (hm : c.movers.get? z = some m) (hs : lex.Bears (some m.node) (.categorial x) s) :
      ByRule lex c input (.predict .merge3 [c.projecting target .leaves c.index (.selector x),
        c.selected s m.index (c.movingFeatures z ++ [.categorial x]) (c.movers.erase z)
          (c.moving.erase z)])
  | merge4 {target s : Nat} {x z : String} {m : Mover}
      (ht : lex.Bears (some c.node) (.selector x) target)
      (hm : c.movers.get? z = some m) (hs : lex.Bears (some m.node) (.categorial x) s) :
      ByRule lex c input (.predict .merge4
        [c.projecting target .branches c.index (.selector x) (c.movers.erase z) (c.moving.erase z),
          c.selected s m.index (c.movingFeatures z ++ [.categorial x])])
  | move1 {target s : Nat} {x : String} (ht : lex.Bears (some c.node) (.licensor x) target)
      (hs : lex.Bears none (.licensee x) s) (hnew : c.movers.get? x = none) :
      ByRule lex c input (.predict .move1 [c.projecting target .all c.index.right (.licensor x)
        (c.movers.insert x ⟨s, c.index.left⟩) (c.moving.insert x [.licensee x])])
  | move2 {target s : Nat} {x z : String} {m : Mover}
      (ht : lex.Bears (some c.node) (.licensor x) target)
      (hm : c.movers.get? z = some m) (hs : lex.Bears (some m.node) (.licensee x) s)
      (hnew : (c.movers.erase z).get? x = none) :
      ByRule lex c input (.predict .move2 [c.projecting target .all c.index (.licensor x)
        ((c.movers.erase z).insert x ⟨s, m.index⟩)
        ((c.moving.erase z).insert x (c.movingFeatures z ++ [.licensee x]))])
  | scan {target : Nat} {w : String} (hparent : lex.parent? target = some c.node)
      (hword : lex.word? target = some w) (hmovers : c.movers = ∅) (hinput : tokens w <+: input) :
      ByRule lex c input (.scan target c (tokens w))

variable {lex : Lexicon} {c : Category} {input : List String} {e : Expansion} {target : Nat}
  {x : String}

section lists

variable (hlex : lex.WellFormed)

include hlex

theorem byRule_of_mem_selections (ht : lex.Bears (some c.node) (.selector x) target)
    (he : e ∈ c.selections lex target x) : c.ByRule lex input e := by
  rcases mem_selections_iff.mp he with ⟨-, he | he⟩ | ⟨-, he | he⟩
  · obtain ⟨s, g, hroot, hg, hplain, rfl⟩ := (mem_map_category?_iff hlex).mp he
    exact .merge1 ht ⟨hroot, g, hg, hplain⟩
  · obtain ⟨z, m, s, g, hm, hs, hg, hplain, rfl⟩ := (mem_merge3_iff hlex).mp he
    exact .merge3 ht (Dict.get?_eq_some_iff.mpr hm) ⟨hs, g, hg, hplain⟩
  · obtain ⟨s, g, hroot, hg, hplain, rfl⟩ := (mem_map_category?_iff hlex).mp he
    exact .merge2 ht ⟨hroot, g, hg, hplain⟩
  · obtain ⟨z, m, s, g, hm, hs, hg, hplain, rfl⟩ := (mem_merge4_iff hlex).mp he
    exact .merge4 ht (Dict.get?_eq_some_iff.mpr hm) ⟨hs, g, hg, hplain⟩

theorem byRule_of_mem_adjunctions (ht : lex.Bears (some c.node) (.adjunct x) target)
    (he : e ∈ c.adjunctions lex target x) : c.ByRule lex input e := by
  rw [adjunctions] at he
  split at he
  · obtain ⟨s, g, hroot, hg, hplain, rfl⟩ := (mem_map_category?_iff hlex).mp he
    exact .merge1b ht ⟨hroot, g, hg, hplain⟩
  · exact absurd he List.not_mem_nil

theorem byRule_of_mem_movements (ht : lex.Bears (some c.node) (.licensor x) target)
    (he : e ∈ c.movements lex target x) : c.ByRule lex input e := by
  rw [movements, List.mem_append] at he
  rcases he with he | he
  · split at he
    · exact absurd he List.not_mem_nil
    · next hnew =>
      rw [Bool.not_eq_true, Dict.contains_eq_false_iff] at hnew
      obtain ⟨s, hs, rfl⟩ := List.mem_map.mp he
      obtain ⟨hroot, g, hg, hagrees⟩ := hlex.root?_eq_some_iff.mp (Option.mem_toList.mp hs)
      exact .move1 ht ⟨hroot, g, hg, (Feature.agrees_iff_plain.mp hagrees).symm⟩ hnew
  · obtain ⟨z, m, s, g, hm, hnew, hs, hg, hplain, rfl⟩ := (mem_move2_iff hlex).mp he
    exact .move2 ht hm ⟨hs, g, hg, hplain⟩ hnew

/-- Every expansion is by one of the rules. -/
theorem byRule_of_mem (he : e ∈ c.expansions lex input) : c.ByRule lex input e := by
  obtain ⟨target, htarget, he⟩ := List.mem_flatMap.mp he
  have hparent := ((mem_targets_iff hlex).mp htarget).1
  rw [expansionsAt] at he
  split at he
  · next hf =>
    obtain ⟨w, hw⟩ := exists_word?_of_feature?_eq_none hparent hf
    obtain ⟨hmovers, hinput, rfl⟩ := (mem_scan_iff hw).mp he
    exact .scan hparent hw hmovers hinput
  · next f hf =>
    have hbears {g : Feature} (hg : f.plain = g) :
        lex.Bears (some c.node) g target := ⟨hparent, f, hf, hg⟩
    split at he
    · next hsign =>
      exact byRule_of_mem_selections hlex (hbears (by rw [Feature.plain, hsign]; rfl)) he
    · next hsign =>
      exact byRule_of_mem_adjunctions hlex (hbears (by rw [Feature.plain, hsign]; rfl)) he
    · next hsign =>
      exact byRule_of_mem_movements hlex (hbears (by rw [Feature.plain, hsign]; rfl)) he
    all_goals exact absurd he List.not_mem_nil

end lists

end Category
end MinimalistGrammar
