import MinimalistGrammar.Proofs.Lexicon.Forest

/-!
# A lexicon as a forest

Every node of a lexicon stands for a trie. Adding an entry changes what is below the nodes on its
way and nothing else, so it does to the tries at the roots what sowing a row does to a forest. And
the entries of a lexicon are the rows of its forest, each read from its end.

## Main definitions

* `Lexicon.treeAt`, `Lexicon.forest` — the trie at a node, and the tries at the roots.
* `Lexicon.Sprouts` — a lexicon with more nodes below one node and no others.

## Main results

* `Lexicon.Sprouts.map_treeAt` — of the nodes side by side only one has changed.
* `Lexicon.forest_add` — adding an entry sows a row.
* `Lexicon.entries_eq` — the entries are the rows of the forest.
* `Lexicon.entries_ofEntries` — the entries of a lexicon made of entries.
-/

namespace MinimalistGrammar

namespace Lexicon

variable {lex lex' lex'' : Lexicon} {i j k c p : Nat} {f g : Feature} {w : String}

/-! ### The trie at a node -/

/-- The trie at node `i`; junk off the lexicon. -/
def treeAt (lex : Lexicon) (i : Nat) : Trie :=
  match lex.feature? i with
  | none => .word ((lex.word? i).getD "")
  | some f => .feature f <| (lex.parts i).flatMap fun p =>
      -- a part comes after its parent, so the test holds in every trie made by `add`
      if i < p ∧ p < lex.size then [lex.treeAt p] else []
termination_by lex.size - i

/-- The tries at the roots. -/
def forest (lex : Lexicon) : List Trie := lex.roots.map lex.treeAt

theorem treeAt_of_word? (h : lex.word? i = some w) : lex.treeAt i = .word w := by
  rw [treeAt, feature?_eq_none_of_word? h, h]
  rfl

theorem exists_word? (hi : i < lex.size) (h : lex.feature? i = none) :
    ∃ w, lex.word? i = some w := by
  obtain ⟨n, hn⟩ := Option.isSome_iff_exists.mp (isSome_node?_iff.mpr hi)
  obtain ⟨content, _, _⟩ := n
  cases content with
  | feature f => simp [feature?, hn, LexicalNode.feature?] at h
  | word w => exact ⟨w, by rw [word?, hn]; rfl⟩

namespace WellFormed

variable (hlex : lex.WellFormed)

include hlex

/-- A part comes after the node right above it. -/
theorem lt_of_mem_parts (h : p ∈ lex.parts i) : i < p ∧ p < lex.size :=
  ⟨hlex.parent_lt (hlex.mem_parts.mp h), lt_size_of_parent? (hlex.mem_parts.mp h)⟩

theorem lt_size_of_mem_roots (h : i ∈ lex.roots) : i < lex.size :=
  lt_size_of_feature? (hlex.mem_roots.mp h).2

/-- Words have no parts. -/
theorem parts_eq_nil (h : lex.word? i = some w) : lex.parts i = [] := by
  refine List.eq_nil_iff_forall_not_mem.mpr fun p hp => ?_
  have hfeature := hlex.isSome_feature?_of_parent? (hlex.mem_parts.mp hp)
  simp [feature?_eq_none_of_word? h] at hfeature

theorem treeAt_of_feature? (h : lex.feature? i = some f) :
    lex.treeAt i = .feature f ((lex.parts i).map lex.treeAt) := by
  rw [treeAt, h, List.map_eq_flatMap]
  exact congrArg (Trie.feature f) (List.flatMap_congr fun p hp => if_pos (hlex.lt_of_mem_parts hp))

theorem treeAt_of_parts_eq_nil (h : lex.feature? i = some f) (hparts : lex.parts i = []) :
    lex.treeAt i = .feature f [] := by
  rw [hlex.treeAt_of_feature? h, hparts, List.map_nil]

end WellFormed

theorem label_treeAt_eq_feature_iff : (lex.treeAt i).label = .feature f.plain ↔
    ∃ g, lex.feature? i = some g ∧ f.agrees g = true := by
  rw [treeAt]
  cases hg : lex.feature? i with
  | none => simp [Trie.label]
  | some g =>
    rw [Trie.label, Content.feature.injEq, eq_comm]
    simp [Feature.agrees_iff_plain]

theorem label_treeAt_eq_word_iff (hi : i < lex.size) :
    (lex.treeAt i).label = .word w ↔ lex.word? i = some w := by
  cases hf : lex.feature? i with
  | none =>
    obtain ⟨v, hv⟩ := exists_word? hi hf
    simp [treeAt_of_word? hv, hv, Trie.label]
  | some f =>
    have hw : lex.word? i ≠ some w := fun hw => by
      rw [feature?_eq_none_of_word? hw] at hf
      exact absurd hf (by simp)
    rw [treeAt, hf]
    simp [Trie.label, hw]

/-- Nodes below a node are nodes. -/
theorem IsAbove.lt_size (h : lex.IsAbove j k) (hj : j < lex.size) : k < lex.size := by
  rcases isAbove_iff.mp h with rfl | ⟨p, -, hp⟩
  · exact hj
  · exact lt_size_of_parent? hp

/-- Nodes that keep their parts, all the way down, keep their trie. -/
theorem treeAt_congr (hlex : lex.WellFormed) (hlex' : lex'.WellFormed) (hgrows : lex.Extends lex')
    (hj : j < lex.size) (hparts : ∀ k, lex.IsAbove j k → lex'.parts k = lex.parts k) :
    lex'.treeAt j = lex.treeAt j := by
  induction hn : lex.size - j using Nat.strongRecOn generalizing j with
  | _ n ih =>
    cases hf : lex.feature? j with
    | none =>
      obtain ⟨w, hw⟩ := exists_word? hj hf
      rw [treeAt_of_word? hw, treeAt_of_word? ((hgrows.word? hj).trans hw)]
    | some f =>
      rw [hlex.treeAt_of_feature? hf, hlex'.treeAt_of_feature? ((hgrows.feature? hj).trans hf),
        hparts j (IsAbove.refl lex j)]
      refine congrArg (Trie.feature f) (List.map_congr_left fun p hp => ?_)
      obtain ⟨hlt, hsize⟩ := hlex.lt_of_mem_parts hp
      have hjp : lex.IsAbove j p := (IsAbove.refl lex j).tail (hlex.mem_parts.mp hp)
      exact ih (lex.size - p) (by omega) hsize (fun k hk => hparts k (hjp.trans hk)) rfl

/-! ### More nodes below one node -/

/-- All that is new, and every node with new parts, is below node `i`. -/
structure Sprouts (lex lex' : Lexicon) (i : Nat) : Prop where
  wellFormed : lex'.WellFormed
  grows : lex.Extends lex'
  roots : lex'.roots = lex.roots
  parts {j : Nat} : j < lex.size → ¬lex.IsAbove i j → lex'.parts j = lex.parts j

theorem Sprouts.refl (hlex : lex.WellFormed) (i : Nat) : Sprouts lex lex i :=
  ⟨hlex, Extends.refl lex, rfl, fun _ _ => rfl⟩

/-- What sprouts first below a node and then below a node further down sprouts below the first. -/
theorem Sprouts.trans (h : Sprouts lex lex' i) (h' : Sprouts lex' lex'' c) (hlex : lex.WellFormed)
    (hic : lex'.IsAbove i c) : Sprouts lex lex'' i where
  wellFormed := h'.wellFormed
  grows := h.grows.trans h'.grows
  roots := h'.roots.trans h.roots
  parts hj hij := by
    have hcj : ¬lex'.IsAbove c _ := fun hcj =>
      hij ((h.grows.isAbove_iff hlex hj).mp (hic.trans hcj))
    rw [h'.parts (Nat.lt_of_lt_of_le hj h.grows.size_le) hcj, h.parts hj hij]

/-- Of two nodes above one node one is above the other. -/
theorem IsAbove.total (hi : lex.IsAbove i k) (hj : lex.IsAbove j k) :
    lex.IsAbove i j ∨ lex.IsAbove j i := by
  induction hi with
  | refl => exact Or.inr hj
  | tail hip hp ih =>
    rcases isAbove_iff.mp hj with rfl | ⟨q, hjq, hq⟩
    · exact Or.inl (hip.tail hp)
    · obtain rfl := Option.some.inj (hp.symm.trans hq)
      exact ih hjq

/-- Nodes side by side are not above each other. -/
theorem WellFormed.eq_of_isAbove (hlex : lex.WellFormed) (hparent : lex.parent? j = lex.parent? i)
    (h : lex.IsAbove i j) : j = i := by
  rcases isAbove_iff.mp h with heq | ⟨p, hip, hp⟩
  · exact heq
  · exact absurd (hlex.parent_lt (hparent.symm.trans hp)) (Nat.not_lt.mpr (hlex.le_of_isAbove hip))

namespace Sprouts

/-- A node side by side with the one that sprouts keeps its trie. -/
theorem treeAt_eq (h : Sprouts lex lex' c) (hlex : lex.WellFormed) (hj : j < lex.size)
    (hparent : lex.parent? j = lex.parent? c) (hne : j ≠ c) : lex'.treeAt j = lex.treeAt j := by
  refine treeAt_congr hlex h.wellFormed h.grows hj fun k hjk => ?_
  refine h.parts (hjk.lt_size hj) fun hck => ?_
  rcases hjk.total hck with hjc | hcj
  · exact hne (hlex.eq_of_isAbove hparent.symm hjc).symm
  · exact hne (hlex.eq_of_isAbove hparent hcj)

/-- Of the nodes side by side only the one that sprouts changes its trie. -/
theorem map_treeAt (h : Sprouts lex lex' c) (hlex : lex.WellFormed) (hg : lex.feature? c = some g)
    (hagrees : f.agrees g = true) {js : List Nat}
    (hjs : ∀ j ∈ js, j < lex.size ∧ lex.parent? j = lex.parent? c) {change : List Trie → List Trie}
    (hchange : (lex'.parts c).map lex'.treeAt = change ((lex.parts c).map lex.treeAt)) :
    js.map lex'.treeAt = (js.map lex.treeAt).map (Trie.within f change) := by
  rw [List.map_map]
  refine List.map_congr_left fun j hj => ?_
  obtain ⟨hsize, hparent⟩ := hjs j hj
  show lex'.treeAt j = Trie.within f change (lex.treeAt j)
  by_cases hjc : j = c
  · rw [hjc] at hsize ⊢
    rw [hlex.treeAt_of_feature? hg, Trie.within, if_pos hagrees,
      h.wellFormed.treeAt_of_feature? ((h.grows.feature? hsize).trans hg), hchange]
  · rw [h.treeAt_eq hlex hsize hparent hjc, Trie.within_of_label_ne]
    -- no two nodes side by side carry the same feature
    intro hlabel
    obtain ⟨g', hg', hagrees'⟩ := label_treeAt_eq_feature_iff.mp hlabel
    refine hjc (hlex.eq_of_agrees hg' hg hparent ?_)
    rw [Feature.agrees_iff_plain] at hagrees hagrees' ⊢
    exact hagrees'.symm.trans hagrees

end Sprouts

/-- A new node comes behind the other parts of the node right above it. -/
theorem sprouts_push {content : Content} (hlex : lex.WellFormed) (hi : i < lex.size)
    (hmade : (lex.push content (some i)).1.WellFormed) :
    Sprouts lex (lex.push content (some i)).1 i ∧
      ((lex.push content (some i)).1.parts i).map (lex.push content (some i)).1.treeAt =
        (lex.parts i).map lex.treeAt ++ [(lex.push content (some i)).1.treeAt lex.size] := by
  have hparent := lt_of_some_eq hi
  have hgrows : lex.Extends (lex.push content (some i)).1 := extends_push hparent lex.roots
  have hparts (j : Nat) (hj : j < lex.size) (hne : j ≠ i) :
      (lex.push content (some i)).1.parts j = lex.parts j := by
    rw [parts_push hparent, if_neg (Nat.ne_of_lt hj), if_neg (by simpa using hne.symm)]
  have hself : (lex.push content (some i)).1.parts i = lex.parts i ++ [lex.size] := by
    rw [parts_push hparent, if_neg (Nat.ne_of_lt hi), if_pos rfl]
  refine ⟨⟨hmade, hgrows, rfl, fun hj hij => ?_⟩, ?_⟩
  · refine hparts _ hj fun heq => hij ?_
    rw [heq]
    exact IsAbove.refl lex i
  · rw [hself, List.map_append, List.map_singleton]
    refine congrArg (· ++ _) (List.map_congr_left fun p hp => ?_)
    obtain ⟨hlt, hsize⟩ := hlex.lt_of_mem_parts hp
    refine treeAt_congr hlex hmade hgrows hsize fun k hpk => ?_
    have hik : i < k := Nat.lt_of_lt_of_le hlt (hlex.le_of_isAbove hpk)
    exact hparts k (hpk.lt_size hsize) (Nat.ne_of_gt hik)

/-! ### Adding an entry -/

theorem sprouts_childFor (hlex : lex.WellFormed) (hi : (lex.feature? i).isSome) (f : Feature) :
    Sprouts lex (lex.childFor i f).1 i ∧
      ((lex.childFor i f).1.parts i).map (lex.childFor i f).1.treeAt =
        Trie.withFeature f ((lex.parts i).map lex.treeAt) ∧
      (lex.childFor i f).1.parent? (lex.childFor i f).2 = some i ∧
      ∃ g, (lex.childFor i f).1.feature? (lex.childFor i f).2 = some g ∧ f.agrees g = true := by
  have hmade := (hlex.childFor hi f).1
  have hmem : .feature f.plain ∈ ((lex.parts i).map lex.treeAt).map Trie.label ↔
      ∃ c, lex.childWith? i f = some c := by
    simp only [List.map_map, List.mem_map, Function.comp_apply, label_treeAt_eq_feature_iff,
      hlex.mem_parts, hlex.childWith?_eq_some_iff]
  cases hc : lex.childWith? i f with
  | some c =>
    rw [childFor_of_some hc, Trie.withFeature, if_pos (hmem.mpr ⟨c, hc⟩)]
    obtain ⟨hp, hcarries⟩ := hlex.childWith?_eq_some_iff.mp hc
    exact ⟨Sprouts.refl hlex i, rfl, hp, hcarries⟩
  | none =>
    rw [childFor_of_none hc] at hmade ⊢
    have hsize := lt_size_of_feature? hi
    have hparent := lt_of_some_eq hsize
    obtain ⟨hsprouts, hmap⟩ := sprouts_push hlex hsize hmade
    have hf : (lex.push (.feature f) (some i)).1.feature? lex.size = some f :=
      feature?_push_size (.feature f) hparent
    rw [hmade.treeAt_of_parts_eq_nil hf (parts_push_size (.feature f) hparent)] at hmap
    rw [Trie.withFeature, if_neg (by rw [hmem, hc]; simp)]
    exact ⟨hsprouts, hmap, parent?_push_size (.feature f) hparent, f, hf,
      Feature.agrees_self f⟩

theorem sprouts_leafFor (hlex : lex.WellFormed) (hi : (lex.feature? i).isSome) (w : String) :
    Sprouts lex (lex.leafFor i w).1 i ∧
      ((lex.leafFor i w).1.parts i).map (lex.leafFor i w).1.treeAt =
        Trie.sow w [] ((lex.parts i).map lex.treeAt) := by
  have hmade := hlex.leafFor hi w
  -- the forest has the word as a leaf if and only if the lexicon finds it there
  have hmem : .word w ∈ ((lex.parts i).map lex.treeAt).map Trie.label ↔
      ∃ p ∈ lex.parts i, lex.word? p = some w := by
    rw [List.map_map, List.mem_map]
    exact exists_congr fun p => and_congr_right fun hp =>
      label_treeAt_eq_word_iff (hlex.lt_of_mem_parts hp).2
  cases hc : lex.leafWith? i w with
  | some c =>
    obtain ⟨-, hw⟩ := hlex.of_leafWith? hc
    rw [leafFor_of_some hc, Trie.sow, if_pos (hmem.mpr ⟨c, List.mem_of_find?_eq_some hc, hw⟩)]
    exact ⟨Sprouts.refl hlex i, rfl⟩
  | none =>
    rw [leafFor_of_none hc] at hmade ⊢
    have hsize := lt_size_of_feature? hi
    have hparent := lt_of_some_eq hsize
    obtain ⟨hsprouts, hmap⟩ := sprouts_push hlex hsize hmade
    have hw : (lex.push (.word w) (some i)).1.word? lex.size = some w :=
      word?_push_size (.word w) hparent
    have hnot : .word w ∉ ((lex.parts i).map lex.treeAt).map Trie.label := by
      rw [hmem]
      rintro ⟨p, hp, hpw⟩
      simpa [hpw] using List.find?_eq_none.mp hc p hp
    rw [treeAt_of_word? hw] at hmap
    rw [Trie.sow, if_neg hnot]
    exact ⟨hsprouts, hmap⟩

/-- A path of features with a word at its end sows a row below node `i`. -/
theorem sprouts_pathFor (hlex : lex.WellFormed) (hi : (lex.feature? i).isSome) (fs : List Feature)
    (w : String) :
    Sprouts lex ((lex.pathFor i fs).1.leafFor (lex.pathFor i fs).2 w).1 i ∧
      (((lex.pathFor i fs).1.leafFor (lex.pathFor i fs).2 w).1.parts i).map
          ((lex.pathFor i fs).1.leafFor (lex.pathFor i fs).2 w).1.treeAt =
        Trie.sow w fs ((lex.parts i).map lex.treeAt) := by
  induction fs generalizing lex i with
  | nil => exact sprouts_leafFor hlex hi w
  | cons f fs ih =>
    obtain ⟨hmade, hfeature⟩ := hlex.childFor hi f
    obtain ⟨hchild, hmap, hp, g, hg, hagrees⟩ := sprouts_childFor hlex hi f
    obtain ⟨hsprouts, hchange⟩ := ih hmade hfeature
    have hic : (lex.childFor i f).1.IsAbove i (lex.childFor i f).2 := (IsAbove.refl _ i).tail hp
    have hparts : ∀ j ∈ (lex.childFor i f).1.parts i, j < (lex.childFor i f).1.size ∧
        (lex.childFor i f).1.parent? j = (lex.childFor i f).1.parent? (lex.childFor i f).2 :=
      fun j hj => ⟨(hmade.lt_of_mem_parts hj).2, (hmade.mem_parts.mp hj).trans hp.symm⟩
    -- the node in the middle is not below the node further down
    have hsame : ((lex.pathFor i (f :: fs)).1.leafFor (lex.pathFor i (f :: fs)).2 w).1.parts i =
        (lex.childFor i f).1.parts i := by
      refine hsprouts.parts (hmade.parent_lt_size hp) fun hci => ?_
      exact absurd (hmade.parent_lt hp) (Nat.not_lt.mpr (hmade.le_of_isAbove hci))
    refine ⟨hchild.trans hsprouts hlex hic, ?_⟩
    rw [hsame, Trie.sow_cons, ← hmap]
    exact hsprouts.map_treeAt hmade hg hagrees hparts hchange

theorem forest_rootFor (hlex : lex.WellFormed) (f : Feature) :
    (lex.rootFor f).1.forest = Trie.withFeature f lex.forest ∧
      (lex.rootFor f).1.parent? (lex.rootFor f).2 = none ∧
      ∃ g, (lex.rootFor f).1.feature? (lex.rootFor f).2 = some g ∧ f.agrees g = true := by
  have hmade := (hlex.rootFor f).1
  -- the forest has the root if and only if the lexicon finds it
  have hmem : .feature f.plain ∈ lex.forest.map Trie.label ↔ ∃ r, lex.root? f = some r := by
    simp only [forest, List.map_map, List.mem_map, Function.comp_apply, label_treeAt_eq_feature_iff,
      hlex.mem_roots, hlex.root?_eq_some_iff]
    refine exists_congr fun r => and_congr_left ?_
    rintro ⟨g, hg, -⟩
    simp [hg]
  cases hr : lex.root? f with
  | some r =>
    obtain ⟨hp, hcarries⟩ := hlex.root?_eq_some_iff.mp hr
    rw [rootFor_of_some hr, Trie.withFeature, if_pos (hmem.mpr ⟨r, hr⟩)]
    exact ⟨rfl, hp, hcarries⟩
  | none =>
    rw [rootFor_of_none hr] at hmade ⊢
    have hparent := lt_of_none_eq lex
    rw [Trie.withFeature, if_neg (by rw [hmem, hr]; simp)]
    refine ⟨?_, parent?_push_size (.feature f) hparent, f,
      feature?_push_size (.feature f) hparent, Feature.agrees_self f⟩
    have hnew := hmade.treeAt_of_parts_eq_nil (feature?_push_size (.feature f) hparent)
      (parts_push_size (.feature f) hparent)
    rw [forest, List.map_append, List.map_singleton, hnew]
    refine congrArg (· ++ _) (List.map_congr_left fun r hr => ?_)
    have hr := hlex.lt_size_of_mem_roots hr
    refine treeAt_congr hlex hmade (extends_push hparent _) hr fun k hk => ?_
    exact (parts_push hparent k).trans (by simp [Nat.ne_of_lt (hk.lt_size hr)])

/-- Adding an entry sows a row, unless the entry has no features. -/
theorem forest_add (hlex : lex.WellFormed) (w : String) (fs : List Feature) :
    (lex.add w fs).1.forest = if fs = [] then lex.forest else Trie.sow w fs.reverse lex.forest := by
  have hmade := hlex.add w fs
  rw [add] at hmade ⊢
  split
  · next hnil =>
    rw [hnil] at hmade
    rw [if_pos (List.reverse_eq_nil_iff.mp hnil)]
    have hparent := lt_of_none_eq lex
    refine List.map_congr_left fun r hr => ?_
    have hr := hlex.lt_size_of_mem_roots hr
    refine treeAt_congr hlex hmade (extends_push hparent lex.roots) hr fun k hk => ?_
    exact (parts_push hparent k).trans (by simp [Nat.ne_of_lt (hk.lt_size hr)])
  · next last others hcons =>
    have hne : fs ≠ [] := by
      rintro rfl
      simp at hcons
    obtain ⟨hroot, hfeature⟩ := hlex.rootFor last
    obtain ⟨hforest, hp, g, hg, hagrees⟩ := forest_rootFor hlex last
    obtain ⟨hsprouts, hchange⟩ := sprouts_pathFor hroot hfeature others w
    have hroots : ∀ r ∈ (lex.rootFor last).1.roots, r < (lex.rootFor last).1.size ∧
        (lex.rootFor last).1.parent? r = (lex.rootFor last).1.parent? (lex.rootFor last).2 :=
      fun r hr => ⟨hroot.lt_size_of_mem_roots hr, (hroot.mem_roots.mp hr).1.trans hp.symm⟩
    rw [if_neg hne, hcons, Trie.sow_cons, ← hforest]
    -- the path grows below one root, and the other roots keep their trees
    refine Eq.trans ?_ (hsprouts.map_treeAt hroot hg hagrees hroots hchange)
    rw [← hsprouts.roots]
    rfl

/-! ### Entries -/

/-- A row as an entry: its features are read from the word up. -/
def entryOf (row : String × List Feature) : String × List Feature := (row.1, row.2.reverse)

/-- The entries at a node and below it are the rows of its trie, each with the features above. -/
theorem entriesFrom_eq (hlex : lex.WellFormed) (hi : i < lex.size) :
    lex.entriesFrom i = (lex.treeAt i).rows.map fun row =>
      (row.1, row.2.reverse ++ lex.featuresUp (lex.parent? i)) := by
  induction hn : lex.size - i using Nat.strongRecOn generalizing i with
  | _ n ih =>
    rw [entriesFrom]
    cases hf : lex.feature? i with
    | none =>
      obtain ⟨w, hw⟩ := exists_word? hi hf
      rw [hw, hlex.parts_eq_nil hw, treeAt_of_word? hw, hlex.featuresOf_of_word? hw]
      rfl
    | some f =>
      have hw : lex.word? i = none := by
        cases hw : lex.word? i with
        | none => rfl
        | some w =>
          rw [feature?_eq_none_of_word? hw] at hf
          exact absurd hf (by simp)
      rw [hw, hlex.treeAt_of_feature? hf, Trie.rows, Trie.rowsOf_eq, List.flatMap_map,
        List.map_flatMap, List.map_flatMap]
      refine List.flatMap_congr fun p hp => ?_
      obtain ⟨hlt, hsize⟩ := hlex.lt_of_mem_parts hp
      have hup : lex.featuresUp (lex.parent? p) = f :: lex.featuresUp (lex.parent? i) := by
        rw [hlex.mem_parts.mp hp]
        exact hlex.featuresOf_of_feature? hf
      rw [if_pos ⟨hlt, hsize⟩, ih (lex.size - p) (by omega) hsize rfl, hup, List.map_map]
      exact List.map_congr_left fun row _ => by simp [Trie.under]

/-- The entries of a lexicon are the rows of its forest. -/
theorem entries_eq (hlex : lex.WellFormed) :
    lex.entries = (Trie.rowsOf lex.forest).map entryOf := by
  rw [entries, forest, Trie.rowsOf_eq, List.flatMap_map, List.map_flatMap]
  refine List.flatMap_congr fun r hr => ?_
  rw [entriesFrom_eq hlex (hlex.lt_size_of_mem_roots hr), (hlex.mem_roots.mp hr).1]
  refine List.map_congr_left fun row _ => ?_
  rw [featuresUp, Option.elim_none, List.append_nil, entryOf]

/-- The rows of entries: their features are read from the root down. -/
def rowsFor (calls : List (String × List Feature)) : List (String × List Feature) :=
  (calls.filter fun call => !call.2.isEmpty).map fun call => (call.1, call.2.reverse)

/-- The forest of a lexicon made of entries has the rows of these, one after the other. -/
theorem forest_ofEntries (calls : List (String × List Feature)) :
    (ofEntries calls).forest = Trie.sowAll (rowsFor calls) [] := by
  induction calls using List.reverseRecOn with
  | nil => rfl
  | append_singleton calls call ih =>
    obtain ⟨w, fs⟩ := call
    rw [ofEntries_concat, forest_add (wellFormed_ofEntries calls), ih]
    cases fs with
    | nil => simp [rowsFor]
    | cons f fs => simp [rowsFor, Trie.sowAll]

theorem areGrown_forest (calls : List (String × List Feature)) :
    Trie.AreGrown (ofEntries calls).forest := by
  rw [forest_ofEntries]
  exact Trie.areGrown_sowAll _ trivial

end Lexicon
end MinimalistGrammar
