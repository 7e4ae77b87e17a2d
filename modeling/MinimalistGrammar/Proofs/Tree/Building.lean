import MinimalistGrammar.Proofs.Tree.Growth

/-!
# Building the tree of a derivation

The tree of a derivation is built from the words up without a look at the rules that were applied:
what is left of the features of a node, and the files of what still has to move, tell what to do. As
long as every licensor finds in these files what waits for it, the tree follows the derivation and
is pronounced as the derivation says. Where a licensor finds anything else, the tree does not follow
the derivation.

## Main definitions

* `Store.HasBuilt` — what a store holds of a derivation that it was built from.
* `Store.BuildsAs` — what is built of a derivation follows it if and only if the derivation is
  faithful.

## Main results

* `Store.HasBuilt.leaf`, `Store.HasBuilt.merge`, `Store.HasBuilt.move` — one step of building.
* `Store.build_spec` — the tree follows the derivation if and only if the derivation is faithful,
  and then it has its words.
-/

namespace MinimalistGrammar

/-- A record of a lexical head is that of a word. -/
theorem RecordTree.Encodes.isLexical_eq {lex : Lexicon} {tree : RecordTree} {d : Derivation}
    {p : Phrase} (h : tree.Encodes lex d) (hp : d.phrase? lex = some p) :
    tree.record.isLexical = p.isLexical := by
  have hinner {r : NodeRecord} (hr : r.isLexical = false) (hd : ¬d.IsWord) :
      r.isLexical = p.isLexical := by
    rw [hr, Bool.eq_false_iff.mpr fun hlexical => hd (Derivation.isWord_of_isLexical hp hlexical)]
  cases h with
  | word hnames =>
    obtain ⟨w, -, rfl⟩ := Option.map_eq_some_iff.mp hp
    exact hnames.isLexical
  | move hr => exact hinner hr (by rintro ⟨_, ⟨⟩⟩)
  | merge hr => exact hinner hr (by rintro ⟨_, ⟨⟩⟩)

theorem RecordTree.Encodes.size_eq {lex : Lexicon} {tree : RecordTree} {d : Derivation}
    (h : tree.Encodes lex d) : tree.size = d.size := by
  induction h with
  | word => rfl
  | move _ _ ih => rw [size, ih, Derivation.size]
  | merge _ _ _ ih₁ ih₂ => rw [size, ih₁, ih₂, Derivation.size]

namespace Store

/-- What a store `s'` holds of a derivation that was built on top of `s`, `root` being the root of
the tree: its features are those that are left of the phrase, the files are those of a rebuilt tree,
and once the movers have landed the tree is pronounced as the phrase. -/
structure HasBuilt (lex : Lexicon) (s s' : Store) (b : BuiltNode) (d : Derivation) (p : Phrase)
    (root : Outline) : Prop where
  grows : s.Grows s' b.id d.size
  extend : s.Extends s'
  outline : s'.outline? b.id = some root
  landing : root.landing = none
  features : ∃ known, root.features.map s'.open? = known.map some ∧ IsKnownOf known p.features
  range {fid : FeatureId} : fid ∈ root.features →
    s.nextFeature ≤ fid.index ∧ fid.index < s'.nextFeature
  pending (z : String) :
    b.pending.get? z = ((d.filed lex).get? z).map fun n => ⟨s.nextConstituent + n⟩
  movers {z : String} {n : Nat} : (d.waiting lex).get? z = some n →
    ∃ o, s'.outline? ⟨s.nextConstituent + n⟩ = some o ∧ ∀ fid ∈ o.features,
      (s.nextFeature ≤ fid.index ∧ fid.index < s'.nextFeature) ∧ fid ∉ root.features
  spells {s'' : Store} : s'.Settles s'' s.nextConstituent d.size (d.waiting lex) →
    s''.Spells (s.nextConstituent + d.size) b.id p.words ∧
    ∀ {z n m}, (d.waiting lex).get? z = some n → p.movers.get? z = some m →
      s''.Spells (s.nextConstituent + d.size) ⟨s.nextConstituent + n⟩ m.words

section steps

variable {lex : Lexicon} {s s₁ s₂ : Store} {b b₁ b₂ : BuiltNode} {d d₁ d₂ : Derivation}
  {p p₁ p₂ : Phrase} {root o o₁ o₂ : Outline} {path : Address} {r : NodeRecord}

theorem HasBuilt.id_eq (h : HasBuilt lex s s₁ b d p root) :
    b.id = ⟨s.nextConstituent + (d.size - 1)⟩ := by
  have hroot := h.grows.root
  have hpos := d.size_pos
  rw [h.grows.next] at hroot
  exact congrArg Ident.mk (by omega : b.id.index = s.nextConstituent + (d.size - 1))

/-- The files of a finished node. -/
theorem get?_insertAll_licensees (files : Dict String Nat) {pending : PendingMovers} {base : Nat}
    (node : Nat) {known : List Feature} (hp : d.phrase? lex = some p)
    (hknown : IsKnownOf known p.features)
    (hfiles : ∀ z, pending.get? z = (files.get? z).map fun n => ⟨base + n⟩) (z : String) :
    (if z ∈ licenseeNames known then some (⟨base + node⟩ : ConstituentId) else pending.get? z) =
      ((files.insertAll (d.licensees lex) node).get? z).map fun n => ⟨base + n⟩ := by
  rw [Dict.get?_insertAll, Derivation.licensees_eq hp, hknown.licenseeNames_eq, hfiles]
  split <;> rfl

/-- A leaf is built. -/
theorem HasBuilt.leaf {leaf : Nat} (hnames : r.Names lex leaf)
    (hp : (Derivation.word leaf).phrase? lex = some p) :
    ∃ root, HasBuilt lex s (s.build path (.leaf r)).1 (s.build path (.leaf r)).2 (.word leaf) p
      root := by
  obtain ⟨ids, houtline, hopen, hrange, hframe, hnext, hnextConstituent, hid⟩ := s.buildLeaf_spec r
  obtain ⟨w, hw, hlabel⟩ := hnames.label
  have hgrows := s.grows_build path (.leaf r)
  rw [build_leaf, hid] at hgrows ⊢
  obtain rfl : p = ⟨true, tokens w, lex.featuresOf leaf, ∅⟩ := by
    rw [Derivation.phrase?, hw, Option.map_some, Option.some.injEq] at hp
    exact hp.symm
  rw [hlabel, Option.getD_some] at houtline
  have hroot : (s.buildLeaf r).1.outline? ⟨s.nextConstituent⟩ = some ⟨w, [], ids, none⟩ := by
    rw [houtline, if_pos rfl]
  refine ⟨⟨w, [], ids, none⟩, hgrows, ⟨?_, hnext, fun {id} hlt => ?_, fun {fid} hlt => ?_⟩,
    (outline?_finishNode ..).trans hroot, rfl, ⟨r.features, hopen, hnames.features⟩,
    fun hfid => hrange _ hfid, fun z => ?_, fun hz => absurd hz (by simp [Derivation.waiting]),
    fun {s''} hs'' => ⟨?_, fun hz => absurd hz (by simp [Derivation.waiting])⟩⟩
  · rw [nextConstituent_finishNode, hnextConstituent]
    exact Nat.le_succ _
  · rw [outline?_finishNode, houtline, if_neg (ne_next_of_lt hlt)]
  · exact hframe _ hlt
  · rw [get?_finishNode hroot hopen]
    exact get?_insertAll_licensees ∅ 0 hp hnames.features (fun _ => rfl) z
  · obtain ⟨o, landing, ho, ho''⟩ := hs''.root (n := 0) rfl
    obtain rfl := Option.some.inj (ho.symm.trans ((outline?_finishNode ..).trans hroot))
    exact spells_leaf ho'' rfl

/-! ### Merges -/

/-- The active feature of a node is that of its phrase, if it is no category. -/
theorem HasBuilt.exists_active (h : HasBuilt lex s s₁ b d p root) {f : Feature}
    {features : List Feature} (hpf : p.features = f :: features) (hsign : f.sign ≠ .categorial) :
    ∃ fid f', s₁.active? b.id = some fid ∧ s₁.open? fid = some f' ∧ f'.plain = f.plain := by
  obtain ⟨known, hopen, hknown⟩ := h.features
  rw [hpf] at hknown
  obtain ⟨f', known', rfl, hplain⟩ := hknown.exists_cons hsign
  obtain ⟨fid, rest, hfeatures, hfid, -⟩ := List.map_eq_cons_iff.mp hopen
  exact ⟨fid, f', by rw [active?_eq, h.outline, Option.bind_some, hfeatures, List.head?_cons], hfid,
    hplain⟩

theorem feature?_of_open? {fid : FeatureId} {f : Feature} (h : s.open? fid = some f) :
    ∃ occurrence, s.feature? fid = some occurrence ∧ occurrence.feature = f := by
  obtain ⟨occurrence, hoccurrence, hf⟩ := Option.map_eq_some_iff.mp h
  exact ⟨occurrence, (Option.filter_eq_some_iff.mp hoccurrence).1, hf⟩

/-- Only a word adjoins, so whether the selector is a word tells on which side it is. -/
theorem snd_mergeParts {isLexical : Bool} {selector selected : ConstituentId}
    (h : (s.active? selector).bind s.sign? = some .adjunct → isLexical = true) :
    (s.mergeParts isLexical selector selected).2 =
      if isLexical then [selector, selected] else [selected, selector] := by
  rw [mergeParts]
  split
  · next hsign => rw [if_pos (h hsign)]
  · split <;> rfl

/-- The features that a node projects are open, and known of what is left of its phrase. -/
theorem HasBuilt.features_tail (h : HasBuilt lex s s₁ b d p root) {f : Feature}
    {features : List Feature} (hpf : p.features = f :: features) :
    ∃ known, (root.features.drop 1).map s₁.open? = known.map some ∧ IsKnownOf known features := by
  obtain ⟨known, hopen, hknown⟩ := h.features
  rw [hpf] at hknown
  refine ⟨known.drop 1, by rw [List.map_drop, hopen, List.map_drop], ?_⟩
  rw [List.drop_one]
  exact hknown.tail

/-- The nodes of a tree have numbers below those of later nodes. -/
theorem HasBuilt.id_lt (h : HasBuilt lex s s₁ b d p root) : b.id.index < s₁.nextConstituent := by
  rw [← h.grows.root]
  exact Nat.lt_succ_self _

/-- An older feature is none of the root, and as open as it was. -/
theorem HasBuilt.notMem_features (h : HasBuilt lex s s₁ b d p root) {fid : FeatureId}
    (hfid : fid.index < s.nextFeature) : fid ∉ root.features ∧ s₁.open? fid = s.open? fid :=
  ⟨fun hmem => absurd (h.range hmem).1 (Nat.not_le_of_lt hfid), h.extend.open? hfid⟩

section merge

variable {t : Store} (h₁ : HasBuilt lex s s₁ b₁ d₁ p₁ o₁) (h₂ : HasBuilt lex s₁ s₂ b₂ d₂ p₂ o₂)
  (hr : (Derivation.merge d₁ d₂).phrase? lex = some p)
  (hnode : ∀ id, t.outline? id = if id = ⟨s₂.nextConstituent⟩ then some root else s₂.outline? id)

include h₁ h₂ hr hnode

omit hr in
/-- The nodes of the selector are as they were built. -/
theorem HasBuilt.outline?_selector {n : Nat} (hn : n < d₁.size) :
    t.outline? ⟨s.nextConstituent + n⟩ = s₁.outline? ⟨s.nextConstituent + n⟩ := by
  have hlt : s.nextConstituent + n < s₁.nextConstituent := by
    rw [h₁.grows.next]
    exact Nat.add_lt_add_left hn _
  rw [hnode, if_neg (ne_next_of_lt (Nat.lt_of_lt_of_le hlt h₂.extend.nextConstituent)),
    h₂.extend.outline? hlt]

omit hr in
/-- The nodes of what is selected are as they were built. -/
theorem HasBuilt.outline?_selected {n : Nat} (hn : n < d₂.size) :
    t.outline? ⟨s.nextConstituent + (d₁.size + n)⟩ = s₂.outline? ⟨s₁.nextConstituent + n⟩ := by
  rw [← Nat.add_assoc, ← h₁.grows.next, hnode, if_neg]
  refine ne_next_of_lt ?_
  rw [h₂.grows.next]
  exact Nat.add_lt_add_left hn _

/-- What has landed outside a merge has landed outside the selector. -/
theorem HasBuilt.settles_selector {s'' : Store} (hs'' : t.Settles s'' s.nextConstituent
    (d₁.size + d₂.size + 1) ((Derivation.merge d₁ d₂).waiting lex)) :
    s₁.Settles s'' s.nextConstituent d₁.size (d₁.waiting lex) := by
  obtain ⟨p₁', p₂', -, -, -, -, -, hp₁, hp₂, -⟩ := Derivation.exists_of_phrase?_merge hr
  have hpos := d₂.size_pos
  have hstay {n : Nat} (hn : n < d₁.size) (hwait : ∀ z, (d₁.waiting lex).get? z ≠ some n) :
      s''.outline? ⟨s.nextConstituent + n⟩ = s₁.outline? ⟨s.nextConstituent + n⟩ := by
    rw [← h₁.outline?_selector h₂ hnode hn]
    refine hs''.stay (by omega) fun z hz => ?_
    rcases Derivation.waiting_merge_cases hr hz with rfl | hz | ⟨k, -, rfl⟩
    · omega
    · exact hwait z hz
    · omega
  refine ⟨fun hn hwait => hstay (Nat.lt_of_succ_lt hn) hwait, fun {z n} hz => ?_, fun {n} hn => ?_⟩
  · have hlt := Derivation.lt_of_waiting hp₁ hz
    obtain ⟨o, landing, ho, ho'', hlanding⟩ := hs''.go (Derivation.waiting_merge_of_selector hr hz)
    rw [h₁.outline?_selector h₂ hnode (by omega)] at ho
    exact ⟨o, landing, ho, ho'', by omega⟩
  · have hroot : s₁.outline? ⟨s.nextConstituent + n⟩ = some o₁ := by
      rw [← h₁.outline, h₁.id_eq, show n = d₁.size - 1 by omega]
    refine ⟨o₁, o₁.landing, hroot, (hstay (by omega) fun z hz => ?_).trans hroot⟩
    have hlt := Derivation.lt_of_waiting hp₁ hz
    omega

/-- What has landed outside a merge has landed outside what is selected. -/
theorem HasBuilt.settles_selected {s'' : Store} (hs'' : t.Settles s'' s.nextConstituent
    (d₁.size + d₂.size + 1) ((Derivation.merge d₁ d₂).waiting lex)) :
    s₂.Settles s'' s₁.nextConstituent d₂.size (d₂.waiting lex) := by
  obtain ⟨p₁', p₂', -, -, -, -, -, hp₁, hp₂, -⟩ := Derivation.exists_of_phrase?_merge hr
  have hshift (n : Nat) : s₁.nextConstituent + n = s.nextConstituent + (d₁.size + n) := by
    rw [h₁.grows.next, Nat.add_assoc]
  refine ⟨fun {n} hn hwait => ?_, fun {z n} hz => ?_, fun {n} hn => ?_⟩
  · rw [← h₁.outline?_selected h₂ hnode (Nat.lt_of_succ_lt hn), hshift]
    refine hs''.stay (by omega) fun z hz => ?_
    rcases Derivation.waiting_merge_cases hr hz with heq | hz | ⟨k, hk, heq⟩
    · omega
    · have hlt := Derivation.lt_of_waiting hp₁ hz
      omega
    · exact hwait z (hk.trans (congrArg some (by omega)))
  · have hlt := Derivation.lt_of_waiting hp₂ hz
    obtain ⟨o, landing, ho, ho'', hlanding⟩ := hs''.go (Derivation.waiting_merge_of_selected hr hz)
    rw [h₁.outline?_selected h₂ hnode (by omega)] at ho
    rw [← hshift] at ho''
    exact ⟨o, landing, ho, ho'', by rw [h₁.grows.next]; omega⟩
  · -- the root of what is selected may have moved
    by_cases hwait : ∃ z, ((Derivation.merge d₁ d₂).waiting lex).get? z = some (d₁.size + n)
    · obtain ⟨z, hz⟩ := hwait
      obtain ⟨o, landing, ho, ho'', -⟩ := hs''.go hz
      rw [h₁.outline?_selected h₂ hnode (by omega)] at ho
      rw [← hshift] at ho''
      exact ⟨o, _, ho, ho''⟩
    · have hroot : s₂.outline? ⟨s₁.nextConstituent + n⟩ = some o₂ := by
        rw [← h₂.outline, h₂.id_eq, show n = d₂.size - 1 by omega]
      refine ⟨o₂, o₂.landing, hroot, Eq.trans ?_ hroot⟩
      rw [← h₁.outline?_selected h₂ hnode (by omega), hshift]
      exact hs''.stay (by omega) fun z hz => hwait ⟨z, hz⟩

/-- The node of the selector stays below the merge. -/
theorem HasBuilt.spellsUnder_selector {s'' : Store} (hs'' : t.Settles s'' s.nextConstituent
    (d₁.size + d₂.size + 1) ((Derivation.merge d₁ d₂).waiting lex)) :
    s''.SpellsUnder ⟨s₂.nextConstituent⟩ b₁.id p₁.words := by
  obtain ⟨p₁', p₂', -, -, -, -, -, hp₁, hp₂, -⟩ := Derivation.exists_of_phrase?_merge hr
  have hwords := (h₁.spells (h₁.settles_selector h₂ hr hnode hs'')).1
  have hpos₁ := d₁.size_pos
  have hpos₂ := d₂.size_pos
  have hle : s.nextConstituent + d₁.size ≤ s₂.nextConstituent := by
    rw [h₂.grows.next, h₁.grows.next]
    exact Nat.le_add_right ..
  refine .stays ?_ (hwords.mono hle)
  have hstay := hs''.stay (n := d₁.size - 1) (by omega) fun z hz => ?_
  · rw [h₁.outline?_selector h₂ hnode (by omega), ← h₁.id_eq, h₁.outline] at hstay
    rw [landing?_eq hstay, h₁.landing]
  · rcases Derivation.waiting_merge_cases hr hz with heq | hz | ⟨k, -, heq⟩
    · omega
    · have hlt := Derivation.lt_of_waiting hp₁ hz
      omega
    · omega

omit hr hnode in
theorem HasBuilt.id_selected :
    b₂.id = ⟨s.nextConstituent + (d₁.size + d₂.size - 1)⟩ ∧
      s₂.nextConstituent = s.nextConstituent + (d₁.size + d₂.size) := by
  have hpos := d₂.size_pos
  rw [h₂.id_eq, h₂.grows.next, h₁.grows.next]
  exact ⟨congrArg Ident.mk (by omega), Nat.add_assoc ..⟩

/-- The node of what is selected stays below the merge as well, or it has landed elsewhere. -/
theorem HasBuilt.spellsUnder_selected {s'' : Store} (hs'' : t.Settles s'' s.nextConstituent
    (d₁.size + d₂.size + 1) ((Derivation.merge d₁ d₂).waiting lex)) :
    ((∃ z, ((Derivation.merge d₁ d₂).waiting lex).get? z = some (d₁.size + d₂.size - 1)) →
      s''.SpellsUnder ⟨s₂.nextConstituent⟩ b₂.id []) ∧
    ((∀ z, ((Derivation.merge d₁ d₂).waiting lex).get? z ≠ some (d₁.size + d₂.size - 1)) →
      s''.SpellsUnder ⟨s₂.nextConstituent⟩ b₂.id p₂.words) := by
  have hwords := (h₂.spells (h₁.settles_selected h₂ hr hnode hs'')).1
  obtain ⟨hid, hnext⟩ := h₁.id_selected h₂
  have hpos := d₂.size_pos
  constructor
  · rintro ⟨z, hz⟩
    obtain ⟨o, landing, -, ho, hlanding⟩ := hs''.go hz
    have hlands : s''.landing? b₂.id = some landing := by rw [hid, landing?_eq ho]
    refine .goes hlands ?_
    rintro rfl
    simp only at hlanding
    omega
  · intro hstays
    refine .stays ?_ (by rw [h₂.grows.next]; exact hwords)
    have hstay := hs''.stay (n := d₁.size + d₂.size - 1) (by omega) hstays
    have hlt : b₂.id.index < s₂.nextConstituent := by
      rw [← h₂.grows.root]
      exact Nat.lt_succ_self _
    rw [← hid, hnode, if_neg (ne_next_of_lt hlt), h₂.outline] at hstay
    rw [landing?_eq hstay, h₂.landing]

/-- Once all movers have landed, a merge is pronounced as the grammar says. -/
theorem HasBuilt.spells_merge (hp₁ : d₁.phrase? lex = some p₁) (hp₂ : d₂.phrase? lex = some p₂)
    (hparts : root.parts = if p₁.isLexical then [b₁.id, b₂.id] else [b₂.id, b₁.id]) {s'' : Store}
    (hs'' : t.Settles s'' s.nextConstituent (d₁.size + d₂.size + 1)
      ((Derivation.merge d₁ d₂).waiting lex)) :
    s''.Spells (s.nextConstituent + (d₁.size + d₂.size + 1)) ⟨s₂.nextConstituent⟩ p.words ∧
      ∀ {z n m}, ((Derivation.merge d₁ d₂).waiting lex).get? z = some n → p.movers.get? z = some m →
        s''.Spells (s.nextConstituent + (d₁.size + d₂.size + 1)) ⟨s.nextConstituent + n⟩
          m.words := by
  obtain ⟨hid, hnext⟩ := h₁.id_selected h₂
  have hselector := h₁.spellsUnder_selector h₂ hr hnode hs''
  obtain ⟨hgoes, hstays⟩ := h₁.spellsUnder_selected h₂ hr hnode hs''
  obtain ⟨o, landing, ho, ho''⟩ := hs''.root (n := d₁.size + d₂.size) rfl
  rw [← hnext, hnode, if_pos rfl] at ho
  obtain rfl := Option.some.inj ho
  rw [← hnext] at ho''
  constructor
  · -- the order of the parts is that of their words
    have hbeside {words : List String}
        (hselected : s''.SpellsUnder ⟨s₂.nextConstituent⟩ b₂.id words) :
        s''.Spells (s.nextConstituent + (d₁.size + d₂.size + 1)) ⟨s₂.nextConstituent⟩
          (Phrase.beside (if p₁.isLexical then .right else .left) p₁.words words) := by
      rw [← Nat.add_assoc, ← hnext]
      cases hlexical : p₁.isLexical with
      | true =>
        rw [hlexical, if_pos rfl] at hparts
        exact spells_pair ho'' hparts hselector hselected
      | false =>
        rw [hlexical] at hparts
        exact spells_pair ho'' hparts hselected hselector
    rcases Derivation.words_merge_cases hr hp₁ hp₂ with ⟨hwords, hwait⟩ | ⟨hwords, hwait⟩
    · rw [hwords]
      exact hbeside (hstays hwait)
    · have hspells := hbeside (hgoes hwait)
      rw [hwords]
      cases hlexical : p₁.isLexical with
      | true =>
        rw [hlexical, if_pos rfl, Phrase.beside, List.append_nil] at hspells
        exact hspells
      | false =>
        rw [hlexical] at hspells
        exact hspells
  · intro z n m hn hm
    obtain ⟨hwords₁, hmovers₁⟩ := h₁.spells (h₁.settles_selector h₂ hr hnode hs'')
    obtain ⟨hwords₂, hmovers₂⟩ := h₂.spells (h₁.settles_selected h₂ hr hnode hs'')
    rw [h₁.grows.next, Nat.add_assoc] at hwords₂
    rcases Derivation.mover_merge_cases hr hp₁ hp₂ hn hm with ⟨rfl, rfl⟩ | ⟨hn, hm⟩ |
      ⟨k, hk, hm, rfl⟩
    · rw [← hid]
      exact hwords₂.mono (by omega)
    · exact (hmovers₁ hn hm).mono (by omega)
    · have hspells := hmovers₂ hk hm
      rw [h₁.grows.next, Nat.add_assoc, Nat.add_assoc] at hspells
      exact hspells.mono (by omega)

omit h₁ hr in
/-- A merge leaves the nodes and the features of the selector as they were. -/
theorem HasBuilt.extends_merge (hnext : t.nextConstituent = s₂.nextConstituent + 1)
    (hnextFeature : t.nextFeature = s₂.nextFeature)
    (hopen : ∀ fid ∉ o₂.features, t.open? fid = s₂.open? fid) : s₁.Extends t where
  nextConstituent := Nat.le_trans h₂.extend.nextConstituent (hnext ▸ Nat.le_succ _)
  nextFeature := hnextFeature ▸ h₂.extend.nextFeature
  outline? {id} hlt := by
    rw [hnode, if_neg (ne_next_of_lt (Nat.lt_of_lt_of_le hlt h₂.extend.nextConstituent)),
      h₂.extend.outline? hlt]
  open? {fid} hlt := by
    obtain ⟨hmem, hold⟩ := h₂.notMem_features hlt
    exact (hopen fid hmem).trans hold

/-- What waits in a merge has features of its own. -/
theorem HasBuilt.movers_merge (hp₁ : d₁.phrase? lex = some p₁) (hp₂ : d₂.phrase? lex = some p₂)
    (hnextFeature : t.nextFeature = s₂.nextFeature) {z : String} {n : Nat}
    (hz : ((Derivation.merge d₁ d₂).waiting lex).get? z = some n) :
    ∃ o, t.outline? ⟨s.nextConstituent + n⟩ = some o ∧ ∀ fid ∈ o.features,
      (s.nextFeature ≤ fid.index ∧ fid.index < t.nextFeature) ∧ fid ∉ o₁.features.drop 1 := by
  -- what is built with what is selected is newer than the features of the selector
  have hnew {o : Outline} (ho : ∀ fid ∈ o.features, s₁.nextFeature ≤ fid.index ∧
      fid.index < s₂.nextFeature) (fid : FeatureId) (hfid : fid ∈ o.features) :
      (s.nextFeature ≤ fid.index ∧ fid.index < t.nextFeature) ∧ fid ∉ o₁.features.drop 1 := by
    obtain ⟨hle, hlt⟩ := ho fid hfid
    refine ⟨⟨Nat.le_trans h₁.extend.nextFeature hle, hnextFeature ▸ hlt⟩, fun hmem => ?_⟩
    exact absurd (h₁.range (List.mem_of_mem_drop hmem)).2 (Nat.not_lt_of_le hle)
  rcases Derivation.waiting_merge_cases hr hz with rfl | hz | ⟨k, hk, rfl⟩
  · obtain ⟨hid₂, -⟩ := h₁.id_selected h₂
    refine ⟨o₂, ?_, hnew fun fid hfid => h₂.range hfid⟩
    rw [← hid₂, hnode, if_neg (ne_next_of_lt h₂.id_lt), h₂.outline]
  · obtain ⟨o, ho, hfeatures⟩ := h₁.movers hz
    refine ⟨o, ?_, fun fid hfid => ?_⟩
    · rw [h₁.outline?_selector h₂ hnode (Nat.lt_of_succ_lt (Derivation.lt_of_waiting hp₁ hz)), ho]
    · obtain ⟨⟨hle, hlt⟩, hmem⟩ := hfeatures fid hfid
      exact ⟨⟨hle, hnextFeature ▸ Nat.lt_of_lt_of_le hlt h₂.extend.nextFeature⟩,
        fun h => hmem (List.mem_of_mem_drop h)⟩
  · obtain ⟨o, ho, hfeatures⟩ := h₂.movers hk
    refine ⟨o, ?_, hnew fun fid hfid => (hfeatures fid hfid).1⟩
    rw [h₁.outline?_selected h₂ hnode (Nat.lt_of_succ_lt (Derivation.lt_of_waiting hp₂ hk)), ho]

omit hr hnode in
/-- The files of the parts are united. -/
theorem HasBuilt.pending_merge (z : String) : (b₁.pending.unite b₂.pending).get? z =
    (((d₁.filed lex).unite ((d₂.filed lex).map (d₁.size + ·))).get? z).map
      fun n => ⟨s.nextConstituent + n⟩ := by
  rw [Dict.get?_unite, Dict.get?_unite, h₁.pending, h₂.pending, Dict.get?_map, h₁.grows.next]
  cases (d₁.filed lex).get? z with
  | some n => rfl
  | none =>
    cases (d₂.filed lex).get? z with
    | none => rfl
    | some n => exact congrArg (some <| Ident.mk ·) (Nat.add_assoc ..)

end merge

/-- The selector is on the side that tells whether it is a word. -/
theorem HasBuilt.snd_mergeParts (h₁ : HasBuilt lex s s₁ b₁ d₁ p₁ o₁)
    (h₂ : HasBuilt lex s₁ s₂ b₂ d₂ p₂ o₂) {f : Feature} {features : List Feature}
    (hpf : p₁.features = f :: features)
    (hsign : f.sign = .selector ∨ f.sign = .adjunct ∧ p₁.isLexical = true) :
    (s₂.mergeParts p₁.isLexical b₁.id b₂.id).2 =
      if p₁.isLexical then [b₁.id, b₂.id] else [b₂.id, b₁.id] := by
  have hne : f.sign ≠ .categorial := by
    rcases hsign with h | ⟨h, -⟩ <;> rw [h] <;> decide
  obtain ⟨fid, f', hactive, hopen, hplain⟩ := h₁.exists_active hpf hne
  refine Store.snd_mergeParts fun hadjunct => ?_
  -- the active feature is still the same, and still open
  have hactive₂ : s₂.active? b₁.id = some fid := by
    rw [active?_eq, h₂.extend.outline? h₁.id_lt, ← active?_eq, hactive]
  have hmem : fid ∈ o₁.features := by
    rw [active?_eq, h₁.outline, Option.bind_some] at hactive
    exact List.mem_of_head? hactive
  rw [← (h₂.notMem_features (h₁.range hmem).2).2] at hopen
  obtain ⟨occurrence, hoccurrence, rfl⟩ := feature?_of_open? hopen
  rw [hactive₂, Option.bind_some, sign?, hoccurrence, Option.map_some,
    Option.some.injEq] at hadjunct
  rcases hsign with hselector | ⟨-, hlexical⟩
  · have hsign : occurrence.feature.plain.sign = f.plain.sign := congrArg Feature.sign hplain
    rw [Feature.plain, Feature.plain, hadjunct, hselector] at hsign
    exact absurd hsign (by decide)
  · exact hlexical

/-- A merge is built. -/
theorem HasBuilt.merge (h₁ : HasBuilt lex s s₁ b₁ d₁ p₁ o₁) (h₂ : HasBuilt lex s₁ s₂ b₂ d₂ p₂ o₂)
    (hp₁ : d₁.phrase? lex = some p₁) (hp₂ : d₂.phrase? lex = some p₂)
    (hr : (Derivation.merge d₁ d₂).phrase? lex = some p) (nodes : List (Address × ConstituentId)) :
    let m := s₂.buildMerge r p₁.isLexical b₁.id b₂.id
    let f := m.1.finishNode path m.2 (b₁.pending.unite b₂.pending)
    ∃ root, HasBuilt lex s f.1 { id := m.2, pending := f.2, nodes } (.merge d₁ d₂) p root := by
  intro m f
  obtain ⟨p₁', p₂', g, features, g', rest, movers, hp₁', hp₂', hpf, -, hsign, hplace, -⟩ :=
    Derivation.exists_of_phrase?_merge hr
  obtain rfl := Option.some.inj (hp₁.symm.trans hp₁')
  obtain rfl := Option.some.inj (hp₂.symm.trans hp₂')
  obtain ⟨hnext, hnextFeature, hid⟩ : m.1.nextConstituent = s₂.nextConstituent + 1 ∧
    m.1.nextFeature = s₂.nextFeature ∧ m.2 = ⟨s₂.nextConstituent⟩ := s₂.next_buildMerge ..
  obtain ⟨-, hnext₂⟩ := h₁.id_selected h₂
  -- the new node takes over what is left of the features of the selector
  have hprojected : s₂.projected b₁.id = o₁.features.drop 1 := by
    rw [projected_eq, h₂.extend.outline? h₁.id_lt, h₁.outline, Option.elim_some]
  have hnode (id : ConstituentId) : f.1.outline? id = if id = ⟨s₂.nextConstituent⟩ then
      some ⟨(s₂.mergeParts p₁.isLexical b₁.id b₂.id).1, (s₂.mergeParts p₁.isLexical b₁.id b₂.id).2,
        o₁.features.drop 1, none⟩ else s₂.outline? id := by
    rw [← hprojected]
    exact (outline?_finishNode ..).trans (outline?_buildMerge ..)
  have hextends : s₁.Extends f.1 := h₂.extends_merge hnode hnext hnextFeature fun fid hfid =>
    open?_buildMerge _ _ _ _ _ fun o ho => by
      rw [h₂.outline, Option.some.injEq] at ho
      exact ho ▸ hfid
  obtain ⟨known, hfeatures, hknown⟩ := h₁.features_tail hpf
  rw [← (Phrase.features_of_place? hplace).2] at hknown
  have hroot : f.1.outline? m.2 = some _ := (hnode m.2).trans (if_pos hid)
  -- these are not checked when the other part is built, nor by the merge
  have hopen : (o₁.features.drop 1).map f.1.open? = known.map some := by
    rw [← hfeatures]
    exact List.map_congr_left fun fid hmem => hextends.open?
      (h₁.range (List.mem_of_mem_drop hmem)).2
  refine ⟨_, ?grows, h₁.extend.trans hextends, hroot, rfl, ⟨known, hopen, hknown⟩, ?range, ?pending,
    h₁.movers_merge h₂ hr hnode hp₁ hp₂ hnextFeature, ?spells⟩
  case grows =>
    refine (h₁.grows.trans h₂.grows).succ hnext hid fun id hne => body?_congr id ?_
    rw [hnode, if_neg hne]
  case range =>
    intro fid hmem
    obtain ⟨hle, hlt⟩ := h₁.range (List.mem_of_mem_drop hmem)
    exact ⟨hle, Nat.lt_of_lt_of_le hlt hextends.nextFeature⟩
  case pending =>
    intro z
    rw [get?_finishNode ((outline?_finishNode ..).symm.trans hroot) hopen, hid, hnext₂]
    exact get?_insertAll_licensees _ _ hr hknown (h₁.pending_merge h₂) z
  case spells =>
    intro s'' hs''
    rw [hid]
    exact h₁.spells_merge h₂ hr hnode hp₁ hp₂ (h₁.snd_mergeParts h₂ hpf hsign) hs''

/-! ### Movements -/

/-- A licensor attracts what is filed under its name. -/
theorem HasBuilt.attracted?_eq (h : HasBuilt lex s s₁ b d p root) {f : Feature}
    {features : List Feature} (hpf : p.features = f :: features) (hsign : f.sign = .licensor) :
    s₁.attracted? b.id b.pending = (b.pending.get? f.name).map fun mover => (f.name, mover) := by
  obtain ⟨fid, f', hactive, hopen, hplain⟩ := h.exists_active hpf (by rw [hsign]; decide)
  obtain ⟨occurrence, hoccurrence, rfl⟩ := feature?_of_open? hopen
  have hsign' : occurrence.feature.plain.sign = f.plain.sign := congrArg Feature.sign hplain
  have hname : occurrence.feature.plain.name = f.plain.name := congrArg Feature.name hplain
  rw [Feature.plain, Feature.plain] at hsign' hname
  simp only at hsign' hname
  rw [attracted?, activeFeature?, hactive, Option.bind_some, hoccurrence]
  simp only [Option.bind_eq_bind, Option.bind_some, hsign', hsign, if_true, hname]
  cases b.pending.get? f.name <;> rfl

section move

variable {part : Derivation} {q : Phrase} {t : Store} {f : Feature} {m : Moved} {node : Nat}
  {om : Outline} (h₁ : HasBuilt lex s s₁ b₁ part q o₁) (hq : part.phrase? lex = some q)
  (hr : (Derivation.move part).phrase? lex = some p)
  (hx : part.attracted? lex = some (f.name, m)) (hw : (part.waiting lex).get? f.name = some node)
  (hm : q.movers.get? f.name = some m) (hom : s₁.outline? ⟨s.nextConstituent + node⟩ = some om)
  (hnode : ∀ id, t.outline? id = if id = ⟨s₁.nextConstituent⟩ then some root
    else if id = ⟨s.nextConstituent + node⟩ then
      some { om with landing := some ⟨s₁.nextConstituent⟩ }
    else s₁.outline? id)

include h₁ hq hr hx hw hom hnode

omit hq hr hx hw hom in
/-- All nodes but the mover are as they were built. -/
theorem HasBuilt.outline?_part {n : Nat} (hn : n < part.size) (hne : n ≠ node) :
    t.outline? ⟨s.nextConstituent + n⟩ = s₁.outline? ⟨s.nextConstituent + n⟩ := by
  rw [hnode, if_neg, if_neg]
  · intro heq
    exact hne (Nat.add_left_cancel (congrArg Ident.index heq))
  · refine ne_next_of_lt ?_
    rw [h₁.grows.next]
    exact Nat.add_lt_add_left hn _

omit hr hx hom in
/-- The mover has landed below the new node. -/
theorem HasBuilt.outline?_mover : t.outline? ⟨s.nextConstituent + node⟩ =
    some { om with landing := some ⟨s₁.nextConstituent⟩ } := by
  rw [hnode, if_neg, if_pos rfl]
  refine ne_next_of_lt ?_
  have hlt := Derivation.lt_of_waiting hq hw
  rw [h₁.grows.next]
  simp only
  omega

/-- What has landed outside a movement has landed outside the part, and so has what is attracted. -/
theorem HasBuilt.settles_part {s'' : Store} (hs'' : t.Settles s'' s.nextConstituent (part.size + 1)
    ((Derivation.move part).waiting lex)) :
    s₁.Settles s'' s.nextConstituent part.size (part.waiting lex) := by
  have hwait {z : String} {n : Nat} (hn : n ≠ node)
      (hz : ((Derivation.move part).waiting lex).get? z = some n) :
      (part.waiting lex).get? z = some n := by
    rcases Derivation.waiting_move_cases hx hw hz with ⟨rfl, -⟩ | ⟨-, hz⟩
    · exact absurd rfl hn
    · exact hz
  have hltNode := Derivation.lt_of_waiting hq hw
  have hstay {n : Nat} (hn : n < part.size) (hne : n ≠ node)
      (hstay : ∀ z, (part.waiting lex).get? z ≠ some n) :
      s''.outline? ⟨s.nextConstituent + n⟩ = s₁.outline? ⟨s.nextConstituent + n⟩ := by
    rw [← h₁.outline?_part hnode hn hne]
    exact hs''.stay (Nat.succ_lt_succ hn) fun z hz => hstay z (hwait hne hz)
  refine ⟨fun {n} hn hstays => ?_, fun {z n} hz => ?_, fun {n} hn => ?_⟩
  · refine hstay (Nat.lt_of_succ_lt hn) ?_ hstays
    rintro rfl
    exact hstays f.name hw
  · have hlt := Derivation.lt_of_waiting hq hz
    by_cases hne : n = node
    · -- what is attracted has landed at the new node, or it has moved on
      subst hne
      by_cases hon : ∃ z, ((Derivation.move part).waiting lex).get? z = some n
      · obtain ⟨z, hz⟩ := hon
        obtain ⟨o, landing, ho, ho'', hlanding⟩ := hs''.go hz
        rw [h₁.outline?_mover hq hw hnode, Option.some.injEq] at ho
        subst ho
        exact ⟨om, landing, hom, ho'', by omega⟩
      · refine ⟨om, ⟨s₁.nextConstituent⟩, hom, ?_, Nat.le_of_eq h₁.grows.next.symm⟩
        rw [hs''.stay (by omega) fun z hz => hon ⟨z, hz⟩, h₁.outline?_mover hq hw hnode]
    · have hzf : z ≠ f.name := by
        rintro rfl
        exact hne (Option.some.inj (hz.symm.trans hw))
      obtain ⟨o, landing, ho, ho'', hlanding⟩ :=
        hs''.go (Derivation.waiting_move_of_ne hr hx hw hzf hz)
      rw [h₁.outline?_part hnode (by omega) hne] at ho
      exact ⟨o, landing, ho, ho'', by omega⟩
  · have hroot : s₁.outline? ⟨s.nextConstituent + n⟩ = some o₁ := by
      rw [← h₁.outline, h₁.id_eq, show n = part.size - 1 by omega]
    refine ⟨o₁, o₁.landing, hroot, (hstay (by omega) (by omega) fun z hz => ?_).trans hroot⟩
    have hlt := Derivation.lt_of_waiting hq hz
    omega

include hm in
/-- Once all movers have landed, a movement is pronounced as the grammar says. -/
theorem HasBuilt.spells_move (hparts : root.parts = [⟨s.nextConstituent + node⟩, b₁.id])
    {s'' : Store} (hs'' : t.Settles s'' s.nextConstituent (part.size + 1)
      ((Derivation.move part).waiting lex)) :
    s''.Spells (s.nextConstituent + (part.size + 1)) ⟨s₁.nextConstituent⟩ p.words ∧
      ∀ {z n m}, ((Derivation.move part).waiting lex).get? z = some n → p.movers.get? z = some m →
        s''.Spells (s.nextConstituent + (part.size + 1)) ⟨s.nextConstituent + n⟩ m.words := by
  obtain ⟨hwords, hmovers⟩ := h₁.spells (h₁.settles_part hq hr hx hw hom hnode hs'')
  have hmover := hmovers hw hm
  have hpos := part.size_pos
  have hltNode := Derivation.lt_of_waiting hq hw
  have hnext := h₁.grows.next
  constructor
  · obtain ⟨o, landing, ho, ho''⟩ := hs''.root (n := part.size) rfl
    rw [← hnext, hnode, if_pos rfl] at ho
    obtain rfl := Option.some.inj ho
    rw [← hnext] at ho''
    rw [← hnext] at hwords hmover
    -- the part never lands: what waits is below it
    have hpart : s''.SpellsUnder ⟨s₁.nextConstituent⟩ b₁.id q.words := by
      refine .stays ?_ hwords
      have hstay := hs''.stay (n := part.size - 1) (by omega) fun z hz => ?_
      · rw [h₁.outline?_part hnode (by omega) (by omega), ← h₁.id_eq, h₁.outline] at hstay
        rw [landing?_eq hstay, h₁.landing]
      · rcases Derivation.waiting_move_cases hx hw hz with ⟨heq, -⟩ | ⟨-, hz⟩
        · omega
        · have hlt := Derivation.lt_of_waiting hq hz
          omega
    rw [← Nat.add_assoc, ← hnext]
    -- the mover stays where it has landed, or it still waits
    rcases Derivation.words_move_cases hr hx hw hq with ⟨hpwords, hstays⟩ | ⟨hpwords, z, hz⟩
    · have hlands : s''.SpellsUnder ⟨s₁.nextConstituent⟩ ⟨s.nextConstituent + node⟩ m.words := by
        refine .lands ?_ hmover
        have hstay := hs''.stay (n := node) (by omega) hstays
        rw [h₁.outline?_mover hq hw hnode] at hstay
        exact landing?_eq hstay
      rw [hpwords]
      exact spells_pair ho'' hparts hlands hpart
    · obtain ⟨o, landing, -, ho, hlanding⟩ := hs''.go hz
      have hgoes : s''.SpellsUnder ⟨s₁.nextConstituent⟩ ⟨s.nextConstituent + node⟩ [] := by
        refine .goes (landing?_eq ho) ?_
        rintro rfl
        simp only at hlanding
        omega
      rw [hpwords]
      exact spells_pair ho'' hparts hgoes hpart
  · intro z n m' hn hm'
    rcases Derivation.mover_move_cases hr hx hw hq hn hm' with ⟨rfl, rfl⟩ | ⟨-, hn, hm'⟩
    · exact hmover.mono (by omega)
    · exact (hmovers hn hm').mono (by omega)

omit hq hr hx hw hom in
/-- A movement leaves the nodes and the features that were there before its part as they were. -/
theorem HasBuilt.extends_move (hnext : t.nextConstituent = s₁.nextConstituent + 1)
    (hnextFeature : t.nextFeature = s₁.nextFeature)
    (homFeatures : ∀ fid ∈ om.features, s.nextFeature ≤ fid.index)
    (hopen : ∀ fid ∉ om.features, t.open? fid = s₁.open? fid) : s.Extends t where
  nextConstituent := Nat.le_trans h₁.extend.nextConstituent (hnext ▸ Nat.le_succ _)
  nextFeature := hnextFeature ▸ h₁.extend.nextFeature
  outline? {id} hlt := by
    rw [hnode, if_neg (ne_next_of_lt (Nat.lt_of_lt_of_le hlt h₁.extend.nextConstituent)), if_neg,
      h₁.extend.outline? hlt]
    rintro rfl
    exact absurd hlt (Nat.not_lt_of_le (Nat.le_add_right ..))
  open? {fid} hlt := by
    rw [hopen fid fun hfid => absurd (homFeatures fid hfid) (Nat.not_le_of_lt hlt),
      h₁.extend.open? hlt]

omit hr in
/-- What waits in a movement, be it what has landed, has features of its own. -/
theorem HasBuilt.movers_move (hnextFeature : t.nextFeature = s₁.nextFeature) {z : String} {n : Nat}
    (hz : ((Derivation.move part).waiting lex).get? z = some n) :
    ∃ o, t.outline? ⟨s.nextConstituent + n⟩ = some o ∧ ∀ fid ∈ o.features,
      (s.nextFeature ≤ fid.index ∧ fid.index < t.nextFeature) ∧ fid ∉ o₁.features.drop 1 := by
  have hold {o : Outline} (ho : ∀ fid ∈ o.features,
      (s.nextFeature ≤ fid.index ∧ fid.index < s₁.nextFeature) ∧ fid ∉ o₁.features)
      (fid : FeatureId) (hfid : fid ∈ o.features) :
      (s.nextFeature ≤ fid.index ∧ fid.index < t.nextFeature) ∧ fid ∉ o₁.features.drop 1 := by
    obtain ⟨hrange, hmem⟩ := ho fid hfid
    exact ⟨hnextFeature ▸ hrange, fun h => hmem (List.mem_of_mem_drop h)⟩
  rcases Derivation.waiting_move_cases hx hw hz with ⟨rfl, -⟩ | ⟨hzf, hz⟩
  · obtain ⟨o, ho, hoFeatures⟩ := h₁.movers hw
    obtain rfl := Option.some.inj (ho.symm.trans hom)
    exact ⟨_, h₁.outline?_mover hq hw hnode, hold hoFeatures⟩
  · obtain ⟨o, ho, hoFeatures⟩ := h₁.movers hz
    have hne : n ≠ node := by
      rintro rfl
      exact hzf (Derivation.waiting_injective hq hz hw)
    refine ⟨o, ?_, hold hoFeatures⟩
    rw [h₁.outline?_part hnode (Nat.lt_of_succ_lt (Derivation.lt_of_waiting hq hz)) hne, ho]

omit hq hr hx hw hom hnode in
/-- What is attracted is taken from the files. -/
theorem HasBuilt.pending_move (x z : String) : (b₁.pending.erase x).get? z =
    (((part.filed lex).erase x).get? z).map fun n => ⟨s.nextConstituent + n⟩ := by
  by_cases hz : z = x
  · rw [hz, Dict.get?_erase_self, Dict.get?_erase_self]
    rfl
  · rw [Dict.get?_erase_of_ne hz, h₁.pending, Dict.get?_erase_of_ne hz]

end move

/-- A movement is built, if the licensor finds what waits for it. -/
theorem HasBuilt.move {part : Derivation} {q : Phrase} {f : Feature} {features : List Feature}
    {m : Moved} {node : Nat} (h₁ : HasBuilt lex s s₁ b₁ part q o₁) (hq : part.phrase? lex = some q)
    (hr : (Derivation.move part).phrase? lex = some p) (hqf : q.features = f :: features)
    (hpf : p.features = features) (hm : q.movers.get? f.name = some m)
    (hx : part.attracted? lex = some (f.name, m)) (hw : (part.waiting lex).get? f.name = some node)
    (nodes : List (Address × ConstituentId)) :
    let u := s₁.buildMove r b₁.id ⟨s.nextConstituent + node⟩ f.name
    let t := u.1.finishNode path u.2 (b₁.pending.erase f.name)
    ∃ root, HasBuilt lex s t.1 { id := u.2, pending := t.2, nodes } (.move part) p root := by
  intro u t
  obtain ⟨hnext, hnextFeature, hid⟩ : u.1.nextConstituent = s₁.nextConstituent + 1 ∧
    u.1.nextFeature = s₁.nextFeature ∧ u.2 = ⟨s₁.nextConstituent⟩ := s₁.next_buildMove ..
  obtain ⟨om, hom, homFeatures⟩ := h₁.movers hw
  have hprojected : s₁.projected b₁.id = o₁.features.drop 1 := by
    rw [projected_eq, h₁.outline, Option.elim_some]
  -- the mover is older than the node to which it moves
  have hltNode : s.nextConstituent + node < s₁.nextConstituent := by
    have hlt := Derivation.lt_of_waiting hq hw
    rw [h₁.grows.next]
    omega
  have hnode (id : ConstituentId) : t.1.outline? id = if id = ⟨s₁.nextConstituent⟩ then
      some ⟨headRight, [⟨s.nextConstituent + node⟩, b₁.id], o₁.features.drop 1, none⟩
      else if id = ⟨s.nextConstituent + node⟩ then
        some { om with landing := some ⟨s₁.nextConstituent⟩ }
      else s₁.outline? id := by
    rw [← hprojected]
    exact (outline?_finishNode ..).trans (outline?_buildMove_eq _ _ _ _ _ _ hom hltNode)
  have hopen (fid : FeatureId) (hmem : fid ∉ om.features) : t.1.open? fid = s₁.open? fid := by
    refine (open?_finishNode ..).trans (open?_buildMove _ _ _ _ _ fun o ho => ?_)
    rw [hom, Option.some.injEq] at ho
    exact ho ▸ hmem
  have hroot : t.1.outline? u.2 = some _ := (hnode u.2).trans (if_pos hid)
  obtain ⟨known, hfeatures, hknown⟩ := h₁.features_tail hqf
  rw [← hpf] at hknown
  -- the movement changes no features but those of the mover, which are not the part's
  have hfeatures' : (o₁.features.drop 1).map t.1.open? = known.map some := by
    rw [← hfeatures]
    refine List.map_congr_left fun fid hmem => hopen fid fun hfid => ?_
    exact (homFeatures fid hfid).2 (List.mem_of_mem_drop hmem)
  refine ⟨_, ?grows, ?extend, hroot, rfl, ⟨known, hfeatures', hknown⟩, ?range, ?pending,
    h₁.movers_move hq hx hw hom hnode hnextFeature, ?spells⟩
  case grows =>
    refine h₁.grows.succ hnext hid fun id hne => ?_
    rw [body?_congr id (outline?_finishNode ..), body?_buildMove, if_neg hne]
  case extend =>
    exact h₁.extends_move hnode hnext hnextFeature
      (fun fid hfid => (homFeatures fid hfid).1.1) hopen
  case range => exact fun hmem => hnextFeature ▸ h₁.range (List.mem_of_mem_drop hmem)
  case pending =>
    intro z
    rw [get?_finishNode ((outline?_finishNode ..).symm.trans hroot) hfeatures', hid, h₁.grows.next,
      Derivation.filed, hx]
    exact get?_insertAll_licensees _ _ hr hknown (h₁.pending_move f.name) z
  case spells =>
    intro s'' hs''
    rw [hid]
    exact h₁.spells_move hq hr hx hw hm hom hnode rfl hs''

end steps

/-! ### Whole trees -/

section build

variable {lex : Lexicon} {tree left right : RecordTree} {part selector selected : Derivation}
  {p q : Phrase} {r : NodeRecord} {s s₁ s' : Store} {path : Address}

/-- What is built of `tree` follows the derivation `d` if and only if `d` is faithful, and then the
store holds what `d` derives. -/
structure BuildsAs (lex : Lexicon) (s : Store) (path : Address) (tree : RecordTree) (d : Derivation)
    (p : Phrase) : Prop where
  follows : (s.build path tree).1.Follows lex s.nextConstituent d ↔ d.isFaithful lex = true
  built : d.isFaithful lex = true →
    ∃ root, HasBuilt lex s (s.build path tree).1 (s.build path tree).2 d p root

/-- Newer nodes do not change whether a tree follows its derivation. -/
theorem Grows.follows_iff (lex : Lexicon) {d : Derivation} {root : ConstituentId}
    (h : s.Grows s₁ root d.size)
    (hbody : ∀ id : ConstituentId, id.index < s₁.nextConstituent → s'.body? id = s₁.body? id) :
    s'.Follows lex s.nextConstituent d ↔ s₁.Follows lex s.nextConstituent d := by
  refine follows_congr fun n hn => hbody _ ?_
  rw [h.next]
  exact Nat.add_lt_add_left hn _

/-- A leaf has its word. -/
theorem follows_leaf {leaf : Nat} (hnames : r.Names lex leaf) (s : Store) (path : Address) :
    (s.build path (.leaf r)).1.Follows lex s.nextConstituent (.word leaf) := by
  obtain ⟨w, hw, hlabel⟩ := hnames.label
  obtain ⟨ids, houtline, -⟩ := s.buildLeaf_spec r
  refine ⟨w, hw, ?_⟩
  rw [build_leaf, body?, outline?_finishNode, houtline, if_pos rfl, hlabel]
  rfl

/-- A node with one part takes the mover that waits for its licensor if and only if that mover is on
file. -/
theorem HasBuilt.attracts_iff {b : BuiltNode} {root : Outline} {f : Feature}
    {features : List Feature} {node : Nat} (h : HasBuilt lex s s₁ b part q root)
    (hqf : q.features = f :: features) (hsign : f.sign = .licensor) :
    (s₁.attracted? b.id b.pending).elim (unary, [b.id]) (fun x => (headRight, [x.2, b.id])) =
        (headRight, [⟨s.nextConstituent + node⟩, ⟨s.nextConstituent + (part.size - 1)⟩]) ↔
      (part.filed lex).get? f.name = some node := by
  rw [h.attracted?_eq hqf hsign, h.pending, h.id_eq]
  cases (part.filed lex).get? f.name with
  | none =>
    exact iff_of_false
      (fun heq => absurd (congrArg Prod.fst heq) (show unary ≠ headRight by decide)) nofun
  | some k =>
    constructor
    · intro heq
      obtain ⟨hk, -⟩ := List.cons.inj (congrArg Prod.snd heq)
      exact congrArg some (Nat.add_left_cancel (congrArg Ident.index hk))
    · rintro ⟨⟩
      rfl

/-- A movement follows the derivation if and only if its part does and the licensor finds what waits
for it. -/
theorem BuildsAs.move (h : s.BuildsAs lex path.left tree part q) (hsize : tree.size = part.size)
    (hr : (Derivation.move part).phrase? lex = some p) (hq : part.phrase? lex = some q) :
    s.BuildsAs lex path (.unary r .left tree) (.move part) p := by
  obtain ⟨q', f, features, m, hq', hqf, hsign, hm, hx, hplace⟩ :=
    Derivation.exists_of_phrase?_move hr
  obtain rfl := Option.some.inj (hq.symm.trans hq')
  obtain ⟨node, hw⟩ := Derivation.exists_waiting hq hm
  have hgrows := s.grows_build path.left tree
  obtain ⟨hfollows, hbuilt⟩ := h
  rw [hsize] at hgrows
  refine ⟨?follows, fun hfaithful => ?built⟩
  all_goals
    simp only [build_unary, Address.left] at hfollows hbuilt hgrows ⊢
    generalize s.build (path.child .left) tree = t at hfollows hbuilt hgrows
  case follows =>
    have hbody (id : ConstituentId) := (body?_congr id (outline?_finishNode (t.1.buildUnary r t.2.id
      t.2.pending).1.1 (t.1.buildUnary r t.2.id t.2.pending).1.2 id path
      (t.1.buildUnary r t.2.id t.2.pending).2)).trans (t.1.body?_buildUnary r id t.2.id t.2.pending)
    rw [Follows, hgrows.follows_iff lex fun id hlt => (hbody id).trans (if_neg (ne_next_of_lt hlt)),
      hfollows, Derivation.isFaithful_move_iff hx, hw, ← hgrows.next, hbody, if_pos rfl]
    -- if the part follows the derivation, the movement does when the files hold the mover
    refine and_congr_right fun hfaithful => ?_
    obtain ⟨root, h₁⟩ := hbuilt hfaithful
    rw [← h₁.attracts_iff hqf hsign]
    constructor
    · rintro ⟨x, m', k, heq, hk, hparts⟩
      obtain ⟨rfl, -⟩ := Prod.mk.inj (Option.some.inj (hx.symm.trans heq))
      obtain rfl := Option.some.inj (hw.symm.trans hk)
      exact Option.some.inj hparts
    · exact fun hparts => ⟨f.name, m, node, hx, hw, congrArg some hparts⟩
  case built =>
    obtain ⟨hpart, hfiled⟩ := (Derivation.isFaithful_move_iff hx).mp hfaithful
    obtain ⟨root, h₁⟩ := hbuilt hpart
    have hattracted := h₁.attracted?_eq hqf hsign
    rw [h₁.pending, hfiled, hw, Option.map_some, Option.map_some] at hattracted
    rw [buildUnary, hattracted]
    exact h₁.move hq hr hqf (Phrase.features_of_place? hplace).2 hm hx hw _

/-- A merge follows the derivation if and only if its parts do. -/
theorem BuildsAs.merge (hr : (Derivation.merge selector selected).phrase? lex = some p)
    (hselector : left.Encodes lex selector) (hselected : right.Encodes lex selected)
    (h₁ : ∀ {q}, selector.phrase? lex = some q → s.BuildsAs lex path.left left selector q)
    (h₂ : ∀ {q}, selected.phrase? lex = some q →
      (s.build path.left left).1.BuildsAs lex path.right right selected q) :
    s.BuildsAs lex path (.binary r left right) (.merge selector selected) p := by
  obtain ⟨p₁, p₂, f, features, g, rest, movers, hp₁, hp₂, hpf, -, hsign, -⟩ :=
    Derivation.exists_of_phrase?_merge hr
  have hgrows₁ := s.grows_build path.left left
  have hgrows₂ := (s.build path.left left).1.grows_build path.right right
  obtain ⟨hfollows₁, hbuilt₁⟩ := h₁ hp₁
  obtain ⟨hfollows₂, hbuilt₂⟩ := h₂ hp₂
  rw [hselector.size_eq] at hgrows₁
  rw [hselected.size_eq] at hgrows₂
  refine ⟨?follows, fun hfaithful => ?built⟩
  all_goals
    simp only [build_binary, hselector.isLexical_eq hp₁]
    generalize s.build path.left left = t at hgrows₁ hfollows₁ hbuilt₁ hgrows₂ hfollows₂ hbuilt₂ ⊢
    generalize t.1.build path.right right = u at hgrows₂ hfollows₂ hbuilt₂ ⊢
  case follows =>
    have hbody (id : ConstituentId) :
        ((u.1.buildMerge r p₁.isLexical t.2.id u.2.id).1.finishNode path
          (u.1.buildMerge r p₁.isLexical t.2.id u.2.id).2
          (t.2.pending.unite u.2.pending)).1.body? id =
        if id = ⟨u.1.nextConstituent⟩ then some (u.1.mergeParts p₁.isLexical t.2.id u.2.id)
        else u.1.body? id := by
      rw [body?, outline?_finishNode, outline?_buildMerge, body?]
      split <;> rfl
    have hnext : u.1.nextConstituent = s.nextConstituent + (selector.size + selected.size) := by
      rw [hgrows₂.next, hgrows₁.next, Nat.add_assoc]
    have hold {id : ConstituentId} (hlt : id.index < u.1.nextConstituent) :=
      (hbody id).trans (if_neg (ne_next_of_lt hlt))
    -- what is built afterwards leaves the parts of older nodes as they are
    have hselector' := hgrows₁.follows_iff lex fun id hlt =>
      (hold (Nat.lt_of_lt_of_le hlt (hgrows₂.next ▸ Nat.le_add_right ..))).trans (hgrows₂.body? hlt)
    have hselected' := hgrows₂.follows_iff lex fun id hlt => hold hlt
    rw [hgrows₁.next] at hselected' hfollows₂
    rw [Follows, hselector', hfollows₁, hselected', hfollows₂, Derivation.isFaithful_merge_iff,
      ← and_assoc, and_iff_left_iff_imp]
    rintro ⟨hfaithful₁, hfaithful₂⟩
    obtain ⟨o₁, hbuilt₁⟩ := hbuilt₁ hfaithful₁
    obtain ⟨o₂, hbuilt₂⟩ := hbuilt₂ hfaithful₂
    -- the parts of the new node are the two roots, in one order or the other
    refine ⟨_, _, by rw [← hnext, hbody, if_pos rfl], ?_⟩
    rw [hbuilt₁.snd_mergeParts hbuilt₂ hpf hsign, hbuilt₁.id_eq, hbuilt₂.id_eq, hgrows₁.next,
      Nat.add_assoc]
    split
    · exact List.Perm.refl _
    · exact List.Perm.swap ..
  case built =>
    obtain ⟨hfaithful₁, hfaithful₂⟩ := Derivation.isFaithful_merge_iff.mp hfaithful
    obtain ⟨o₁, hbuilt₁⟩ := hbuilt₁ hfaithful₁
    obtain ⟨o₂, hbuilt₂⟩ := hbuilt₂ hfaithful₂
    exact hbuilt₁.merge hbuilt₂ hp₁ hp₂ hr _

/-- The tree that is built follows the derivation if and only if every licensor finds in the files
what waits for it, and then the tree holds what the derivation derives. -/
theorem build_spec {d : Derivation} (h : tree.Encodes lex d) (hp : d.phrase? lex = some p)
    (s : Store) (path : Address) : s.BuildsAs lex path tree d p := by
  induction h generalizing p s path with
  | word hnames =>
    exact ⟨iff_of_true (follows_leaf hnames s path) rfl, fun _ => HasBuilt.leaf hnames hp⟩
  | move hinner hpart ih =>
    obtain ⟨q, -, -, -, hq, -⟩ := Derivation.exists_of_phrase?_move hp
    exact (ih hq s path.left).move hpart.size_eq hp hq
  | merge hinner hselector hselected ih₁ ih₂ =>
    exact .merge hp hselector hselected (fun hq => ih₁ hq s path.left) fun hq => ih₂ hq _ path.right

end build

end Store
end MinimalistGrammar
