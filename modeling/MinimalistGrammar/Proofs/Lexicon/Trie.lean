import MinimalistGrammar.Lexicon

/-!
# The shape of a lexicon

Adding entries keeps the nodes of a lexicon a trie: every node but the roots hangs below one inner
node, and no two nodes below the same node say the same thing. So the features from a node up to its
root tell which node it is.

## Main definitions

* `Lexicon.WellFormed` — the nodes form a trie.

## Main results

* `Lexicon.wellFormed_ofEntries` — every lexicon made of entries is well formed.
* `Lexicon.root?_eq_some_iff`, `Lexicon.childWith?_eq_some_iff` — what looking up a feature finds.
* `Lexicon.WellFormed.eq_of_featuresOf` — an inner node is known by its features.
-/

namespace MinimalistGrammar

/-! ### Features up to the mark -/

/-- The feature without the mark that it must be checked. -/
def Feature.plain (f : Feature) : Feature := { f with required := false }

theorem Feature.agrees_iff_plain {f g : Feature} : f.agrees g = true ↔ f.plain = g.plain := by
  cases f
  cases g
  simp [agrees, plain]

@[simp] theorem Feature.agrees_self (f : Feature) : f.agrees f = true :=
  agrees_iff_plain.mpr rfl

namespace Lexicon

/-- The node right above node `i`. -/
def parent? (lex : Lexicon) (i : Nat) : Option Nat := (lex.node? i).bind (·.parent)

/-- The nodes form a trie. -/
structure WellFormed (lex : Lexicon) : Prop where
  /-- A node is made after the one above it. -/
  parent_lt {i p : Nat} : lex.parent? i = some p → p < i
  /-- Parts and parents are two views of the same links. -/
  mem_parts {i p : Nat} : i ∈ lex.parts p ↔ lex.parent? i = some p
  nodup_parts (p : Nat) : (lex.parts p).Nodup
  /-- Nothing hangs below a word. -/
  isSome_feature?_of_parent? {i p : Nat} : lex.parent? i = some p → (lex.feature? p).isSome
  mem_roots {i : Nat} : i ∈ lex.roots ↔ lex.parent? i = none ∧ (lex.feature? i).isSome
  /-- Inner nodes at one place carry different features. -/
  eq_of_agrees {i j : Nat} {f g : Feature} : lex.feature? i = some f → lex.feature? j = some g →
    lex.parent? i = lex.parent? j → f.agrees g = true → i = j
  /-- Leaves below one node are different words. -/
  eq_of_word? {i j p : Nat} {w : String} : lex.word? i = some w → lex.word? j = some w →
    lex.parent? i = some p → lex.parent? j = some p → i = j

theorem wellFormed_empty : ({} : Lexicon).WellFormed where
  parent_lt h := by simp [parent?, node?] at h
  mem_parts := by simp [parts, parent?, node?]
  nodup_parts p := by simp [parts, node?]
  isSome_feature?_of_parent? h := by simp [parent?, node?] at h
  mem_roots := by simp [feature?, node?]
  eq_of_agrees h := by simp [feature?, node?] at h
  eq_of_word? h := by simp [word?, node?] at h

/-! ### A new node -/

@[simp] theorem snd_push (lex : Lexicon) (content : Content) (parent : Option Nat) :
    (lex.push content parent).2 = lex.size := rfl

@[simp] theorem roots_push (lex : Lexicon) (content : Content) (parent : Option Nat) :
    (lex.push content parent).1.roots = lex.roots := rfl

section push

variable {lex : Lexicon} {content : Content} {parent : Option Nat}

theorem feature?_mk_eq_some_iff {parts : List Nat} {f : Feature} :
    (LexicalNode.mk content parts parent).feature? = some f ↔ content = .feature f := by
  cases content <;> simp [LexicalNode.feature?]

theorem word?_mk_eq_some_iff {parts : List Nat} {w : String} :
    (LexicalNode.mk content parts parent).word? = some w ↔ content = .word w := by
  cases content <;> simp [LexicalNode.word?]

theorem node?_push (hparent : ∀ p, parent = some p → p < lex.size) (i : Nat) :
    (lex.push content parent).1.node? i =
      if i = lex.size then some { content, parts := [], parent }
      else if parent = some i then
        (lex.node? i).map fun n => { n with parts := n.parts ++ [lex.size] }
      else lex.node? i := by
  cases parent with
  | none =>
    simp [push, node?, size, Array.getElem?_push]
  | some p =>
    have hp : p < lex.nodes.size := hparent p rfl
    simp only [push, node?, size, Array.getElem?_modify, Array.getElem?_push, Option.some.injEq]
    by_cases hi : i = lex.nodes.size
    · have hne : p ≠ lex.nodes.size := Nat.ne_of_lt hp
      simp [hi, hne]
    · by_cases hpi : p = i
      · simp [hpi, hi]
      · simp [hpi, hi]

theorem feature?_push (hparent : ∀ p, parent = some p → p < lex.size) (i : Nat) :
    (lex.push content parent).1.feature? i =
      if i = lex.size then (LexicalNode.mk content [] parent).feature? else lex.feature? i := by
  rw [feature?, feature?, node?_push hparent]
  split
  · rfl
  · split
    · cases lex.node? i <;> rfl
    · rfl

theorem word?_push (hparent : ∀ p, parent = some p → p < lex.size) (i : Nat) :
    (lex.push content parent).1.word? i =
      if i = lex.size then (LexicalNode.mk content [] parent).word? else lex.word? i := by
  rw [word?, word?, node?_push hparent]
  split
  · rfl
  · split
    · cases lex.node? i <;> rfl
    · rfl

theorem parent?_push (hparent : ∀ p, parent = some p → p < lex.size) (i : Nat) :
    (lex.push content parent).1.parent? i = if i = lex.size then parent else lex.parent? i := by
  rw [parent?, parent?, node?_push hparent]
  split
  · rfl
  · split
    · cases lex.node? i <;> rfl
    · rfl

theorem parts_push (hparent : ∀ p, parent = some p → p < lex.size) (i : Nat) :
    (lex.push content parent).1.parts i =
      if i = lex.size then []
      else if parent = some i then lex.parts i ++ [lex.size] else lex.parts i := by
  rw [parts, parts, node?_push hparent]
  split
  · rfl
  · split
    · next hi =>
      have hlt : i < lex.nodes.size := hparent i hi
      simp [node?, hlt]
    · rfl

end push

theorem isSome_node?_iff {lex : Lexicon} {i : Nat} : (lex.node? i).isSome ↔ i < lex.size := by
  simp [node?, size]

theorem lt_size_of_feature? {lex : Lexicon} {i : Nat} (h : (lex.feature? i).isSome) :
    i < lex.size := by
  rw [← isSome_node?_iff]
  cases hi : lex.node? i with
  | none => simp [feature?, hi] at h
  | some n => rfl

theorem lt_size_of_word? {lex : Lexicon} {i : Nat} {w : String} (h : lex.word? i = some w) :
    i < lex.size := by
  rw [← isSome_node?_iff]
  cases hi : lex.node? i with
  | none => simp [word?, hi] at h
  | some n => rfl

/-- A word is no feature. -/
theorem feature?_eq_none_of_word? {lex : Lexicon} {i : Nat} {w : String}
    (h : lex.word? i = some w) : lex.feature? i = none := by
  rw [feature?]
  rw [word?] at h
  cases hn : lex.node? i with
  | none => rfl
  | some n =>
    obtain ⟨content, _, _⟩ := n
    cases content with
    | feature f => simp [hn, LexicalNode.word?] at h
    | word v => rfl

/-- No node has number `lex.size` yet. -/
theorem parent?_size (lex : Lexicon) : lex.parent? lex.size = none := by
  simp [parent?, node?, size]

namespace WellFormed

variable {lex : Lexicon} {content : Content} {parent : Option Nat}

theorem ne_size_of_parent? (h : lex.WellFormed) {i p : Nat} (hp : lex.parent? i = some p) :
    p ≠ lex.size :=
  Nat.ne_of_lt (lt_size_of_feature? (h.isSome_feature?_of_parent? hp))

/-- The new node is no part of a node that was there. -/
theorem size_notMem_parts (h : lex.WellFormed) (p : Nat) : lex.size ∉ lex.parts p := fun hmem =>
  absurd (h.mem_parts.mp hmem) (by simp [parent?_size])

theorem mem_parts_push (h : lex.WellFormed) (hlt : ∀ p, parent = some p → p < lex.size)
    {i p : Nat} :
    i ∈ (lex.push content parent).1.parts p ↔ (lex.push content parent).1.parent? i = some p := by
  rw [parts_push hlt, parent?_push hlt]
  by_cases hp : p = lex.size
  · -- nothing hangs below the new node
    rw [if_pos hp, hp]
    refine iff_of_false List.not_mem_nil fun hpar => ?_
    split at hpar
    · exact Nat.lt_irrefl _ (hlt _ hpar)
    · exact h.ne_size_of_parent? hpar rfl
  · rw [if_neg hp]
    by_cases hi : i = lex.size
    · -- the new node is a part of its parent only
      rw [if_pos hi, hi]
      split
      · next hpar => simp [hpar]
      · next hpar => exact iff_of_false (h.size_notMem_parts p) hpar
    · rw [if_neg hi]
      split
      · simp [h.mem_parts, hi]
      · exact h.mem_parts

theorem nodup_parts_push (h : lex.WellFormed) (hlt : ∀ p, parent = some p → p < lex.size)
    (p : Nat) : ((lex.push content parent).1.parts p).Nodup := by
  rw [parts_push hlt]
  split
  · exact List.nodup_nil
  · split
    · refine List.nodup_append.mpr ⟨h.nodup_parts p, by simp, ?_⟩
      intro a ha b hb heq
      rw [heq, List.mem_singleton.mp hb] at ha
      exact h.size_notMem_parts p ha
    · exact h.nodup_parts p

theorem eq_of_agrees_push (h : lex.WellFormed) (hlt : ∀ p, parent = some p → p < lex.size)
    (hfeature : ∀ f i g, content = .feature f → lex.feature? i = some g →
      lex.parent? i = parent → f.agrees g = false) {i j : Nat} {f g : Feature}
    (hf : (lex.push content parent).1.feature? i = some f)
    (hg : (lex.push content parent).1.feature? j = some g)
    (hpar : (lex.push content parent).1.parent? i = (lex.push content parent).1.parent? j)
    (hagrees : f.agrees g = true) : i = j := by
  rw [feature?_push hlt] at hf hg
  rw [parent?_push hlt, parent?_push hlt] at hpar
  by_cases hi : i = lex.size <;> by_cases hj : j = lex.size
  · rw [hi, hj]
  · -- a node that was there says what the new one says
    simp only [hi, hj, if_true, if_false, feature?_mk_eq_some_iff] at hf hg hpar
    exact absurd hagrees (by simp [hfeature f j g hf hg hpar.symm])
  · simp only [hi, hj, if_true, if_false, feature?_mk_eq_some_iff] at hf hg hpar
    rw [Feature.agrees_comm] at hagrees
    exact absurd hagrees (by simp [hfeature g i f hg hf hpar])
  · simp only [hi, hj, if_false] at hf hg hpar
    exact h.eq_of_agrees hf hg hpar hagrees

theorem eq_of_word?_push (h : lex.WellFormed) (hlt : ∀ p, parent = some p → p < lex.size)
    (hword : ∀ w i p, content = .word w → parent = some p → lex.parent? i = some p →
      lex.word? i ≠ some w) {i j p : Nat} {w : String}
    (hi : (lex.push content parent).1.word? i = some w)
    (hj : (lex.push content parent).1.word? j = some w)
    (hpi : (lex.push content parent).1.parent? i = some p)
    (hpj : (lex.push content parent).1.parent? j = some p) : i = j := by
  rw [word?_push hlt] at hi hj
  rw [parent?_push hlt] at hpi hpj
  by_cases hi' : i = lex.size <;> by_cases hj' : j = lex.size
  · rw [hi', hj']
  · -- a leaf that was there is the new word
    simp only [hi', hj', if_true, if_false, word?_mk_eq_some_iff] at hi hj hpi hpj
    exact absurd hj (hword w j p hi hpi hpj)
  · simp only [hi', hj', if_true, if_false, word?_mk_eq_some_iff] at hi hj hpi hpj
    exact absurd hi (hword w i p hj hpj hpi)
  · simp only [hi', hj', if_false] at hi hj hpi hpj
    exact h.eq_of_word? hi hj hpi hpj

/-- A new node keeps a trie a trie if its place has no node that says the same. -/
theorem push (h : lex.WellFormed) {roots : List Nat}
    (hparent : ∀ p, parent = some p → (lex.feature? p).isSome)
    (hroots : ∀ i, i ∈ roots ↔
      i ∈ lex.roots ∨ i = lex.size ∧ parent = none ∧ ∃ f, content = .feature f)
    (hfeature : ∀ f i g, content = .feature f → lex.feature? i = some g →
      lex.parent? i = parent → f.agrees g = false)
    (hword : ∀ w i p, content = .word w → parent = some p → lex.parent? i = some p →
      lex.word? i ≠ some w) :
    ({ (lex.push content parent).1 with roots } : Lexicon).WellFormed := by
  have hlt : ∀ p, parent = some p → p < lex.size := fun p hp => lt_size_of_feature? (hparent p hp)
  -- the list of roots is not read by what the nodes are asked
  have hP (i : Nat) : ({ (lex.push content parent).1 with roots } : Lexicon).parent? i =
      if i = lex.size then parent else lex.parent? i := parent?_push hlt i
  have hF (i : Nat) : ({ (lex.push content parent).1 with roots } : Lexicon).feature? i =
      if i = lex.size then (LexicalNode.mk content [] parent).feature? else lex.feature? i :=
    feature?_push hlt i
  constructor
  case parent_lt =>
    intro i p hip
    rw [hP] at hip
    split at hip
    · next hi => exact hi ▸ hlt p hip
    · exact h.parent_lt hip
  case mem_parts => exact h.mem_parts_push hlt
  case nodup_parts => exact h.nodup_parts_push hlt
  case isSome_feature?_of_parent? =>
    intro i p hip
    rw [hP] at hip
    have hp : (lex.feature? p).isSome := by
      split at hip
      · exact hparent p hip
      · exact h.isSome_feature?_of_parent? hip
    rw [hF, if_neg (Nat.ne_of_lt (lt_size_of_feature? hp))]
    exact hp
  case mem_roots =>
    intro i
    show i ∈ roots ↔ _
    rw [hroots, hP, hF]
    by_cases hi : i = lex.size
    · have hnot : lex.size ∉ lex.roots := fun hmem =>
        absurd (lt_size_of_feature? (h.mem_roots.mp hmem).2) (Nat.lt_irrefl _)
      cases content <;> simp [hi, hnot, LexicalNode.feature?]
    · simp [hi, h.mem_roots]
  case eq_of_agrees => exact h.eq_of_agrees_push hlt hfeature
  case eq_of_word? => exact h.eq_of_word?_push hlt hword

end WellFormed

/-! ### Looking up features -/

theorem carries_iff {lex : Lexicon} {i : Nat} {f : Feature} :
    lex.carries i f = true ↔ ∃ g, lex.feature? i = some g ∧ f.agrees g = true := by
  rw [carries, feature?]
  cases lex.node? i with
  | none => simp
  | some n => simp [LexicalNode.carries, Option.any_eq_true]

/-- A list holds at most one item with a property, so it is the one that is found. -/
theorem find?_eq_some_iff_of_unique {α : Type} {p : α → Bool} {l : List α} {a : α}
    (hunique : ∀ x ∈ l, ∀ y ∈ l, p x = true → p y = true → x = y) :
    l.find? p = some a ↔ a ∈ l ∧ p a = true := by
  constructor
  · intro h
    exact ⟨List.mem_of_find?_eq_some h, List.find?_some h⟩
  · rintro ⟨hmem, hp⟩
    cases hfind : l.find? p with
    | none => exact absurd hp (by simpa using List.find?_eq_none.mp hfind a hmem)
    | some b =>
      exact congrArg some
        (hunique b (List.mem_of_find?_eq_some hfind) a hmem (List.find?_some hfind) hp)

namespace WellFormed

variable {lex : Lexicon} (h : lex.WellFormed)

include h

/-- The root for a feature is the node without a parent that carries it. -/
theorem root?_eq_some_iff {f : Feature} {r : Nat} :
    lex.root? f = some r ↔
      lex.parent? r = none ∧ ∃ g, lex.feature? r = some g ∧ f.agrees g = true := by
  rw [root?, find?_eq_some_iff_of_unique, h.mem_roots, carries_iff]
  · constructor
    · rintro ⟨⟨hpar, -⟩, hcarries⟩
      exact ⟨hpar, hcarries⟩
    · rintro ⟨hpar, g, hg, hagrees⟩
      exact ⟨⟨hpar, by simp [hg]⟩, g, hg, hagrees⟩
  · intro x hx y hy hpx hpy
    obtain ⟨f', hf', hagf⟩ := carries_iff.mp hpx
    obtain ⟨g', hg', hagg⟩ := carries_iff.mp hpy
    refine h.eq_of_agrees hf' hg' ?_ ?_
    · rw [(h.mem_roots.mp hx).1, (h.mem_roots.mp hy).1]
    · rw [Feature.agrees_iff_plain] at hagf hagg ⊢
      exact hagf.symm.trans hagg

/-- The part for a feature is the node below that carries it. -/
theorem childWith?_eq_some_iff {f : Feature} {i c : Nat} :
    lex.childWith? i f = some c ↔
      lex.parent? c = some i ∧ ∃ g, lex.feature? c = some g ∧ f.agrees g = true := by
  rw [childWith?, find?_eq_some_iff_of_unique, h.mem_parts, carries_iff]
  intro x hx y hy hpx hpy
  obtain ⟨f', hf', hagf⟩ := carries_iff.mp hpx
  obtain ⟨g', hg', hagg⟩ := carries_iff.mp hpy
  refine h.eq_of_agrees hf' hg' ?_ ?_
  · rw [h.mem_parts.mp hx, h.mem_parts.mp hy]
  · rw [Feature.agrees_iff_plain] at hagf hagg ⊢
    exact hagf.symm.trans hagg

/-! ### Adding entries -/

theorem rootFor (f : Feature) :
    (lex.rootFor f).1.WellFormed ∧ ((lex.rootFor f).1.feature? (lex.rootFor f).2).isSome := by
  rw [Lexicon.rootFor]
  split
  · next r hr =>
    obtain ⟨-, g, hg, -⟩ := h.root?_eq_some_iff.mp hr
    exact ⟨h, by simp [hg]⟩
  · next hnone =>
    refine ⟨h.push (by simp) (by simp) ?_ (by simp), ?_⟩
    · intro f' i g hf' hg hpar
      obtain rfl : f = f' := by simpa using hf'
      refine Bool.eq_false_iff.mpr fun hagrees => ?_
      have hr := h.root?_eq_some_iff.mpr ⟨hpar, g, hg, hagrees⟩
      rw [hnone] at hr
      exact absurd hr (by simp)
    · show ((lex.push (.feature f) none).1.feature? lex.size).isSome
      rw [feature?_push (by simp), if_pos rfl]
      rfl

theorem childFor {i : Nat} (hi : (lex.feature? i).isSome) (f : Feature) :
    (lex.childFor i f).1.WellFormed ∧
      ((lex.childFor i f).1.feature? (lex.childFor i f).2).isSome := by
  rw [Lexicon.childFor]
  split
  · next c hc =>
    obtain ⟨-, g, hg, -⟩ := h.childWith?_eq_some_iff.mp hc
    exact ⟨h, by simp [hg]⟩
  · next hnone =>
    have hparent : ∀ p, some i = some p → (lex.feature? p).isSome := by
      rintro p ⟨⟩
      exact hi
    refine ⟨h.push hparent (by simp) ?_ (by simp), ?_⟩
    · intro f' c g hf' hg hpar
      obtain rfl : f = f' := by simpa using hf'
      refine Bool.eq_false_iff.mpr fun hagrees => ?_
      have hc := h.childWith?_eq_some_iff.mpr ⟨hpar, g, hg, hagrees⟩
      rw [hnone] at hc
      exact absurd hc (by simp)
    · rw [snd_push, feature?_push fun p hp => lt_size_of_feature? (hparent p hp), if_pos rfl]
      rfl

theorem leafFor {i : Nat} (hi : (lex.feature? i).isSome) (w : String) :
    (lex.leafFor i w).1.WellFormed := by
  rw [Lexicon.leafFor]
  split
  · exact h
  · next hnone =>
    have hparent : ∀ p, some i = some p → (lex.feature? p).isSome := by
      rintro p ⟨⟩
      exact hi
    refine h.push hparent (by simp) (by simp) ?_
    rintro v j p ⟨⟩ ⟨⟩ hpar hword
    have hfind := List.find?_eq_none.mp hnone j (h.mem_parts.mpr hpar)
    simp [hword] at hfind

theorem pathFor {i : Nat} (hi : (lex.feature? i).isSome) (fs : List Feature) :
    (lex.pathFor i fs).1.WellFormed ∧
      ((lex.pathFor i fs).1.feature? (lex.pathFor i fs).2).isSome := by
  induction fs generalizing lex i with
  | nil => exact ⟨h, hi⟩
  | cons f fs ih =>
    obtain ⟨hchild, hfeature⟩ := h.childFor hi f
    exact ih hchild hfeature

theorem add (w : String) (features : List Feature) : (lex.add w features).1.WellFormed := by
  rw [Lexicon.add]
  split
  · -- the word hangs below no root
    have hparent : ∀ p, none = some p → (lex.feature? p).isSome := by simp
    exact h.push hparent (by simp) (by simp) (by simp)
  · next last others _ =>
    obtain ⟨hroot, hfeature⟩ := h.rootFor last
    obtain ⟨hpath, hbranch⟩ := hroot.pathFor hfeature others
    exact hpath.leafFor hbranch w

end WellFormed

/-- Every lexicon made of entries is well formed. -/
theorem wellFormed_ofEntries (entries : List (String × List Feature)) :
    (ofEntries entries).WellFormed := by
  have hfold : ∀ lex : Lexicon, lex.WellFormed →
      (entries.foldl (fun lex e => (lex.add e.1 e.2).1) lex).WellFormed := by
    induction entries with
    | nil => exact fun _ h => h
    | cons e rest ih => exact fun lex h => ih _ (h.add e.1 e.2)
  exact hfold {} wellFormed_empty

/-! ### Features from a node up to its root -/

/-- The features from a place up to the root; above the root there are none. -/
def featuresUp (lex : Lexicon) (place : Option Nat) : List Feature := place.elim [] lex.featuresOf

namespace WellFormed

variable {lex : Lexicon} (h : lex.WellFormed)

include h

theorem featuresOf_eq (i : Nat) :
    lex.featuresOf i = (lex.feature? i).toList ++ lex.featuresUp (lex.parent? i) := by
  rw [featuresOf, feature?, featuresUp]
  cases hn : lex.node? i with
  | none => simp [parent?, hn]
  | some n =>
    have hpar : lex.parent? i = n.parent := by simp [parent?, hn]
    rw [hpar]
    cases hp : n.parent with
    | none => simp [hp]
    | some p =>
      have hlt : p < i := h.parent_lt (hpar.trans hp)
      simp [hp, hlt]

theorem featuresOf_of_feature? {i : Nat} {f : Feature} (hf : lex.feature? i = some f) :
    lex.featuresOf i = f :: lex.featuresUp (lex.parent? i) := by
  rw [h.featuresOf_eq, hf]
  rfl

theorem featuresOf_of_word? {i : Nat} {w : String} (hw : lex.word? i = some w) :
    lex.featuresOf i = lex.featuresUp (lex.parent? i) := by
  rw [h.featuresOf_eq, feature?_eq_none_of_word? hw]
  rfl

/-- An inner node is known by its features, whether they must be checked or not. -/
theorem eq_of_map_plain_featuresOf {i j : Nat} (hi : (lex.feature? i).isSome)
    (hj : (lex.feature? j).isSome)
    (heq : (lex.featuresOf i).map Feature.plain = (lex.featuresOf j).map Feature.plain) :
    i = j := by
  induction i using Nat.strongRecOn generalizing j with
  | _ i ih =>
    obtain ⟨f, hf⟩ := Option.isSome_iff_exists.mp hi
    obtain ⟨g, hg⟩ := Option.isSome_iff_exists.mp hj
    rw [h.featuresOf_of_feature? hf, h.featuresOf_of_feature? hg, List.map_cons,
      List.map_cons] at heq
    obtain ⟨hfg, hup⟩ := List.cons.inj heq
    refine h.eq_of_agrees hf hg ?_ (Feature.agrees_iff_plain.mpr hfg)
    -- the nodes above have the same features, so they are the same
    cases hpi : lex.parent? i with
    | none =>
      cases hpj : lex.parent? j with
      | none => rfl
      | some q =>
        obtain ⟨g', hg'⟩ := Option.isSome_iff_exists.mp (h.isSome_feature?_of_parent? hpj)
        simp [hpi, hpj, featuresUp, h.featuresOf_of_feature? hg'] at hup
    | some p =>
      have hp := h.isSome_feature?_of_parent? hpi
      cases hpj : lex.parent? j with
      | none =>
        obtain ⟨f', hf'⟩ := Option.isSome_iff_exists.mp hp
        simp [hpi, hpj, featuresUp, h.featuresOf_of_feature? hf'] at hup
      | some q =>
        rw [hpi, hpj] at hup
        exact congrArg some
          (ih p (h.parent_lt hpi) hp (h.isSome_feature?_of_parent? hpj) hup)

theorem eq_of_featuresOf {i j : Nat} (hi : (lex.feature? i).isSome)
    (hj : (lex.feature? j).isSome) (heq : lex.featuresOf i = lex.featuresOf j) : i = j :=
  h.eq_of_map_plain_featuresOf hi hj (congrArg _ heq)

/-- The features above a node tell which node is right above it. -/
theorem parent?_eq_some_of_featuresUp {i n : Nat} (hn : (lex.feature? n).isSome)
    (heq : lex.featuresUp (lex.parent? i) = lex.featuresOf n) : lex.parent? i = some n := by
  cases hp : lex.parent? i with
  | none =>
    obtain ⟨f, hf⟩ := Option.isSome_iff_exists.mp hn
    rw [hp, h.featuresOf_of_feature? hf] at heq
    exact absurd heq (by simp [featuresUp])
  | some p =>
    rw [hp] at heq
    exact congrArg some (h.eq_of_featuresOf (h.isSome_feature?_of_parent? hp) hn heq)

/-- Above a root there are no features, and above any other node there are some. -/
theorem featuresUp_parent?_eq_nil_iff {i : Nat} :
    lex.featuresUp (lex.parent? i) = [] ↔ lex.parent? i = none := by
  cases hp : lex.parent? i with
  | none => simp [featuresUp]
  | some p =>
    obtain ⟨f, hf⟩ := Option.isSome_iff_exists.mp (h.isSome_feature?_of_parent? hp)
    simp [featuresUp, h.featuresOf_of_feature? hf]

end WellFormed

/-! ### Keys -/

theorem toList_key (i : Nat) : (key i).toList = 'n' :: Nat.toDigits 10 i := by
  rw [key, String.toList_append, show toString i = i.repr from rfl, Nat.toList_repr]
  rfl

/-- A node is found by its key. -/
theorem byKey?_key {lex : Lexicon} {i : Nat} (h : i < lex.size) : lex.byKey? (key i) = some i := by
  rw [byKey?, toList_key]
  exact Decimal.readBelow?_toDigits h

theorem key_injective {i j : Nat} (h : key i = key j) : i = j := by
  have hdigits := congrArg String.toList h
  rw [toList_key, toList_key, List.cons.injEq] at hdigits
  have hread := Decimal.readDigits?_toDigits i
  rw [hdigits.2, Decimal.readDigits?_toDigits] at hread
  exact (Option.some.inj hread).symm

end Lexicon
end MinimalistGrammar
