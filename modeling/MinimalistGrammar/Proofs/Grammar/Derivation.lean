import MinimalistGrammar.Beam.RecordTree
import MinimalistGrammar.Proofs.Lexicon.Trie

/-!
# Derivations of a minimalist grammar

A derivation is a tree of merges and moves over the words of a lexicon. It is evaluated from its
words up: every node is a phrase, with the words that it is pronounced with, the features that are
left, and the phrases inside that still have to move.

A selector takes a phrase of its category. If nothing else is left of the features of that phrase,
it stays where it is taken; if a licensee is left, it becomes a mover. A licensor attracts the mover
that is filed under its name, which then lands, or moves on if another licensee is left.

## Main definitions

* `Derivation` — a tree of merges and moves.
* `Phrase`, `Moved` — what a derivation derives, and the phrases in it that wait to move.
* `Phrase.merge?`, `Phrase.move?` — the rules.
* `Derivation.phrase?` — the phrase that a derivation derives, if it obeys the rules.
* `Derivation.Derives` — a derivation derives some words as a phrase of a category.
* `RecordTree.derivation?` — the derivation that a tree of records stands for.

## Main results

* `Derivation.isGrounded_of_phrase?` — what is left of the features of a phrase is always the way
  from a node of the lexicon up to its root, and every mover is filed under its first licensee.
-/

namespace MinimalistGrammar

/-- A tree of merges and moves over the words of a lexicon. -/
inductive Derivation
  /-- The word at a leaf of the lexicon. -/
  | word (leaf : Nat)
  /-- A phrase attracts one of its movers. -/
  | move (part : Derivation)
  /-- One phrase takes another. -/
  | merge (selector selected : Derivation)
deriving DecidableEq, Repr

/-- A phrase that waits to move. -/
structure Moved where
  words : List String
  /-- What is left of its features: first the licensee for which it moves next. -/
  features : List Feature
deriving DecidableEq

/-- What a derivation derives. -/
structure Phrase where
  /-- Whether it is a single word of the lexicon. -/
  isLexical : Bool
  words : List String
  /-- What is left of the features, the active one first. -/
  features : List Feature
  /-- The phrases that wait to move, each under its first licensee. -/
  movers : Dict String Moved := ∅
deriving DecidableEq

/-! ### The rules -/

namespace Phrase

/-- Which side of a head a phrase is pronounced on. -/
def beside (side : Branch) (head other : List String) : List String :=
  match side with
  | .left => other ++ head
  | .right => head ++ other

/-- A phrase `other` finds its place beside a head. If it has no features left, it stays there; if a
licensee is next, it becomes a mover, but never the second one of that name. -/
def place? (side : Branch) (head : List String) (features : List Feature)
    (movers : Dict String Moved) (other : Moved) : Option Phrase :=
  match other.features with
  | [] => some { isLexical := false, words := beside side head other.words, features, movers }
  | f :: _ =>
    if f.sign = .licensee ∧ movers.contains f.name = false then
      some { isLexical := false, words := head, features, movers := movers.insert f.name other }
    else none

/-- A lexical head selects a complement to its right, whose movers are kept; a phrase selects a
specifier to its left, which has no movers of its own. A lexical adjunct joins a phrase to its right
that does not move, whose movers are kept. -/
def merge? (p q : Phrase) : Option Phrase :=
  match p.features, q.features with
  | f :: features, g :: rest =>
    if g.plain = .categorial f.name then
      match f.sign, p.isLexical with
      | .selector, true => place? .right p.words features q.movers ⟨q.words, rest⟩
      | .selector, false =>
        if q.movers.isEmpty then place? .left p.words features p.movers ⟨q.words, rest⟩ else none
      | .adjunct, true =>
        if rest = [] then place? .right p.words features q.movers ⟨q.words, []⟩ else none
      | _, _ => none
    else none
  | _, _ => none

/-- A licensor attracts the mover under its name to the left. -/
def move? (p : Phrase) : Option Phrase :=
  match p.features with
  | [] => none
  | f :: features =>
    if f.sign = .licensor then
      (p.movers.get? f.name).bind fun m =>
        place? .left p.words features (p.movers.erase f.name) ⟨m.words, m.features.tail⟩
    else none

theorem place?_eq_some_iff {side : Branch} {head : List String} {features : List Feature}
    {movers : Dict String Moved} {other : Moved} {p : Phrase} :
    place? side head features movers other = some p ↔
      (other.features = [] ∧
        p = { isLexical := false, words := beside side head other.words, features, movers }) ∨
      ∃ f rest, other.features = f :: rest ∧ f.sign = .licensee ∧ movers.get? f.name = none ∧
        p = { isLexical := false, words := head, features,
              movers := movers.insert f.name other } := by
  rw [place?]
  cases other.features with
  | nil => simp [eq_comm]
  | cons f rest =>
    simp only [Dict.contains_eq_false_iff, Option.ite_none_right_eq_some, Option.some.injEq]
    constructor
    · rintro ⟨⟨hsign, hnew⟩, rfl⟩
      exact Or.inr ⟨f, rest, rfl, hsign, hnew, rfl⟩
    · rintro (⟨hnil, -⟩ | ⟨_, _, heq, hsign, hnew, rfl⟩)
      · exact absurd hnil (by simp)
      · obtain ⟨rfl, rfl⟩ := List.cons.inj heq
        exact ⟨⟨hsign, hnew⟩, rfl⟩

/-- A phrase that finds its place leaves the features of the head as they are. -/
theorem features_of_place? {side : Branch} {head : List String} {features : List Feature}
    {movers : Dict String Moved} {other : Moved} {p : Phrase}
    (h : place? side head features movers other = some p) :
    p.isLexical = false ∧ p.features = features := by
  rcases place?_eq_some_iff.mp h with ⟨-, rfl⟩ | ⟨f, rest, -, -, -, rfl⟩
  · exact ⟨rfl, rfl⟩
  · exact ⟨rfl, rfl⟩

/-- The three ways to merge: with a complement, with a specifier, and as an adjunct. -/
theorem merge?_eq_some_iff {p q r : Phrase} :
    p.merge? q = some r ↔
      ∃ f features g rest, p.features = f :: features ∧ q.features = g :: rest ∧
        g.plain = .categorial f.name ∧
        ((f.sign = .selector ∧ p.isLexical = true ∧
            place? .right p.words features q.movers ⟨q.words, rest⟩ = some r) ∨
          (f.sign = .selector ∧ p.isLexical = false ∧ q.movers = ∅ ∧
            place? .left p.words features p.movers ⟨q.words, rest⟩ = some r) ∨
          (f.sign = .adjunct ∧ p.isLexical = true ∧ rest = [] ∧
            place? .right p.words features q.movers ⟨q.words, []⟩ = some r)) := by
  rw [merge?]
  constructor
  · intro h
    split at h
    · next f features g rest hp hq =>
      split at h
      · next hg =>
        -- the sign and the kind of the head decide the way to merge
        refine ⟨f, features, g, rest, hp, hq, hg, ?_⟩
        split at h
        · next hsign hlex => exact Or.inl ⟨hsign, hlex, h⟩
        · next hsign hlex =>
          split at h
          · next hmovers => exact Or.inr (Or.inl ⟨hsign, hlex, Dict.isEmpty_iff.mp hmovers, h⟩)
          · exact absurd h (by simp)
        · next hsign hlex =>
          split at h
          · next hrest => exact Or.inr (Or.inr ⟨hsign, hlex, hrest, h⟩)
          · exact absurd h (by simp)
        · exact absurd h (by simp)
      · exact absurd h (by simp)
    · exact absurd h (by simp)
  · rintro ⟨f, features, g, rest, hp, hq, hg, h⟩
    rcases h with ⟨hsign, hlex, h⟩ | ⟨hsign, hlex, hmovers, h⟩ | ⟨hsign, hlex, rfl, h⟩
    · simp only [hp, hq, hg, if_true, hsign, hlex, h]
    · simp only [hp, hq, hg, if_true, hsign, hlex, Dict.isEmpty_iff.mpr hmovers, h]
    · simp only [hp, hq, hg, if_true, hsign, hlex, h]

theorem move?_eq_some_iff {p r : Phrase} :
    p.move? = some r ↔
      ∃ f features m, p.features = f :: features ∧ f.sign = .licensor ∧
        p.movers.get? f.name = some m ∧
        place? .left p.words features (p.movers.erase f.name) ⟨m.words, m.features.tail⟩ =
          some r := by
  rw [move?]
  constructor
  · intro h
    split at h
    · exact absurd h (by simp)
    · next f features hp =>
      split at h
      · next hsign =>
        obtain ⟨m, hm, hr⟩ := Option.bind_eq_some_iff.mp h
        exact ⟨f, features, m, hp, hsign, hm, hr⟩
      · exact absurd h (by simp)
  · rintro ⟨f, features, m, hp, hsign, hm, h⟩
    simp only [hp, hsign, if_true, hm, Option.bind_some, h]

/-- Whichever way two phrases merge, the second one finds its place: right of a single word, left of
any other head. The movers come from one of the two. -/
theorem exists_place?_of_merge? {p q r : Phrase} (h : p.merge? q = some r)
    (hp : p.isLexical = true → p.movers = ∅) :
    ∃ f features g rest movers, p.features = f :: features ∧ q.features = g :: rest ∧
      (f.sign = .selector ∨ f.sign = .adjunct ∧ p.isLexical = true) ∧
      place? (if p.isLexical then .right else .left) p.words features movers ⟨q.words, rest⟩ =
        some r ∧
      (p.movers = ∅ ∧ movers = q.movers ∨ q.movers = ∅ ∧ movers = p.movers) := by
  obtain ⟨f, features, g, rest, hpf, hqf, -, hcases⟩ := merge?_eq_some_iff.mp h
  refine ⟨f, features, g, rest, ?_⟩
  rcases hcases with ⟨hsign, hlex, hr⟩ | ⟨hsign, hlex, hmovers, hr⟩ | ⟨hsign, hlex, rfl, hr⟩
  · exact ⟨q.movers, hpf, hqf, Or.inl hsign, by rw [if_pos hlex]; exact hr, Or.inl ⟨hp hlex, rfl⟩⟩
  · exact ⟨p.movers, hpf, hqf, Or.inl hsign, by rw [hlex]; exact hr, Or.inr ⟨hmovers, rfl⟩⟩
  · exact ⟨q.movers, hpf, hqf, Or.inr ⟨hsign, hlex⟩, by rw [if_pos hlex]; exact hr,
      Or.inl ⟨hp hlex, rfl⟩⟩

end Phrase

/-! ### Derived phrases -/

namespace Derivation

/-- The phrase that a derivation derives, if every step obeys the rules. -/
def phrase? (lex : Lexicon) : Derivation → Option Phrase
  | word leaf =>
    (lex.word? leaf).map fun w =>
      { isLexical := true, words := tokens w, features := lex.featuresOf leaf }
  | move part => (part.phrase? lex).bind Phrase.move?
  | merge selector selected =>
    (selector.phrase? lex).bind fun p => (selected.phrase? lex).bind p.merge?

/-- The derivation derives `words` as a phrase of category `start`: nothing but this category is
left, and nothing has to move. -/
def Derives (lex : Lexicon) (words : List String) (start : String) (d : Derivation) : Prop :=
  ∃ p, d.phrase? lex = some p ∧ p.words = words ∧
    p.features.map Feature.plain = [.categorial start] ∧
    p.movers = ∅

end Derivation

/-- The derivation that a tree of records stands for: its leaves are words, and the key of a record
tells which one. -/
def RecordTree.derivation? (lex : Lexicon) : RecordTree → Option Derivation
  | leaf r => ((lex.byKey? r.lexKey).filter lex.isLeaf).map .word
  | unary _ .left part => (part.derivation? lex).map .move
  | unary _ .right _ => none
  | binary _ left right =>
    (left.derivation? lex).bind fun d => (right.derivation? lex).map d.merge

/-! ### What is left of the features of a phrase -/

namespace Lexicon

/-- A list of features is what one meets on the way from some inner node up to its root, or there is
nothing left of it. -/
def IsWay (lex : Lexicon) (features : List Feature) : Prop :=
  ∃ place : Option Nat, (∀ i, place = some i → (lex.feature? i).isSome) ∧
    features = lex.featuresUp place

theorem isWay_featuresUp_parent? {lex : Lexicon} (hlex : lex.WellFormed) (i : Nat) :
    lex.IsWay (lex.featuresUp (lex.parent? i)) :=
  ⟨lex.parent? i, fun _ hp => hlex.isSome_feature?_of_parent? hp, rfl⟩

/-- A way goes on from its first node at the node above. -/
theorem IsWay.exists_of_cons {lex : Lexicon} (hlex : lex.WellFormed) {f : Feature}
    {features : List Feature} (h : lex.IsWay (f :: features)) :
    ∃ i, lex.feature? i = some f ∧ features = lex.featuresUp (lex.parent? i) := by
  obtain ⟨place, hplace, heq⟩ := h
  cases place with
  | none => exact absurd heq (by simp [featuresUp])
  | some i =>
    obtain ⟨g, hg⟩ := Option.isSome_iff_exists.mp (hplace i rfl)
    rw [featuresUp, Option.elim, hlex.featuresOf_of_feature? hg] at heq
    obtain ⟨rfl, rfl⟩ := List.cons.inj heq
    exact ⟨i, hg, rfl⟩

theorem IsWay.tail {lex : Lexicon} (hlex : lex.WellFormed) {features : List Feature}
    (h : lex.IsWay features) : lex.IsWay features.tail := by
  cases features with
  | nil => exact h
  | cons f features =>
    obtain ⟨i, -, rfl⟩ := h.exists_of_cons hlex
    exact isWay_featuresUp_parent? hlex i

end Lexicon

/-- The features of a phrase and of its movers are ways of the lexicon, and every mover is filed
under its first licensee. -/
structure Phrase.IsGrounded (lex : Lexicon) (p : Phrase) : Prop where
  features : lex.IsWay p.features
  movers {z : String} {m : Moved} : p.movers.get? z = some m →
    lex.IsWay m.features ∧ ∃ f rest, m.features = f :: rest ∧ f.plain = .licensee z

namespace Phrase

variable {lex : Lexicon}

theorem isGrounded_of_place? {side : Branch} {head : List String} {features : List Feature}
    {movers : Dict String Moved} {other : Moved} {p : Phrase}
    (h : place? side head features movers other = some p) (hfeatures : lex.IsWay features)
    (hother : lex.IsWay other.features)
    (hmovers : ∀ {z m}, movers.get? z = some m →
      lex.IsWay m.features ∧ ∃ f rest, m.features = f :: rest ∧ f.plain = .licensee z) :
    p.IsGrounded lex := by
  rcases place?_eq_some_iff.mp h with ⟨-, rfl⟩ | ⟨f, rest, heq, hsign, -, rfl⟩
  · exact ⟨hfeatures, hmovers⟩
  · refine ⟨hfeatures, fun {z m} hm => ?_⟩
    by_cases hz : z = f.name
    · rw [hz, Dict.get?_insert_self, Option.some.injEq] at hm
      subst hm
      refine ⟨hother, f, rest, heq, ?_⟩
      rw [hz, Feature.plain, Feature.licensee, hsign]
    · rw [Dict.get?_insert_of_ne hz] at hm
      exact hmovers hm

theorem IsGrounded.merge? (hlex : lex.WellFormed) {p q r : Phrase} (hp : p.IsGrounded lex)
    (hq : q.IsGrounded lex) (h : p.merge? q = some r) : r.IsGrounded lex := by
  obtain ⟨f, features, g, rest, hpf, hqf, -, hcases⟩ := merge?_eq_some_iff.mp h
  have hfeatures : lex.IsWay features := by
    have htail := hp.features.tail hlex
    rwa [hpf] at htail
  have hrest : lex.IsWay rest := by
    have htail := hq.features.tail hlex
    rwa [hqf] at htail
  rcases hcases with ⟨-, -, hr⟩ | ⟨-, -, -, hr⟩ | ⟨-, -, rfl, hr⟩
  · exact isGrounded_of_place? hr hfeatures hrest hq.movers
  · exact isGrounded_of_place? hr hfeatures hrest hp.movers
  · exact isGrounded_of_place? hr hfeatures hrest hq.movers

theorem IsGrounded.move? (hlex : lex.WellFormed) {p r : Phrase} (hp : p.IsGrounded lex)
    (h : p.move? = some r) : r.IsGrounded lex := by
  obtain ⟨f, features, m, hpf, -, hm, hr⟩ := move?_eq_some_iff.mp h
  have hfeatures : lex.IsWay features := by
    have htail := hp.features.tail hlex
    rwa [hpf] at htail
  exact isGrounded_of_place? hr hfeatures ((hp.movers hm).1.tail hlex) fun hm' =>
    hp.movers (Dict.get?_erase_eq_some_iff.mp hm').2

end Phrase

/-- Whether a derivation is a word of the lexicon. -/
def Derivation.IsWord (d : Derivation) : Prop := ∃ leaf, d = word leaf

/-- Only a word derives a single word of the lexicon. -/
theorem Derivation.isWord_of_isLexical {lex : Lexicon} {d : Derivation} {p : Phrase}
    (h : d.phrase? lex = some p) (hp : p.isLexical = true) : d.IsWord := by
  cases d with
  | word leaf => exact ⟨leaf, rfl⟩
  | move part =>
    obtain ⟨q, -, hmove⟩ := Option.bind_eq_some_iff.mp h
    obtain ⟨f, features, m, -, -, -, hplace⟩ := Phrase.move?_eq_some_iff.mp hmove
    exact absurd hp (by simp [(Phrase.features_of_place? hplace).1])
  | merge selector selected =>
    obtain ⟨q, -, hbind⟩ := Option.bind_eq_some_iff.mp h
    obtain ⟨q', -, hmerge⟩ := Option.bind_eq_some_iff.mp hbind
    obtain ⟨f, features, g, rest, -, -, -, hcases⟩ := Phrase.merge?_eq_some_iff.mp hmerge
    have hplaced : p.isLexical = false := by
      rcases hcases with ⟨-, -, hplace⟩ | ⟨-, -, -, hplace⟩ | ⟨-, -, -, hplace⟩
      all_goals exact (Phrase.features_of_place? hplace).1
    exact absurd hp (by simp [hplaced])

/-- Nothing moves out of a word. -/
theorem Derivation.movers_eq_empty_of_isLexical {lex : Lexicon} {d : Derivation} {p : Phrase}
    (h : d.phrase? lex = some p) (hp : p.isLexical = true) : p.movers = ∅ := by
  obtain ⟨leaf, rfl⟩ := isWord_of_isLexical h hp
  obtain ⟨w, -, rfl⟩ := Option.map_eq_some_iff.mp h
  rfl

/-- Every phrase that is derived is grounded in its lexicon. -/
theorem Derivation.isGrounded_of_phrase? {lex : Lexicon} (hlex : lex.WellFormed) {d : Derivation}
    {p : Phrase} (h : d.phrase? lex = some p) : p.IsGrounded lex := by
  induction d generalizing p with
  | word leaf =>
    obtain ⟨w, hw, rfl⟩ := Option.map_eq_some_iff.mp h
    refine ⟨?_, fun hm => absurd hm (by simp)⟩
    simp only [hlex.featuresOf_of_word? hw]
    exact Lexicon.isWay_featuresUp_parent? hlex leaf
  | move part ih =>
    obtain ⟨q, hq, hp⟩ := Option.bind_eq_some_iff.mp h
    exact (ih hq).move? hlex hp
  | merge selector selected ihSelector ihSelected =>
    obtain ⟨q, hq, h⟩ := Option.bind_eq_some_iff.mp h
    obtain ⟨r, hr, hp⟩ := Option.bind_eq_some_iff.mp h
    exact (ihSelector hq).merge? hlex (ihSelected hr) hp

end MinimalistGrammar
