import MinimalistGrammar.Beam.Expansion
import MinimalistGrammar.Proofs.Beam.Slots
import MinimalistGrammar.Proofs.Grammar.Derivation

/-!
# What a prediction predicts

A prediction stands for the phrases that are left with just the features from its lexicon node up to
the root, and in which the predicted movers wait. Where such a phrase takes another one, that one
stays or becomes a mover, and this decides where the two are pronounced and which movers come from
inside them.

## Main definitions

* `MoversAgree` — some movers are in step with what is known of their features.
* `Category.Predicts` — a phrase is one that a category predicts.
* `Category.pieces` — what is pronounced of a predicted phrase, and where.
* `Category.Lands` — where a phrase and the phrase that it takes are pronounced.

## Main results

* `Category.Lands.exists_place?` — a phrase that lands as predicted finds its place.
* `Category.exists_lands` — a phrase that finds its place lands as predicted.
-/

namespace MinimalistGrammar

/-- Whether words, or phrases that are no words, can continue below a node. -/
def Frontier.Admits : Frontier → Bool → Prop
  | all, _ => True
  | leaves, isLexical => isLexical = true
  | branches, isLexical => isLexical = false

/-- Some features are known: all of them, in order, but for categories at the end. Whether checking
is required need not be known. -/
def IsKnownOf (known features : List Feature) : Prop :=
  ∃ rest : List Feature, (∀ f ∈ rest, f.sign = .categorial) ∧
    (known ++ rest).map Feature.plain = features.map Feature.plain

namespace IsKnownOf

variable {f f' : Feature} {known features : List Feature} {lex : Lexicon} {i : Nat}

theorem nil : IsKnownOf [] [] := ⟨[], by simp, rfl⟩

/-- All features may be known. -/
theorem of_map_plain_eq (h : known.map Feature.plain = features.map Feature.plain) :
    IsKnownOf known features :=
  ⟨[], by simp, by rw [List.append_nil, h]⟩

theorem cons (hf : f'.plain = f.plain) (h : IsKnownOf known features) :
    IsKnownOf (f' :: known) (f :: features) := by
  obtain ⟨rest, hrest, heq⟩ := h
  exact ⟨rest, hrest, by rw [List.cons_append, List.map_cons, List.map_cons, hf, heq]⟩

/-- What is known up to the node above, and at the node itself. -/
theorem featuresOf (hlex : lex.WellFormed) (hi : lex.feature? i = some f) (hf : f'.plain = f.plain)
    (h : IsKnownOf known (lex.featuresUp (lex.parent? i))) :
    IsKnownOf (f' :: known) (lex.featuresOf i) := by
  rw [hlex.featuresOf_of_feature? hi]
  exact cons hf h

/-- Of a category at a root nothing needs to be known. -/
theorem nil_featuresOf (hlex : lex.WellFormed) (hi : lex.feature? i = some f)
    (hroot : lex.parent? i = none) (hsign : f.sign = .categorial) :
    IsKnownOf [] (lex.featuresOf i) := by
  refine ⟨[f], by simpa using hsign, ?_⟩
  rw [hlex.featuresOf_of_feature? hi, hroot]
  rfl

/-- A feature that is no category is known. -/
theorem exists_cons (h : IsKnownOf known (f :: features)) (hsign : f.sign ≠ .categorial) :
    ∃ f' known', known = f' :: known' ∧ f'.plain = f.plain := by
  obtain ⟨rest, hrest, heq⟩ := h
  cases known with
  | nil =>
    cases rest with
    | nil => exact absurd heq (by simp)
    | cons g rest =>
      have hg : g.plain = f.plain := (List.cons.inj heq).1
      exact absurd ((congrArg Feature.sign hg).symm.trans (hrest g (List.mem_cons_self ..))) hsign
  | cons f' known' => exact ⟨f', known', rfl, (List.cons.inj heq).1⟩

theorem tail (h : IsKnownOf known (f :: features)) : IsKnownOf known.tail features := by
  obtain ⟨rest, hrest, heq⟩ := h
  cases known with
  | nil =>
    cases rest with
    | nil => exact absurd heq (by simp)
    | cons g rest =>
      exact ⟨rest, fun f hf => hrest f (List.mem_cons_of_mem _ hf), (List.cons.inj heq).2⟩
  | cons f' known => exact ⟨rest, hrest, (List.cons.inj heq).2⟩

end IsKnownOf

/-- Some movers and what is known of their features have the same names, and the known features of
each mover are those from its node up. -/
structure MoversAgree (lex : Lexicon) (movers : Dict String Mover)
    (moving : Dict String (List Feature)) : Prop where
  keys : movers.keys = moving.keys
  features {z : String} {m : Mover} : movers.get? z = some m → ∃ checked,
    moving.get? z = some checked ∧
      checked.reverse.map Feature.plain = (lex.featuresOf m.node).map Feature.plain

namespace MoversAgree

variable {lex : Lexicon} {movers : Dict String Mover} {moving : Dict String (List Feature)}

theorem empty : MoversAgree lex ∅ ∅ := ⟨rfl, fun hm => absurd hm (by simp)⟩

/-- A mover is left out together with what is known of it. -/
theorem erase (h : MoversAgree lex movers moving) (x : String) :
    MoversAgree lex (movers.erase x) (moving.erase x) where
  keys := Dict.keys_erase_congr h.keys x
  features hm := by
    obtain ⟨hne, hm⟩ := Dict.get?_erase_eq_some_iff.mp hm
    rw [Dict.get?_erase_of_ne hne]
    exact h.features hm

/-- A mover is filed under the same name as what is known of it. -/
theorem insert (h : MoversAgree lex movers moving) (x : String) {m : Mover}
    {checked : List Feature}
    (hm : checked.reverse.map Feature.plain = (lex.featuresOf m.node).map Feature.plain) :
    MoversAgree lex (movers.insert x m) (moving.insert x checked) where
  keys := Dict.keys_insert_congr h.keys x m checked
  features {z m'} hm' := by
    by_cases hz : z = x
    · subst hz
      rw [Dict.get?_insert_self, Option.some.injEq] at hm'
      exact ⟨checked, Dict.get?_insert_self, hm' ▸ hm⟩
    · rw [Dict.get?_insert_of_ne hz] at hm' ⊢
      exact h.features hm'

end MoversAgree

/-- What is left of the features of a mover. -/
def Mover.remaining (lex : Lexicon) (m : Mover) : List Feature := lex.featuresOf m.node

namespace Category

/-- The nodes of a category and its movers carry features, those of the movers the licensees under
which they are filed, and what is known of the features is what the nodes say. -/
structure IsAnchored (lex : Lexicon) (c : Category) : Prop where
  node : (lex.feature? c.node).isSome
  movers {z : String} {m : Mover} : c.movers.get? z = some m →
    ∃ f, lex.feature? m.node = some f ∧ f.plain = .licensee z
  known : IsKnownOf c.features (lex.featuresOf c.node)
  moving : MoversAgree lex c.movers c.moving

/-- The phrase is left with the features from the node of the category up to the root, and in it
wait the predicted movers, each with the features from its own node up. -/
structure Predicts (lex : Lexicon) (c : Category) (p : Phrase) : Prop where
  frontier : c.frontier.Admits p.isLexical
  features : p.features = lex.featuresOf c.node
  movers : p.movers.map Moved.features = c.movers.map (Mover.remaining lex)

/-- What is pronounced of some movers, and where. -/
def moverPieces (movers : Dict String Mover) (moved : Dict String Moved) : List Piece :=
  movers.entries.map fun e => (e.2.index, (moved.get? e.1).elim [] Moved.words)

/-- What is pronounced of a predicted phrase, and where. -/
def pieces (c : Category) (p : Phrase) : List Piece :=
  (c.index, p.words) :: moverPieces c.movers p.movers

/-! ### Pieces of movers -/

section moverPieces

variable {movers : Dict String Mover} {moved : Dict String Moved} {z : String} {m : Mover}
  {v : Moved}

@[simp] theorem moverPieces_empty (moved : Dict String Moved) : moverPieces ∅ moved = [] := rfl

theorem moverPieces_insert_perm (moved : Dict String Moved) (v : Moved)
    (hz : movers.get? z = none) : (moverPieces (movers.insert z m) (moved.insert z v)).Perm
      ((m.index, v.words) :: moverPieces movers moved) := by
  refine ((Dict.entries_insert_perm hz).map _).trans ?_
  rw [List.map_cons, Dict.get?_insert_self]
  refine List.Perm.cons _ (List.Perm.of_eq (List.map_congr_left fun x hx => ?_))
  have hne : x.1 ≠ z := by
    rintro rfl
    rw [Dict.get?_eq_some_iff.mpr hx] at hz
    exact absurd hz (by simp)
  rw [Dict.get?_insert_of_ne hne]

theorem moverPieces_erase_perm (hm : movers.get? z = some m) (hv : moved.get? z = some v) :
    (moverPieces movers moved).Perm
      ((m.index, v.words) :: moverPieces (movers.erase z) (moved.erase z)) := by
  have hperm := moverPieces_insert_perm (m := m) (moved.erase z) v
    (Dict.get?_erase_self (d := movers) (k := z))
  rwa [Dict.insert_erase hm, Dict.insert_erase hv] at hperm

end moverPieces

/-! ### Where a phrase lands -/

end Category

/-- The other side. -/
def Branch.opposite : Branch → Branch
  | left => right
  | right => left

namespace Category

/-- A phrase with the active node `s`, taken on one side of the phrase that `c` predicts, stays
there or becomes one of the predicted movers. This gives the places of the head and of the phrase,
and the other movers. -/
inductive Lands (lex : Lexicon) (c : Category) (side : Branch) (s : Nat) :
    Address → Address → Dict String Mover → Prop
  /-- Nothing is above the active node, so the phrase stays. -/
  | stay (hroot : lex.parent? s = none) :
      Lands lex c side s (c.index.child side.opposite) (c.index.child side) c.movers
  /-- Above the active node is the licensee of a mover, so the phrase moves. -/
  | go {z : String} {m : Mover} (hm : c.movers.get? z = some m)
      (hparent : lex.parent? s = some m.node) :
      Lands lex c side s c.index m.index (c.movers.erase z)

section lands

variable {lex : Lexicon} {c : Category} {side : Branch} {s : Nat} {iHead iOther : Address}
  {others : Dict String Mover} {movers : Dict String Moved}

/-- On either side of the head, a phrase that stays takes one half of the place of the whole. -/
theorem arranges_beside (side : Branch) (i : Address) (head other : List String)
    (rest : List Piece) (words : List String) :
    Arranges ((i, Phrase.beside side head other) :: rest) words ↔
      Arranges ((i.child side.opposite, head) :: (i.child side, other) :: rest) words := by
  cases side with
  | left =>
    refine (arranges_split i other head rest words).trans (arranges_congr ?_ words)
    exact List.Perm.swap ..
  | right => exact arranges_split i head other rest words

/-- A phrase that lands as predicted finds its place, as part of a phrase with the predicted movers
whose pieces are pronounced where they were predicted. -/
theorem Lands.exists_place? (hlex : lex.WellFormed) (hc : c.IsAnchored lex)
    (h : c.Lands lex side s iHead iOther others)
    (hmovers : movers.map Moved.features = others.map (Mover.remaining lex))
    (head words : List String) (features : List Feature) :
    ∃ r, Phrase.place? side head features movers ⟨words, lex.featuresUp (lex.parent? s)⟩ = some r ∧
      r.isLexical = false ∧ r.features = features ∧
      r.movers.map Moved.features = c.movers.map (Mover.remaining lex) ∧
      ∀ rest ws, Arranges (c.pieces r ++ rest) ws ↔
        Arranges ((iHead, head) :: (iOther, words) :: (moverPieces others movers ++ rest)) ws := by
  cases h with
  | stay hroot =>
    have hnil := hlex.featuresUp_parent?_eq_nil_iff.mpr hroot
    refine ⟨_, Phrase.place?_eq_some_iff.mpr (Or.inl ⟨hnil, rfl⟩), rfl, rfl, hmovers, ?_⟩
    intro rest ws
    exact arranges_beside side c.index head words _ ws
  | @go z m hm hparent =>
    obtain ⟨f, hf, hplain⟩ := hc.movers hm
    have hfeatures : lex.featuresUp (lex.parent? s) = f :: lex.featuresUp (lex.parent? m.node) := by
      rw [hparent]
      exact hlex.featuresOf_of_feature? hf
    have hname : f.name = z := congrArg Feature.name hplain
    have hsign : f.sign = .licensee := congrArg Feature.sign hplain
    -- no other mover has the name of this one
    have hnew : movers.get? z = none := by
      have hz := congrArg (Dict.get? · z) hmovers
      simpa using hz
    refine ⟨_, Phrase.place?_eq_some_iff.mpr
      (Or.inr ⟨f, _, hfeatures, hsign, by rw [hname]; exact hnew, rfl⟩), rfl, rfl, ?_, ?_⟩
    · rw [Dict.map_insert, hmovers, Dict.map_erase, hname]
      refine Dict.insert_erase ?_
      rw [Dict.get?_map, hm, Option.map_some, Mover.remaining, hfeatures]
      exact congrArg some (hlex.featuresOf_of_feature? hf)
    · intro rest ws
      refine arranges_congr ?_ ws
      rw [hname]
      have hperm := moverPieces_erase_perm (v := ⟨words, lex.featuresUp (lex.parent? s)⟩) hm
        (Dict.get?_insert_self (d := movers) (k := z))
      rw [Dict.erase_insert hnew] at hperm
      exact ((hperm.append_right rest).cons (c.index, head))

/-- A phrase that finds its place, as part of a phrase with the predicted movers, lands as
predicted. -/
theorem exists_lands (hlex : lex.WellFormed) (hc : c.IsAnchored lex) {head words : List String}
    {features : List Feature} {r : Phrase}
    (h : Phrase.place? side head features movers ⟨words, lex.featuresUp (lex.parent? s)⟩ = some r)
    (hr : r.movers.map Moved.features = c.movers.map (Mover.remaining lex)) :
    r.isLexical = false ∧ r.features = features ∧
      ∃ iHead iOther others, c.Lands lex side s iHead iOther others ∧
        movers.map Moved.features = others.map (Mover.remaining lex) := by
  rcases Phrase.place?_eq_some_iff.mp h with ⟨hnil, rfl⟩ | ⟨f, rest, hfeatures, hsign, hnew, rfl⟩
  · exact ⟨rfl, rfl, _, _, _, Lands.stay (hlex.featuresUp_parent?_eq_nil_iff.mp hnil), hr⟩
  · refine ⟨rfl, rfl, ?_⟩
    -- the new mover is one of the predicted ones
    have hmap := congrArg (Dict.get? · f.name) hr
    simp only [Dict.get?_map, Dict.get?_insert_self, Option.map_some] at hmap
    obtain ⟨m, hm, hremaining⟩ := Option.map_eq_some_iff.mp hmap.symm
    obtain ⟨g, hg, -⟩ := hc.movers hm
    refine ⟨_, _, _, Lands.go hm (hlex.parent?_eq_some_of_featuresUp ?_ hremaining.symm), ?_⟩
    · simp [hg]
    · rw [Dict.map_erase, ← hr, Dict.map_insert]
      refine (Dict.erase_insert ?_).symm
      rw [Dict.get?_map, hnew, Option.map_none]

end lands

end Category
end MinimalistGrammar
