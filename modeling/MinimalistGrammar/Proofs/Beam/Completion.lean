import MinimalistGrammar.Proofs.Beam.Frontier

/-!
# Derivations that complete a parse

A derivation completes a parse if the records of the parse are nodes of the derivation, all other
nodes are below the open predictions and fit them, and what is below them is pronounced as the rest
of the input. Of the expansions of the first open prediction, exactly those that the derivation
matches are still completed by it.

## Main definitions

* `Derivation.at?` — the part of a derivation at the end of a way down.
* `Completes` — a derivation completes some records and open predictions.
* `IsFillable` — whatever fits the open predictions makes up a derivation that completes the parse.

## Main results

* `completes_expand_iff` — a derivation completes a parse after an expansion if and only if it
  completes the parse and matches the expansion.
* `IsFillable.expand` — an expansion keeps a parse fillable.
-/

namespace MinimalistGrammar

/-! ### Parts of a derivation -/

namespace Derivation

/-- The part of a derivation at the end of a way down. -/
def at? : Derivation → List Branch → Option Derivation
  | d, [] => some d
  | word _, _ :: _ => none
  | move part, .left :: way => part.at? way
  | move _, .right :: _ => none
  | merge selector _, .left :: way => selector.at? way
  | merge _ selected, .right :: way => selected.at? way

@[simp] theorem at?_nil (d : Derivation) : d.at? [] = some d := by
  cases d <;> rfl

@[simp] theorem at?_word_cons (leaf : Nat) (side : Branch) (way : List Branch) :
    (word leaf).at? (side :: way) = none := rfl

@[simp] theorem at?_move_left (part : Derivation) (way : List Branch) :
    (move part).at? (.left :: way) = part.at? way := rfl

@[simp] theorem at?_move_right (part : Derivation) (way : List Branch) :
    (move part).at? (.right :: way) = none := rfl

@[simp] theorem at?_merge_left (selector selected : Derivation) (way : List Branch) :
    (merge selector selected).at? (.left :: way) = selector.at? way := rfl

@[simp] theorem at?_merge_right (selector selected : Derivation) (way : List Branch) :
    (merge selector selected).at? (.right :: way) = selected.at? way := rfl

theorem at?_append (d : Derivation) (way way' : List Branch) :
    d.at? (way ++ way') = (d.at? way).bind (·.at? way') := by
  induction way generalizing d with
  | nil => simp
  | cons side way ih => cases d <;> cases side <;> simp [ih]

theorem at?_child (d : Derivation) (path : Address) (side : Branch) :
    d.at? (path.child side).branches = (d.at? path.branches).bind (·.at? [side]) :=
  at?_append ..

end Derivation

/-- The phrase at a category is pronounced as the derivation says. -/
def Category.piecesIn (lex : Lexicon) (d : Derivation) (c : Category) : List Piece :=
  (d.at? c.path.branches).elim [] (c.piecesOf lex)

/-- What the parts of an expansion leave to pronounce of a derivation. -/
def Expansion.openPieces (lex : Lexicon) : Expansion → Derivation → List Piece
  | .scan .., _ => []
  | .predict rule parts, d => Expansion.piecesOf lex (.predict rule parts) d

/-- A derivation completes some records, open predictions and the input that is left. -/
structure Completes (lex : Lexicon) (records : List NodeRecord) (predicted : List Category)
    (input : List String) (d : Derivation) : Prop where
  /-- Records are nodes of the derivation, those of lexical heads are words, and those with a word
  name their leaves. -/
  recorded {r : NodeRecord} : r ∈ records → ∃ d', d.at? r.path.branches = some d' ∧
    (r.isLexical = true → d'.IsWord) ∧
    (r.label.isSome → ∃ leaf, d' = .word leaf ∧ r.lexKey = Lexicon.key leaf)
  /-- A node has a record or is below an open prediction. -/
  covered {way : List Branch} {d' : Derivation} : d.at? way = some d' →
    (∃ r ∈ records, r.path.branches = way ∧ (d'.IsWord → r.label.isSome)) ∨
      ∃ c ∈ predicted, c.path.branches <+: way
  fits {c : Category} : c ∈ predicted → ∃ d', d.at? c.path.branches = some d' ∧ c.Fits lex d'
  arranged : Arranges (predicted.flatMap (Category.piecesIn lex d)) input

section completes

variable {lex : Lexicon} {records : List NodeRecord} {c : Category} {predicted rest : List Category}
  {input : List String} {d d' : Derivation} {target : Nat} {e : Expansion}

theorem Completes.of_perm {predicted' : List Category}
    (h : Completes lex records predicted input d) (hperm : predicted.Perm predicted') :
    Completes lex records predicted' input d where
  recorded := h.recorded
  covered hway := (h.covered hway).imp_right fun ⟨c, hc, hbegins⟩ =>
    ⟨c, hperm.mem_iff.mp hc, hbegins⟩
  fits hc := h.fits (hperm.mem_iff.mpr hc)
  arranged := (arranges_congr (hperm.flatMap_right _) input).mp h.arranged

/-! ### Matching an expansion -/

/-- The nodes right below an expanded prediction are those that the expansion predicts. -/
theorem exists_mem_parts_of_completes (hcoherent : IsCoherent lex records (c :: rest))
    (hunfolds : c.Unfolds e)
    (h : Completes lex (records ++ e.records lex) (e.parts ++ rest) input d) (side : Branch)
    (hd : (d.at? (c.path.child side).branches).isSome) :
    ∃ part ∈ e.parts, part.path = c.path.child side := by
  obtain ⟨hapart, -⟩ := List.pairwise_cons.mp hcoherent.paths
  have hlength : ∀ path : Address, ¬(path.child side).branches <+: path.branches := by
    intro path hbegins
    exact absurd hbegins.length_le (by simp [Address.child])
  obtain ⟨d', hd'⟩ := Option.isSome_iff_exists.mp hd
  rcases h.covered hd' with ⟨r, hr, hpath, -⟩ | ⟨b, hb, hbegins⟩
  · -- no record was below the prediction
    rcases List.mem_append.mp hr with hr | hr
    · have hc := hcoherent.last (List.mem_cons_self ..) hr (hpath ▸ List.prefix_append ..)
      rw [hc] at hpath
      exact absurd (hpath ▸ List.prefix_refl _) (hlength c.path)
    · rcases hunfolds.path_of_mem_records hr with ⟨hc, -⟩ | ⟨part, hpart, rfl⟩
      · rw [hc] at hpath
        exact absurd (hpath ▸ List.prefix_refl _) (hlength c.path)
      · exact ⟨part, hpart, congrArg Address.mk hpath⟩
  · rcases List.mem_append.mp hb with hb | hb
    · obtain ⟨side', hside'⟩ := hunfolds.exists_path_eq hb
      rw [hside'] at hbegins
      refine ⟨b, hb, hside'.trans (congrArg Address.mk ?_)⟩
      exact hbegins.eq_of_length (by simp [Address.child])
    · exact absurd hbegins ((hapart b hb).child side).symm.not_begins

/-- What completes a parse after an expansion matches the expansion. -/
theorem exists_matches_of_completes (hcoherent : IsCoherent lex records (c :: rest))
    (hunfolds : c.Unfolds e)
    (h : Completes lex (records ++ e.records lex) (e.parts ++ rest) input d) :
    ∃ d', d.at? c.path.branches = some d' ∧ e.Matches lex d' := by
  have hparts := exists_mem_parts_of_completes hcoherent hunfolds h
  cases hunfolds with
  | scan leaf tokens =>
    obtain ⟨d', hd', -, hword⟩ := h.recorded (List.mem_append_right _ (List.mem_singleton_self _))
    obtain ⟨leaf', rfl, hkey⟩ := hword rfl
    exact ⟨_, hd', (Lexicon.key_injective hkey).symm⟩
  | @move rule part hpath =>
    obtain ⟨d₁, hd₁, hfits⟩ := h.fits (List.mem_append_left rest (List.mem_singleton_self part))
    rw [hpath, Address.left, d.at?_child] at hd₁
    obtain ⟨d', hd', hleft⟩ := Option.bind_eq_some_iff.mp hd₁
    refine ⟨d', hd', ?_⟩
    cases d' with
    | word leaf => exact absurd hleft (by simp)
    | move part' =>
      rw [Derivation.at?_move_left, Derivation.at?_nil, Option.some.injEq] at hleft
      exact hleft ▸ hfits
    | merge selector selected =>
      -- a second part would not be predicted
      have hright : (d.at? (c.path.child .right).branches).isSome := by
        simp [d.at?_child, hd']
      obtain ⟨part', hpart', hpath'⟩ := hparts .right hright
      rw [List.mem_singleton.mp hpart', hpath, Address.left, Address.child_inj] at hpath'
      exact absurd hpath'.2 (by decide)
  | @merge rule head other hhead hother =>
    obtain ⟨d₁, hd₁, hfits₁⟩ := h.fits (c := head) (by simp [Expansion.parts])
    obtain ⟨d₂, hd₂, hfits₂⟩ := h.fits (c := other) (by simp [Expansion.parts])
    rw [hhead, Address.left, d.at?_child] at hd₁
    rw [hother, Address.right, d.at?_child] at hd₂
    obtain ⟨d', hd', hleft⟩ := Option.bind_eq_some_iff.mp hd₁
    rw [hd', Option.bind_some] at hd₂
    refine ⟨d', hd', ?_⟩
    cases d' with
    | word leaf => exact absurd hleft (by simp)
    | move part' => exact absurd hd₂ (by simp)
    | merge selector selected =>
      rw [Derivation.at?_merge_left, Derivation.at?_nil, Option.some.injEq] at hleft
      rw [Derivation.at?_merge_right, Derivation.at?_nil, Option.some.injEq] at hd₂
      exact ⟨hleft ▸ hfits₁, hd₂ ▸ hfits₂⟩

/-- The parts of a derivation that matches an expansion are below the prediction, and fit. -/
theorem exists_fits_of_matches (hunfolds : c.Unfolds e) (hd' : d.at? c.path.branches = some d')
    (hmatches : e.Matches lex d') {part : Category} (hpart : part ∈ e.parts) :
    ∃ d'', d.at? part.path.branches = some d'' ∧ part.Fits lex d'' := by
  cases hunfolds with
  | scan => exact absurd hpart (by simp [Expansion.parts])
  | @move rule part hpath =>
    obtain rfl := List.mem_singleton.mp hpart
    cases d' with
    | word leaf => exact hmatches.elim
    | move d₁ =>
      refine ⟨d₁, ?_, hmatches⟩
      rw [hpath, Address.left, d.at?_child, hd']
      exact d₁.at?_nil
    | merge selector selected => exact hmatches.elim
  | @merge rule head other hhead hother =>
    cases d' with
    | word leaf => exact hmatches.elim
    | move d₁ => exact hmatches.elim
    | merge d₁ d₂ =>
      rcases List.mem_cons.mp hpart with rfl | hpart
      · refine ⟨d₁, ?_, hmatches.1⟩
        rw [hhead, Address.left, d.at?_child, hd']
        exact d₁.at?_nil
      · obtain rfl := List.mem_singleton.mp hpart
        refine ⟨d₂, ?_, hmatches.2⟩
        rw [hother, Address.right, d.at?_child, hd']
        exact d₂.at?_nil

/-- Every node of a derivation that matches an expansion is the prediction itself or at one of its
parts or below. -/
theorem covered_of_matches (hunfolds : c.Unfolds e) (hmatches : e.Matches lex d')
    {way : List Branch} {d'' : Derivation} (hway : d'.at? way = some d'') :
    (way = [] ∧ (d''.IsWord → ∃ leaf tokens, e = .scan leaf c tokens)) ∨
      ∃ part ∈ e.parts, part.path.branches <+: c.path.branches ++ way := by
  cases way with
  | nil =>
    rw [Derivation.at?_nil, Option.some.injEq] at hway
    subst hway
    refine Or.inl ⟨rfl, ?_⟩
    rintro ⟨leaf, rfl⟩
    cases hunfolds with
    | scan leaf tokens => exact ⟨leaf, tokens, rfl⟩
    | move => exact hmatches.elim
    | merge => exact hmatches.elim
  | cons side way =>
    refine Or.inr ?_
    -- a way that goes on begins at the part on its first side
    have hbegins (side : Branch) :
        (c.path.child side).branches <+: c.path.branches ++ side :: way :=
      ⟨way, by simp [Address.child]⟩
    cases hunfolds with
    | scan =>
      cases d' with
      | word leaf => exact absurd hway (by simp)
      | move d₁ => exact hmatches.elim
      | merge d₁ d₂ => exact hmatches.elim
    | @move rule part hpath =>
      cases d' with
      | word leaf => exact hmatches.elim
      | move d₁ =>
        cases side with
        | left => exact ⟨part, List.mem_singleton_self _, hpath ▸ hbegins .left⟩
        | right => exact absurd hway (by simp)
      | merge d₁ d₂ => exact hmatches.elim
    | @merge rule head other hhead hother =>
      cases side with
      | left => exact ⟨head, by simp [Expansion.parts], hhead ▸ hbegins .left⟩
      | right => exact ⟨other, by simp [Expansion.parts], hother ▸ hbegins .right⟩

theorem recorded_of_matches (hunfolds : c.Unfolds e) (hd' : d.at? c.path.branches = some d')
    (hmatches : e.Matches lex d') {r : NodeRecord} (hr : r ∈ e.records lex) :
    ∃ d'', d.at? r.path.branches = some d'' ∧ (r.isLexical = true → d''.IsWord) ∧
      (r.label.isSome → ∃ leaf, d'' = .word leaf ∧ r.lexKey = Lexicon.key leaf) := by
  rcases hunfolds.path_of_mem_records hr with ⟨hpath, hnil⟩ | ⟨part, hpart, rfl⟩
  · cases hunfolds with
    | scan leaf tokens =>
      obtain rfl := List.mem_singleton.mp hr
      cases d' with
      | word i =>
        exact ⟨_, hd', fun _ => ⟨i, rfl⟩,
          fun _ => ⟨i, rfl, congrArg Lexicon.key (Eq.symm hmatches)⟩⟩
      | move d₁ => exact hmatches.elim
      | merge d₁ d₂ => exact hmatches.elim
    | move => exact absurd hnil (by simp [Expansion.parts])
    | merge => exact absurd hnil (by simp [Expansion.parts])
  · obtain ⟨d'', hd'', p, hp, hpredicts⟩ := exists_fits_of_matches hunfolds hd' hmatches hpart
    refine ⟨d'', hd'', fun hlexical => ?_,
      fun hlabel => absurd hlabel (by simp [NodeRecord.predicted])⟩
    -- only a word fits the prediction of a lexical head
    have hfrontier := hpredicts.frontier
    rw [show part.frontier = .leaves by simpa [NodeRecord.predicted] using hlexical] at hfrontier
    exact Derivation.isWord_of_isLexical hp hfrontier

/-- A node below an expanded prediction has a record now or is below one of its parts. -/
theorem covered_of_coherent (hcoherent : IsCoherent lex records (c :: rest))
    (hunfolds : c.Unfolds e) (hd' : d.at? c.path.branches = some d') (hmatches : e.Matches lex d')
    {way : List Branch} {d'' : Derivation} (hway : d.at? way = some d'')
    (hbegins : c.path.branches <+: way) :
    (∃ r ∈ records ++ e.records lex, r.path.branches = way ∧ (d''.IsWord → r.label.isSome)) ∨
      ∃ b ∈ e.parts ++ rest, b.path.branches <+: way := by
  obtain ⟨way', rfl⟩ := hbegins
  rw [d.at?_append, hd', Option.bind_some] at hway
  rcases covered_of_matches hunfolds hmatches hway with ⟨rfl, hword⟩ | ⟨part, hpart, hbegins⟩
  · refine Or.inl ?_
    rw [List.append_nil]
    by_cases hd'' : d''.IsWord
    · obtain ⟨leaf, tokens, rfl⟩ := hword hd''
      exact ⟨_, List.mem_append_right _ (List.mem_singleton_self _), rfl, fun _ => rfl⟩
    · obtain ⟨r, hr, hpath⟩ := hcoherent.recorded (List.mem_cons_self ..)
      exact ⟨r, List.mem_append_left _ hr, congrArg _ hpath, fun h => absurd h hd''⟩
  · exact Or.inr ⟨part, List.mem_append_left _ hpart, hbegins⟩

/-! ### The step -/

theorem Category.fst_mem_slots {p : Phrase} {piece : Piece} (h : piece ∈ c.pieces p) :
    piece.1 ∈ c.slots := by
  rcases List.mem_cons.mp h with rfl | h
  · exact List.mem_cons_self ..
  · obtain ⟨x, hx, rfl⟩ := List.mem_map.mp h
    exact List.mem_cons_of_mem _ (List.mem_map_of_mem (List.mem_map_of_mem hx))

theorem Category.fst_mem_slots_of_mem_piecesOf {piece : Piece} (h : piece ∈ c.piecesOf lex d) :
    piece.1 ∈ c.slots := by
  rw [piecesOf] at h
  cases hp : d.phrase? lex with
  | none => simp [hp] at h
  | some p => exact fst_mem_slots (p := p) (by simpa [hp] using h)

theorem Category.fst_mem_slots_of_mem_piecesIn {piece : Piece} (h : piece ∈ c.piecesIn lex d) :
    piece.1 ∈ c.slots := by
  rw [piecesIn] at h
  cases hd : d.at? c.path.branches with
  | none => simp [hd] at h
  | some d' => exact fst_mem_slots_of_mem_piecesOf (by simpa [hd] using h)

/-- The new predictions are pronounced as the derivation says. -/
theorem flatMap_parts_eq (hunfolds : c.Unfolds e) (hmatches : e.Matches lex d')
    (part? : Address → Option Derivation)
    (hparts : ∀ part ∈ e.parts, ∀ side, part.path = c.path.child side →
      part? part.path = d'.at? [side]) :
    (e.parts.flatMap fun part => (part? part.path).elim [] (part.piecesOf lex)) =
      e.openPieces lex d' := by
  cases hunfolds with
  | scan => rfl
  | @move _ part hpath =>
    cases d' with
    | word leaf => exact hmatches.elim
    | move d₁ =>
      have hleft := hparts part (List.mem_singleton_self _) .left hpath
      rw [Derivation.at?_move_left, Derivation.at?_nil] at hleft
      rw [Expansion.parts, List.flatMap_singleton, hleft]
      rfl
    | merge selector selected => exact hmatches.elim
  | @merge _ head other hhead hother =>
    cases d' with
    | word leaf => exact hmatches.elim
    | move d₁ => exact hmatches.elim
    | merge d₁ d₂ =>
      have hleft := hparts head (by simp [Expansion.parts]) .left hhead
      have hright := hparts other (by simp [Expansion.parts]) .right hother
      rw [Derivation.at?_merge_left, Derivation.at?_nil] at hleft
      rw [Derivation.at?_merge_right, Derivation.at?_nil] at hright
      rw [Expansion.parts, List.flatMap_cons, List.flatMap_singleton, hleft, hright]
      rfl

/-- A word is pronounced first if its prediction is furthest to the left. -/
theorem arranges_scan_iff {tokens : List String} {pieces : List Piece}
    (htokens : tokens <+: input) (hfirst : ∀ piece ∈ pieces, c.index.Before piece.1) :
    Arranges ((c.index, tokens) :: pieces) input ↔ Arranges pieces (input.drop tokens.length) := by
  obtain ⟨others, rfl⟩ := htokens
  rw [arranges_cons_iff hfirst, List.drop_left]
  constructor
  · rintro ⟨others', heq, h⟩
    exact List.append_cancel_left heq ▸ h
  · exact fun h => ⟨others, rfl, h⟩

/-- The prediction furthest to the left is before all others, unless something moves out of it. -/
theorem index_before_of_mem_slots (hcoherent : IsCoherent lex records (c :: rest))
    (hleast : ∀ o ∈ rest.flatMap Category.slots, (compare c.minIndex o).isLE)
    (hmovers : c.movers = ∅) {o : Address} (ho : o ∈ rest.flatMap Category.slots) :
    c.index.Before o := by
  have hmin : c.minIndex = c.index := by
    rw [Category.minIndex, hmovers]
    rfl
  -- the places are apart, and the first one is not greater
  have hapart : c.index.Apart o :=
    (List.pairwise_cons.mp hcoherent.slots).1 _ (List.mem_append_right _ ho)
  exact hapart.before_of_isLE (hmin ▸ hleast _ ho)

theorem mem_slots_of_mem_flatMap_piecesIn {piece : Piece}
    (h : piece ∈ rest.flatMap (Category.piecesIn lex d)) :
    piece.1 ∈ rest.flatMap Category.slots := by
  obtain ⟨b, hb, hpiece⟩ := List.mem_flatMap.mp h
  exact List.mem_flatMap.mpr ⟨b, hb, Category.fst_mem_slots_of_mem_piecesIn hpiece⟩

/-- A word that is predicted furthest to the left comes next in the input. -/
theorem prefix_of_completes (hcoherent : IsCoherent lex records (c :: rest))
    (hleast : ∀ o ∈ rest.flatMap Category.slots, (compare c.minIndex o).isLE)
    (h : Completes lex records (c :: rest) input d) {leaf : Nat} {w : String}
    (hd' : d.at? c.path.branches = some (.word leaf)) (hw : lex.word? leaf = some w) :
    tokens w <+: input := by
  obtain ⟨d', hat, p, hp, hpredicts⟩ := h.fits (List.mem_cons_self ..)
  obtain rfl := Option.some.inj (hd'.symm.trans hat)
  obtain rfl : ⟨true, tokens w, lex.featuresOf leaf, ∅⟩ = p := by
    rw [Derivation.phrase?, hw, Option.map_some] at hp
    exact Option.some.inj hp
  have hmovers := Category.eq_empty_of_map_eq hpredicts.movers.symm rfl
  have hpieces : c.piecesIn lex d = [(c.index, tokens w)] := by
    rw [Category.piecesIn, hd', Option.elim, Category.piecesOf, hp, Option.elim, Category.pieces,
      hmovers]
    rfl
  have harranged := h.arranged
  rw [List.flatMap_cons, hpieces] at harranged
  obtain ⟨others, hinput, -⟩ := (arranges_cons_iff fun piece hpiece =>
    index_before_of_mem_slots hcoherent hleast hmovers
      (mem_slots_of_mem_flatMap_piecesIn hpiece)).mp harranged
  exact ⟨others, hinput.symm⟩

/-- What is open before and after an expansion is pronounced as the rest of the input. -/
theorem arranges_expand_iff (hlex : lex.WellFormed) (hcoherent : IsCoherent lex records (c :: rest))
    (hleast : ∀ o ∈ rest.flatMap Category.slots, (compare c.minIndex o).isLE)
    (he : c.Expands lex input target e) (hmatches : e.Matches lex d') {pieces : List Piece}
    (hpieces : ∀ piece ∈ pieces, piece.1 ∈ rest.flatMap Category.slots) :
    Arranges (c.piecesOf lex d' ++ pieces) input ↔
      Arranges (e.openPieces lex d' ++ pieces) (e.rest input) := by
  have hc := hcoherent.anchored (List.mem_cons_self ..)
  refine ((he.fits_of_matches hlex hc hmatches).2 pieces input).trans ?_
  cases e with
  | predict rule parts => exact Iff.rfl
  | scan leaf c' tokens =>
    cases he with
    | scan hparent hadmits hword hmovers hinput =>
      exact arranges_scan_iff hinput fun piece hpiece =>
        index_before_of_mem_slots hcoherent hleast hmovers (hpieces _ hpiece)

theorem arranges_flatMap_expand_iff (hlex : lex.WellFormed)
    (hcoherent : IsCoherent lex records (c :: rest))
    (hleast : ∀ o ∈ rest.flatMap Category.slots, (compare c.minIndex o).isLE)
    (he : c.Expands lex input target e) (hd' : d.at? c.path.branches = some d')
    (hmatches : e.Matches lex d') :
    Arranges ((c :: rest).flatMap (Category.piecesIn lex d)) input ↔
      Arranges ((e.parts ++ rest).flatMap (Category.piecesIn lex d)) (e.rest input) := by
  have hparts : e.parts.flatMap (Category.piecesIn lex d) = e.openPieces lex d' := by
    refine flatMap_parts_eq he.unfolds hmatches (fun path => d.at? path.branches) ?_
    intro part _ side hpath
    rw [hpath, d.at?_child, hd', Option.bind_some]
  have hcategory : c.piecesIn lex d = c.piecesOf lex d' := by
    rw [Category.piecesIn, hd']
    rfl
  rw [List.flatMap_cons, List.flatMap_append, hparts, hcategory]
  exact arranges_expand_iff hlex hcoherent hleast he hmatches fun _ =>
    mem_slots_of_mem_flatMap_piecesIn

section expand

variable (hlex : lex.WellFormed) (hcoherent : IsCoherent lex records (c :: rest))
  (hleast : ∀ o ∈ rest.flatMap Category.slots, (compare c.minIndex o).isLE)
  (he : c.Expands lex input target e)

include hlex hcoherent hleast he

/-- What completes a parse after an expansion completes it before: what is new is at the prediction
or below. -/
theorem Completes.of_expand
    (h : Completes lex (records ++ e.records lex) (e.parts ++ rest) (e.rest input) d)
    (hd' : d.at? c.path.branches = some d') (hmatches : e.Matches lex d') :
    Completes lex records (c :: rest) input d where
  recorded hr := h.recorded (List.mem_append_left _ hr)
  covered hway := by
    rcases h.covered hway with ⟨r, hr, hpath, hlabel⟩ | ⟨b, hb, hbegins⟩
    · rcases List.mem_append.mp hr with hr | hr
      · exact Or.inl ⟨r, hr, hpath, hlabel⟩
      · exact Or.inr ⟨c, List.mem_cons_self .., hpath ▸ he.unfolds.prefix_of_mem_records hr⟩
    · rcases List.mem_append.mp hb with hb | hb
      · obtain ⟨side, hside⟩ := he.unfolds.exists_path_eq hb
        rw [hside] at hbegins
        exact Or.inr ⟨c, List.mem_cons_self .., (List.prefix_append ..).trans hbegins⟩
      · exact Or.inr ⟨b, List.mem_cons_of_mem _ hb, hbegins⟩
  fits hb := by
    rcases List.mem_cons.mp hb with rfl | hb
    · have hc := hcoherent.anchored (List.mem_cons_self ..)
      exact ⟨d', hd', (he.fits_of_matches hlex hc hmatches).1⟩
    · exact h.fits (List.mem_append_right _ hb)
  arranged := (arranges_flatMap_expand_iff hlex hcoherent hleast he hd' hmatches).mpr h.arranged

/-- What completes a parse, and matches an expansion at the prediction, completes it afterwards. -/
theorem Completes.expand (h : Completes lex records (c :: rest) input d)
    (hd' : d.at? c.path.branches = some d') (hmatches : e.Matches lex d') :
    Completes lex (records ++ e.records lex) (e.parts ++ rest) (e.rest input) d where
  recorded hr := by
    rcases List.mem_append.mp hr with hr | hr
    · exact h.recorded hr
    · exact recorded_of_matches he.unfolds hd' hmatches hr
  covered hway := by
    rcases h.covered hway with ⟨r, hr, hpath, hlabel⟩ | ⟨b, hb, hbegins⟩
    · exact Or.inl ⟨r, List.mem_append_left _ hr, hpath, hlabel⟩
    · rcases List.mem_cons.mp hb with rfl | hb
      · exact covered_of_coherent hcoherent he.unfolds hd' hmatches hway hbegins
      · exact Or.inr ⟨b, List.mem_append_right _ hb, hbegins⟩
  fits hb := by
    rcases List.mem_append.mp hb with hb | hb
    · exact exists_fits_of_matches he.unfolds hd' hmatches hb
    · exact h.fits (List.mem_cons_of_mem _ hb)
  arranged := (arranges_flatMap_expand_iff hlex hcoherent hleast he hd' hmatches).mp h.arranged

/-- A derivation completes a parse after an expansion of the prediction furthest to the left if and
only if it completes the parse and matches the expansion. -/
theorem completes_expand_iff :
    Completes lex (records ++ e.records lex) (e.parts ++ rest) (e.rest input) d ↔
      Completes lex records (c :: rest) input d ∧
        ∃ d', d.at? c.path.branches = some d' ∧ e.Matches lex d' := by
  constructor
  · intro h
    obtain ⟨d', hd', hmatches⟩ := exists_matches_of_completes hcoherent he.unfolds h
    exact ⟨h.of_expand hlex hcoherent hleast he hd' hmatches, d', hd', hmatches⟩
  · rintro ⟨h, d', hd', hmatches⟩
    exact h.expand hlex hcoherent hleast he hd' hmatches

end expand

/-! ### Filling the open predictions -/

/-- Whatever fits the open predictions makes up a derivation that completes the parse. -/
def IsFillable (lex : Lexicon) (records : List NodeRecord) (predicted : List Category)
    (input : List String) : Prop :=
  ∀ fill : Address → Derivation, (∀ c ∈ predicted, c.Fits lex (fill c.path)) →
    Arranges (predicted.flatMap fun c => c.piecesOf lex (fill c.path)) input →
    ∃ d, Completes lex records predicted input d ∧
      ∀ c ∈ predicted, d.at? c.path.branches = some (fill c.path)

theorem IsFillable.of_perm {predicted' : List Category}
    (h : IsFillable lex records predicted input) (hperm : predicted.Perm predicted') :
    IsFillable lex records predicted' input := by
  intro fill hfits harranged
  obtain ⟨d, hd, hat⟩ := h fill (fun b hb => hfits b (hperm.mem_iff.mp hb))
    ((arranges_congr (hperm.flatMap_right _) input).mpr harranged)
  exact ⟨d, hd.of_perm hperm, fun b hb => hat b (hperm.mem_iff.mpr hb)⟩

/-- What fits the parts of an expansion makes up a derivation that matches it. -/
theorem exists_matches_of_fill (hunfolds : c.Unfolds e) (fill : Address → Derivation)
    (hfill : ∀ part ∈ e.parts, part.Fits lex (fill part.path)) :
    ∃ d', e.Matches lex d' ∧
      (∀ side, (∃ part ∈ e.parts, part.path = c.path.child side) →
        d'.at? [side] = some (fill (c.path.child side))) := by
  -- the rule decides which constructor puts the parts together
  cases hunfolds with
  | scan leaf tokens =>
    refine ⟨.word leaf, rfl, fun side hside => ?_⟩
    obtain ⟨part, hpart, -⟩ := hside
    exact absurd hpart (by simp [Expansion.parts])
  | @move rule part hpath =>
    have hfits := hfill part (List.mem_singleton_self _)
    refine ⟨.move (fill part.path), hfits, fun side hside => ?_⟩
    obtain ⟨part', hpart', hside⟩ := hside
    obtain rfl := List.mem_singleton.mp hpart'
    rw [hpath, Address.left, Address.child_inj] at hside
    obtain ⟨-, rfl⟩ := hside
    rw [hpath, Derivation.at?_move_left, Derivation.at?_nil]
    rfl
  | @merge rule head other hhead hother =>
    have hfits₁ := hfill head (by simp [Expansion.parts])
    have hfits₂ := hfill other (by simp [Expansion.parts])
    refine ⟨.merge (fill head.path) (fill other.path), ⟨hfits₁, hfits₂⟩, fun side _ => ?_⟩
    cases side with
    | left =>
      rw [hhead, Derivation.at?_merge_left, Derivation.at?_nil]
      rfl
    | right =>
      rw [hother, Derivation.at?_merge_right, Derivation.at?_nil]
      rfl

/-- An expansion keeps a parse fillable. -/
theorem IsFillable.expand (hlex : lex.WellFormed)
    (hcoherent : IsCoherent lex records (c :: rest))
    (hleast : ∀ o ∈ rest.flatMap Category.slots, (compare c.minIndex o).isLE)
    (he : c.Expands lex input target e) (h : IsFillable lex records (c :: rest) input) :
    IsFillable lex (records ++ e.records lex) (e.parts ++ rest) (e.rest input) := by
  intro fill hfits harranged
  have hunfolds := he.unfolds
  have hc := hcoherent.anchored (List.mem_cons_self ..)
  obtain ⟨hapart, -⟩ := List.pairwise_cons.mp hcoherent.paths
  obtain ⟨d', hmatches, hsides⟩ := exists_matches_of_fill hunfolds fill
    fun part hpart => hfits part (List.mem_append_left _ hpart)
  -- the prediction is filled with what its parts make up, all others as before
  let fill' (path : Address) : Derivation := if path = c.path then d' else fill path
  have hself : fill' c.path = d' := if_pos rfl
  have hother : ∀ b ∈ rest, fill' b.path = fill b.path := by
    intro b hb
    refine if_neg fun heq => (hapart b hb).not_begins ?_
    exact heq ▸ List.prefix_refl _
  have hfits' : ∀ b ∈ c :: rest, b.Fits lex (fill' b.path) := by
    intro b hb
    rcases List.mem_cons.mp hb with rfl | hb
    · rw [hself]
      exact (he.fits_of_matches hlex hc hmatches).1
    · rw [hother b hb]
      exact hfits b (List.mem_append_right _ hb)
  have harranged' :
      Arranges ((c :: rest).flatMap fun b => b.piecesOf lex (fill' b.path)) input := by
    have hparts : (e.parts.flatMap fun part => part.piecesOf lex (fill part.path)) =
        e.openPieces lex d' := by
      refine flatMap_parts_eq hunfolds hmatches (fun path => some (fill path)) ?_
      intro part hpart side hpath
      rw [hsides side ⟨part, hpart, hpath⟩, hpath]
    have hrest : (rest.flatMap fun b => b.piecesOf lex (fill' b.path)) =
        rest.flatMap fun b => b.piecesOf lex (fill b.path) := by
      rw [List.flatMap_def, List.flatMap_def]
      exact congrArg _ (List.map_congr_left fun b hb => by rw [hother b hb])
    rw [List.flatMap_append, hparts] at harranged
    rw [List.flatMap_cons, hself, hrest]
    refine (arranges_expand_iff hlex hcoherent hleast he hmatches fun piece hpiece => ?_).mpr
      harranged
    obtain ⟨b, hb, hpiece⟩ := List.mem_flatMap.mp hpiece
    exact List.mem_flatMap.mpr ⟨b, hb, Category.fst_mem_slots_of_mem_piecesOf hpiece⟩
  obtain ⟨d, hd, hat⟩ := h fill' hfits' harranged'
  have hd' : d.at? c.path.branches = some d' := hself ▸ hat c (List.mem_cons_self ..)
  refine ⟨d, hd.expand hlex hcoherent hleast he hd' hmatches, ?_⟩
  intro b hb
  rcases List.mem_append.mp hb with hb | hb
  · obtain ⟨side, hside⟩ := hunfolds.exists_path_eq hb
    rw [hside, d.at?_child, hd', Option.bind_some]
    exact hsides side ⟨b, hb, hside⟩
  · rw [hat b (List.mem_cons_of_mem _ hb), hother b hb]

end completes

end MinimalistGrammar
