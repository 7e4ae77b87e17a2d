import MinimalistGrammar.Beam.Parse
import MinimalistGrammar.Proofs.Grammar.Rules

/-!
# The open predictions of a parse

The open predictions of a parse are predictions of different nodes of a derivation, neither below
the other, and what they predict is pronounced at places that are pairwise apart. An expansion keeps
this so: its parts are right below the prediction that they replace, and they divide its places
among them.

## Main definitions

* `Category.slots` — the places where a predicted phrase and its movers are pronounced.
* `Category.Unfolds` — where the parts of an expansion are in the derivation.
* `NodeRecord.Names` — a record is that of the word at a leaf.
* `IsCoherent` — the open predictions and the records of a parse fit together.

## Main results

* `Category.Expands.isAnchored_of_mem_parts`, `Category.Expands.pairwise_slots` — the parts of an
  expansion are anchored, and their places are apart.
* `IsCoherent.expand` — an expansion keeps predictions and records coherent.
-/

namespace MinimalistGrammar

/-- A record is that of the word at a leaf: it has the word, and what it has of the features is
known of the leaf. -/
structure NodeRecord.Names (lex : Lexicon) (leaf : Nat) (r : NodeRecord) : Prop where
  lexKey : r.lexKey = Lexicon.key leaf
  label : ∃ w, lex.word? leaf = some w ∧ r.label = some w
  isLexical : r.isLexical = true
  features : IsKnownOf r.features (lex.featuresOf leaf)

/-! ### What an expansion adds -/

namespace Expansion

/-- The new predictions. -/
def parts : Expansion → List Category
  | predict _ parts => parts
  | scan .. => []

/-- The new records. -/
def records (lex : Lexicon) : Expansion → List NodeRecord
  | predict _ parts => parts.map .predicted
  | scan leaf c _ => [.scanned lex leaf c]

/-- The input that is left. -/
def rest (input : List String) : Expansion → List String
  | predict .. => input
  | scan _ _ tokens => input.drop tokens.length

end Expansion

namespace Category

/-- Where the parts of an expansion are: below the prediction, the head on the left. -/
inductive Unfolds (c : Category) : Expansion → Prop
  | scan (leaf : Nat) (tokens : List String) : Unfolds c (.scan leaf c tokens)
  | move (rule : Rule) {part : Category} (hpart : part.path = c.path.left) :
      Unfolds c (.predict rule [part])
  | merge (rule : Rule) {head other : Category} (hhead : head.path = c.path.left)
      (hother : other.path = c.path.right) : Unfolds c (.predict rule [head, other])

/-- The places of some movers. -/
def moverSlots (movers : Dict String Mover) : List Address := movers.values.map (·.index)

/-- The places where a predicted phrase and its movers are pronounced. -/
def slots (c : Category) : List Address := c.index :: moverSlots c.movers

section expands

variable {lex : Lexicon} {c : Category} {input : List String} {target : Nat} {e : Expansion}

theorem Expands.unfolds (he : c.Expands lex input target e) : c.Unfolds e := by
  cases he with
  | scan => exact .scan ..
  | move => exact .move _ rfl
  | merge => exact .merge _ rfl rfl

/-! ### Places -/

theorem moverSlots_empty : moverSlots ∅ = [] := rfl

theorem moverSlots_insert_perm {movers : Dict String Mover} {z : String} {m : Mover}
    (h : movers.get? z = none) :
    (moverSlots (movers.insert z m)).Perm (m.index :: moverSlots movers) :=
  ((Dict.entries_insert_perm h).map Prod.snd).map Mover.index

theorem moverSlots_erase_perm {movers : Dict String Mover} {z : String} {m : Mover}
    (h : movers.get? z = some m) :
    (moverSlots movers).Perm (m.index :: moverSlots (movers.erase z)) :=
  ((Dict.entries_perm_of_get? h).map Prod.snd).map Mover.index

theorem pairwise_apart_of_perm {places places' : List Address} (h : places.Perm places') :
    places.Pairwise Address.Apart ↔ places'.Pairwise Address.Apart :=
  h.pairwise_iff fun h => h.symm

/-- Where a phrase lands, the places of the two phrases and the other movers are apart. -/
theorem Lands.pairwise_apart {side : Branch} {s : Nat} {iHead iOther : Address}
    {others : Dict String Mover} (h : c.Lands lex side s iHead iOther others)
    {places : List Address} (hapart : (c.slots ++ places).Pairwise Address.Apart) :
    (iHead :: iOther :: (moverSlots others ++ places)).Pairwise Address.Apart := by
  cases h with
  | stay =>
    obtain ⟨hindex, hothers⟩ := List.pairwise_cons.mp hapart
    refine List.pairwise_cons.mpr ⟨?_, List.pairwise_cons.mpr ⟨?_, hothers⟩⟩
    · intro o ho
      rcases List.mem_cons.mp ho with rfl | ho
      · cases side with
        | left => exact Or.inr c.index.before_left_right
        | right => exact Or.inl c.index.before_left_right
      · exact (hindex o ho).child _
    · exact fun o ho => (hindex o ho).child side
  | @go z m hm hparent =>
    refine (pairwise_apart_of_perm ?_).mp hapart
    exact ((moverSlots_erase_perm hm).append_right places).cons c.index

/-- The places of the parts of an expansion are apart, from each other and from what the places of
the prediction were apart from. -/
theorem Expands.pairwise_slots (he : c.Expands lex input target e) {places : List Address}
    (hapart : (c.slots ++ places).Pairwise Address.Apart) :
    (e.parts.flatMap slots ++ places).Pairwise Address.Apart := by
  cases he with
  | scan => exact (List.pairwise_append.mp hapart).2.1
  | @move _ s f _ _ iHead iOther others _ hparent hadmits hf hsign hs hplain hlands hnew =>
    refine (pairwise_apart_of_perm ?_).mp (hlands.pairwise_apart hapart)
    have hperm := moverSlots_insert_perm (m := ⟨s, iOther⟩) hnew
    simpa [Expansion.parts, slots, projecting] using ((hperm.append_right places).cons iHead).symm
  | @merge _ s _ _ _ _ _ _ iHead iOther others _ _ _ _ _ hparent hadmits hf hsign hs hplain htakes
      hlands =>
    refine (pairwise_apart_of_perm ?_).mp (hlands.pairwise_apart hapart)
    cases htakes with
    | complement =>
      exact List.Perm.of_eq
        (by simp [Expansion.parts, slots, projecting, selected, moverSlots_empty])
    | specifier =>
      have hperm : (iOther :: (moverSlots others ++ places)).Perm
          (moverSlots others ++ iOther :: places) := List.perm_middle.symm
      simpa [Expansion.parts, slots, projecting, selected, moverSlots_empty] using hperm.cons iHead
    | adjunct =>
      exact List.Perm.of_eq
        (by simp [Expansion.parts, slots, projecting, selected, moverSlots_empty])

/-! ### Nodes of the lexicon -/

theorem Lands.get?_others {side : Branch} {s : Nat} {iHead iOther : Address}
    {others : Dict String Mover} (h : c.Lands lex side s iHead iOther others) {z : String}
    {m : Mover} (hm : others.get? z = some m) : c.movers.get? z = some m := by
  cases h with
  | stay => exact hm
  | go => exact (Dict.get?_erase_eq_some_iff.mp hm).2

/-- The parts of an expansion are anchored. -/
theorem Expands.isAnchored_of_mem_parts (hlex : lex.WellFormed) (hc : c.IsAnchored lex)
    (he : c.Expands lex input target e) {part : Category} (hpart : part ∈ e.parts) :
    part.IsAnchored lex := by
  -- the part that projects is below the node of the prediction
  have hhead {frontier : Frontier} {i : Address} {f f' : Feature} {movers : Dict String Mover}
      {moving : Dict String (List Feature)} (hparent : lex.parent? target = some c.node)
      (hf : lex.feature? target = some f) (hf' : f'.plain = f.plain) :
      IsKnownOf (c.projecting target frontier i f' movers moving).features
        (lex.featuresOf target) := by
    rw [features_projecting]
    refine .featuresOf hlex hf hf' ?_
    rw [hparent]
    exact hc.known
  cases he with
  | scan => exact absurd hpart (by simp [Expansion.parts])
  | @move _ s f g _ _ _ _ _ hparent hadmits hf hsign hs hplain hlands hnew hf' hmoving =>
    obtain rfl := List.mem_singleton.mp hpart
    refine ⟨by simp [projecting, hf], fun {z m} hm => ?_, hhead hparent hf hf', hmoving⟩
    by_cases hz : z = f.name
    · simp only [projecting, hz, Dict.get?_insert_self, Option.some.injEq] at hm
      subst hm
      exact ⟨g, hs, by rw [hplain, hz]⟩
    · simp only [projecting, Dict.get?_insert_of_ne hz] at hm
      exact hc.movers (hlands.get?_others hm)
  | @merge _ s _ _ _ _ _ _ _ _ others mHead mOther _ _ _ hparent hadmits hf hsign hs hplain htakes
      hlands hf' hknown hmoving =>
    -- the movers of either part are the other movers, or there are none
    have hmovers {z : String} {m : Mover} (hm : mHead.get? z = some m ∨ mOther.get? z = some m) :
        c.movers.get? z = some m := by
      cases htakes <;> exact hlands.get?_others (by simpa using hm)
    rcases List.mem_cons.mp hpart with rfl | hpart
    · exact ⟨by simp [projecting, hf], fun hm => hc.movers (hmovers (Or.inl hm)),
        hhead hparent hf hf', hmoving.1⟩
    · obtain rfl := List.mem_singleton.mp hpart
      exact ⟨by simp [selected, hs], fun hm => hc.movers (hmovers (Or.inr hm)), hknown,
        hmoving.2⟩

/-- A new record with a word names its leaf. -/
theorem Expands.exists_names_of_mem_records (hlex : lex.WellFormed) (hc : c.IsAnchored lex)
    (he : c.Expands lex input target e) {r : NodeRecord} (hr : r ∈ e.records lex)
    (hlabel : r.label.isSome) : ∃ leaf, r.Names lex leaf := by
  -- the record of a prediction has no word
  have hpredicted {rule : Rule} {parts : List Category}
      (hr : r ∈ (Expansion.predict rule parts).records lex) :
      False := by
    obtain ⟨part, -, rfl⟩ := List.mem_map.mp hr
    exact absurd hlabel (by simp [NodeRecord.predicted])
  cases he with
  | @scan w hparent hadmits hword =>
    obtain rfl := List.mem_singleton.mp hr
    refine ⟨target, rfl, ⟨w, hword, by rw [NodeRecord.scanned, hword, Option.getD_some]⟩, rfl, ?_⟩
    rw [hlex.featuresOf_of_word? hword, hparent]
    exact hc.known
  | move => exact (hpredicted hr).elim
  | merge => exact (hpredicted hr).elim

/-! ### Paths -/

theorem Unfolds.exists_path_eq (h : c.Unfolds e) {part : Category} (hpart : part ∈ e.parts) :
    ∃ side, part.path = c.path.child side := by
  cases h with
  | scan => exact absurd hpart (by simp [Expansion.parts])
  | move _ hpath =>
    obtain rfl := List.mem_singleton.mp hpart
    exact ⟨.left, hpath⟩
  | merge _ hhead hother =>
    rcases List.mem_cons.mp hpart with rfl | hpart
    · exact ⟨.left, hhead⟩
    · obtain rfl := List.mem_singleton.mp hpart
      exact ⟨.right, hother⟩

theorem Unfolds.pairwise_paths (h : c.Unfolds e) :
    e.parts.Pairwise fun a b => a.path.Apart b.path := by
  cases h with
  | scan => exact List.Pairwise.nil
  | move => exact List.pairwise_singleton ..
  | merge _ hhead hother =>
    refine List.pairwise_pair.mpr ?_
    rw [hhead, hother]
    exact Or.inl c.path.before_left_right

/-- A new record is that of a word at the prediction, or that of a new prediction. -/
theorem Unfolds.path_of_mem_records (h : c.Unfolds e) {r : NodeRecord} (hr : r ∈ e.records lex) :
    (r.path = c.path ∧ e.parts = []) ∨ ∃ part ∈ e.parts, r = .predicted part := by
  cases h with
  | scan =>
    obtain rfl := List.mem_singleton.mp hr
    exact Or.inl ⟨rfl, rfl⟩
  | move =>
    obtain ⟨part, hpart, rfl⟩ := List.mem_map.mp hr
    exact Or.inr ⟨part, hpart, rfl⟩
  | merge =>
    obtain ⟨part, hpart, rfl⟩ := List.mem_map.mp hr
    exact Or.inr ⟨part, hpart, rfl⟩

theorem Unfolds.predicted_mem_records (h : c.Unfolds e) {part : Category} (hpart : part ∈ e.parts) :
    .predicted part ∈ e.records lex := by
  cases h with
  | scan => exact absurd hpart (by simp [Expansion.parts])
  | move => exact List.mem_map_of_mem hpart
  | merge => exact List.mem_map_of_mem hpart

/-- A new record is at the prediction or right below. -/
theorem Unfolds.prefix_of_mem_records (h : c.Unfolds e) {r : NodeRecord} (hr : r ∈ e.records lex) :
    c.path.branches <+: r.path.branches := by
  rcases h.path_of_mem_records hr with ⟨hpath, -⟩ | ⟨part, hpart, rfl⟩
  · exact hpath ▸ List.prefix_refl _
  · obtain ⟨side, hside⟩ := h.exists_path_eq hpart
    rw [NodeRecord.predicted, hside]
    exact List.prefix_append ..

end expands

end Category

/-! ### Coherence -/

/-- The open predictions and the records of a parse fit together: the predictions are anchored, what
they predict is pronounced at places that are apart, they are at different ends of the derivation,
and each of them is the last record on its way down. A record with a word names a leaf of the
lexicon. -/
structure IsCoherent (lex : Lexicon) (records : List NodeRecord) (predicted : List Category) :
    Prop where
  anchored {c : Category} : c ∈ predicted → c.IsAnchored lex
  slots : (predicted.flatMap Category.slots).Pairwise Address.Apart
  paths : predicted.Pairwise fun a b => a.path.Apart b.path
  recorded {c : Category} : c ∈ predicted → ∃ r ∈ records, r.path = c.path
  last {c : Category} {r : NodeRecord} : c ∈ predicted → r ∈ records →
    c.path.branches <+: r.path.branches → r.path = c.path
  named {r : NodeRecord} : r ∈ records → r.label.isSome → ∃ leaf, r.Names lex leaf

namespace IsCoherent

variable {lex : Lexicon} {records : List NodeRecord} {predicted rest : List Category}
  {c : Category} {input : List String} {target : Nat} {e : Expansion}

theorem of_perm {predicted' : List Category} (h : IsCoherent lex records predicted)
    (hperm : predicted.Perm predicted') : IsCoherent lex records predicted' where
  anchored hc := h.anchored (hperm.mem_iff.mpr hc)
  slots := (Category.pairwise_apart_of_perm (hperm.flatMap_right _)).mp h.slots
  paths := (hperm.pairwise_iff fun h => h.symm).mp h.paths
  recorded hc := h.recorded (hperm.mem_iff.mpr hc)
  last hc := h.last (hperm.mem_iff.mpr hc)
  named := h.named

/-- An expansion keeps predictions and records coherent. -/
theorem expand (hlex : lex.WellFormed) (h : IsCoherent lex records (c :: rest))
    (he : c.Expands lex input target e) :
    IsCoherent lex (records ++ e.records lex) (e.parts ++ rest) := by
  have hunfolds := he.unfolds
  obtain ⟨hapart, hpaths⟩ := List.pairwise_cons.mp h.paths
  have hc := h.anchored (List.mem_cons_self ..)
  refine ⟨?anchored, ?slots, ?paths, ?recorded, ?last, ?named⟩
  case anchored =>
    intro b hmem
    rcases List.mem_append.mp hmem with hmem | hmem
    · exact he.isAnchored_of_mem_parts hlex hc hmem
    · exact h.anchored (List.mem_cons_of_mem _ hmem)
  case slots =>
    rw [List.flatMap_append]
    exact he.pairwise_slots h.slots
  case paths =>
    refine List.pairwise_append.mpr ⟨hunfolds.pairwise_paths, hpaths, fun part hpart b hb => ?_⟩
    obtain ⟨side, hside⟩ := hunfolds.exists_path_eq hpart
    rw [hside]
    exact (hapart b hb).child side
  case recorded =>
    intro b hmem
    rcases List.mem_append.mp hmem with hmem | hmem
    · exact ⟨_, List.mem_append_right _ (hunfolds.predicted_mem_records hmem), rfl⟩
    · obtain ⟨r, hr, hpath⟩ := h.recorded (List.mem_cons_of_mem _ hmem)
      exact ⟨r, List.mem_append_left _ hr, hpath⟩
  case last =>
    intro b r hmem hr hbegins
    rcases List.mem_append.mp hmem with hmem | hmem <;> rcases List.mem_append.mp hr with hr | hr
    · -- nothing was below the prediction
      obtain ⟨side, hside⟩ := hunfolds.exists_path_eq hmem
      rw [hside] at hbegins
      have hpath := h.last (List.mem_cons_self ..) hr ((List.prefix_append ..).trans hbegins)
      rw [hpath] at hbegins
      exact absurd hbegins.length_le (by simp [Address.child])
    · rcases hunfolds.path_of_mem_records hr with ⟨-, hnil⟩ | ⟨part, hpart, rfl⟩
      · rw [hnil] at hmem
        exact absurd hmem (by simp)
      · obtain ⟨side, hside⟩ := hunfolds.exists_path_eq hmem
        obtain ⟨side', hside'⟩ := hunfolds.exists_path_eq hpart
        rw [NodeRecord.predicted, hside'] at hbegins ⊢
        rw [hside] at hbegins ⊢
        exact congrArg Address.mk (hbegins.eq_of_length (by simp [Address.child])).symm
    · exact h.last (List.mem_cons_of_mem _ hmem) hr hbegins
    · have hapart := hapart _ hmem
      rcases List.prefix_or_prefix_of_prefix hbegins (hunfolds.prefix_of_mem_records hr) with h | h
      · exact absurd h hapart.symm.not_begins
      · exact absurd h hapart.not_begins
  case named =>
    intro r hr hlabel
    rcases List.mem_append.mp hr with hr | hr
    · exact h.named hr hlabel
    · exact he.exists_names_of_mem_records hlex hc hr hlabel

end IsCoherent
end MinimalistGrammar
