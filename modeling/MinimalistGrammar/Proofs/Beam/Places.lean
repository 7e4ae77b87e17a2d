import Mathlib.Data.List.Pairwise
import MinimalistGrammar.Proofs.Beam.History

/-!
# The places of a parse

The open predictions of a parse and their movers are pronounced at places of which none is above
another one. A rule divides the place of the prediction that it expands, or leaves it as it is, and
hands on the places of its movers. A word is read at the first of all these places, so everything
that is still open comes behind it.

## Main definitions

* `Expansion.opened`, `Expansion.found` — the places of movers that begin to wait, and that are
  found.
* `Expansion.scanned` — the word that is read, and where.
* `Parse.IsOrderly` — what holds of the places of a parse that has come about in some way.

## Main results

* `Category.ByRule.moverSlots_perm` — no rule loses a mover.
* `BeamParser.exists_isOrderly` — the places of all parses of a run.
-/

namespace MinimalistGrammar

/-! ### Addresses -/

namespace Address

variable {a b i o : Address} {places : List Address}

/-- What is before a place is before all below it. -/
theorem Before.of_begins (h : a.Before i) (hbegins : i.branches <+: o.branches) : a.Before o := by
  obtain ⟨common, left, right, ha, hi⟩ := h
  obtain ⟨rest, hrest⟩ := hbegins
  exact ⟨common, left, right ++ rest, ha, by rw [← hrest, hi, List.append_assoc]; rfl⟩

theorem Apart.ne (h : a.Apart b) : a ≠ b := by
  rintro rfl
  exact h.not_begins (List.prefix_refl _)

instance : Std.Symm Apart := ⟨fun _ _ => Apart.symm⟩

/-- Of places that are pairwise apart, none is above another one. -/
theorem eq_of_begins (h : places.Pairwise Apart) (ha : a ∈ places) (hb : b ∈ places)
    (hbegins : a.branches <+: b.branches) : a = b := by
  by_contra hne
  exact (h.forall ha hb hne).not_begins hbegins

/-- The least of some places is one of them. -/
theorem foldr_least_mem (i : Address) (places : List Address) :
    places.foldr least i ∈ i :: places := by
  induction places with
  | nil => exact List.mem_singleton_self i
  | cons p places ih =>
    rw [List.foldr_cons, least]
    split
    · rcases List.mem_cons.mp ih with heq | hmem
      · rw [heq]
        exact List.mem_cons_self ..
      · exact List.mem_cons_of_mem _ (List.mem_cons_of_mem _ hmem)
    · exact List.mem_cons_of_mem _ (List.mem_cons_self ..)

end Address

/-! ### What an expansion does to places -/

/-- The tokens of a leaf of the lexicon. -/
def Lexicon.tokensOf (lex : Lexicon) (leaf : Nat) : List String := (lex.word? leaf).elim [] tokens

namespace Expansion

/-- The place of a mover that begins to wait: a licensor attracts it for the last time. -/
def opened : Expansion → List Address
  | predict .move1 [part] =>
    (part.features.head?.bind fun f => part.movers.get? f.name).toList.map (·.index)
  | _ => []

/-- The place of a mover that is found: the phrase that moves there is predicted. -/
def found : Expansion → List Address
  | predict .merge3 [_, other] | predict .merge4 [_, other] => [other.index]
  | _ => []

/-- The leaf that is read, with the place where it is read. -/
def scanned : Expansion → List (Address × Nat)
  | scan leaf c _ => [(c.index, leaf)]
  | predict .. => []

end Expansion

namespace Category

/-- The places of the movers of some predictions. -/
def waiting (predicted : List Category) : List Address :=
  predicted.flatMap fun c => moverSlots c.movers

variable {lex : Lexicon} {c : Category} {input : List String} {e : Expansion} {o : Address}

theorem minIndex_mem_slots (c : Category) : c.minIndex ∈ c.slots := Address.foldr_least_mem ..

theorem moverSlots_subset_slots {i : Address} (h : i ∈ moverSlots c.movers) : i ∈ c.slots :=
  List.mem_cons_of_mem _ h

/-- No two predictions have a place in common. -/
theorem eq_of_mem_slots {predicted : List Category} {c' : Category}
    (h : (predicted.flatMap slots).Pairwise Address.Apart) (hc : c ∈ predicted)
    (hc' : c' ∈ predicted) (ho : o ∈ c.slots) (ho' : o ∈ c'.slots) : c = c' := by
  have : Std.Symm fun a b : Category => ∀ x ∈ a.slots, ∀ y ∈ b.slots, x.Apart y :=
    ⟨fun _ _ h x hx y hy => (h y hy x hx).symm⟩
  by_contra hne
  exact ((List.pairwise_flatMap.mp h).2.forall hc hc' hne o ho o ho').ne rfl

theorem minIndex_eq_index (h : c.movers = ∅) : c.minIndex = c.index := by
  rw [minIndex, h]
  rfl

namespace ByRule

/-- Every mover of a prediction is handed on to one of the parts or is found, and a new one waits
for one of the parts. -/
theorem moverSlots_perm (h : c.ByRule lex input e) :
    (waiting e.parts ++ e.found).Perm (moverSlots c.movers ++ e.opened) := by
  have hfound {z : String} {m : Mover} (hm : c.movers.get? z = some m) :
      (moverSlots (c.movers.erase z) ++ [m.index]).Perm (moverSlots c.movers) :=
    List.perm_append_comm.trans (moverSlots_erase_perm hm).symm
  cases h with
  | merge1 | merge1b | merge2 =>
    simp [waiting, Expansion.parts, Expansion.found, Expansion.opened, projecting, selected,
      moverSlots_empty]
  | merge3 ht hm hs | merge4 ht hm hs =>
    simpa [waiting, Expansion.parts, Expansion.found, Expansion.opened, projecting, selected,
      moverSlots_empty] using hfound hm
  | @move1 target s x ht hs hnew =>
    have hinsert := moverSlots_insert_perm (m := ⟨s, c.index.left⟩) hnew
    simpa [waiting, Expansion.parts, Expansion.found, Expansion.opened, projecting, features,
      Feature.licensor] using hinsert.trans (List.perm_append_singleton ..).symm
  | @move2 target s x z m ht hm hs hnew =>
    have hinsert := moverSlots_insert_perm (m := ⟨s, m.index⟩) hnew
    simpa [waiting, Expansion.parts, Expansion.found, Expansion.opened, projecting] using
      hinsert.trans (moverSlots_erase_perm hm).symm
  | scan hparent hword hmovers hinput =>
    simp [waiting, Expansion.parts, Expansion.found, Expansion.opened, hmovers, moverSlots_empty]

/-- A mover that begins to wait has the left half of the place of the prediction. -/
theorem opened_cases (h : c.ByRule lex input e) : e.opened = [] ∨ e.opened = [c.index.left] := by
  cases h with
  | merge1 | merge1b | merge2 | merge3 | merge4 | move2 | scan => exact Or.inl rfl
  | move1 => exact Or.inr (by simp [Expansion.opened, projecting, features, Feature.licensor])

/-- A part is pronounced in the place of the prediction, or in that of one of its movers. -/
theorem index_cases (h : c.ByRule lex input e) {part : Category} (hpart : part ∈ e.parts) :
    c.index.branches <+: part.index.branches ∨ part.index ∈ moverSlots c.movers := by
  have hchild (side : Branch) : c.index.branches <+: (c.index.child side).branches :=
    List.prefix_append ..
  have hmover {z : String} {m : Mover} (hm : c.movers.get? z = some m) :
      m.index ∈ moverSlots c.movers :=
    (moverSlots_erase_perm hm).mem_iff.mpr (List.mem_cons_self ..)
  cases h with
  | merge1 | merge1b | merge2 =>
    rcases List.mem_pair.mp hpart with rfl | rfl
    · exact Or.inl (hchild _)
    · exact Or.inl (hchild _)
  | merge3 ht hm hs | merge4 ht hm hs =>
    rcases List.mem_pair.mp hpart with rfl | rfl
    · exact Or.inl (List.prefix_refl _)
    · exact Or.inr (hmover hm)
  | move1 =>
    obtain rfl := List.mem_singleton.mp hpart
    exact Or.inl (hchild _)
  | move2 =>
    obtain rfl := List.mem_singleton.mp hpart
    exact Or.inl (List.prefix_refl _)
  | scan => exact absurd hpart List.not_mem_nil

/-- The places of the parts are places of the prediction, or below them. -/
theorem exists_prefix_of_mem_slots (h : c.ByRule lex input e) (ho : o ∈ e.parts.flatMap slots) :
    ∃ i ∈ c.slots, i.branches <+: o.branches := by
  obtain ⟨part, hpart, ho⟩ := List.mem_flatMap.mp ho
  rcases List.mem_cons.mp ho with rfl | ho
  · rcases h.index_cases hpart with hbelow | hmover
    · exact ⟨c.index, List.mem_cons_self .., hbelow⟩
    · exact ⟨part.index, moverSlots_subset_slots hmover, List.prefix_refl _⟩
  · have hwaiting : o ∈ waiting e.parts := List.mem_flatMap.mpr ⟨part, hpart, ho⟩
    rcases List.mem_append.mp
      (h.moverSlots_perm.subset (List.mem_append_left _ hwaiting)) with hold | hnew
    · exact ⟨o, moverSlots_subset_slots hold, List.prefix_refl _⟩
    · refine ⟨c.index, List.mem_cons_self .., ?_⟩
      rcases h.opened_cases with hnone | hone
      · rw [hnone] at hnew
        exact absurd hnew List.not_mem_nil
      · rw [hone] at hnew
        rw [List.mem_singleton.mp hnew]
        exact List.prefix_append ..

/-- A mover that begins to wait does so for one of the parts. -/
theorem opened_subset_slots (h : c.ByRule lex input e) (ho : o ∈ e.opened) :
    o ∈ e.parts.flatMap slots := by
  cases h with
  | merge1 | merge1b | merge2 | merge3 | merge4 | move2 | scan => exact absurd ho List.not_mem_nil
  | @move1 target s x ht hs hnew =>
    obtain rfl : o = c.index.left := by
      simpa [Expansion.opened, projecting, features, Feature.licensor] using ho
    have hinsert := moverSlots_insert_perm (m := ⟨s, c.index.left⟩) hnew
    refine List.mem_flatMap.mpr ⟨_, List.mem_singleton_self _, moverSlots_subset_slots ?_⟩
    exact hinsert.mem_iff.mpr (List.mem_cons_self ..)

/-- A word that is read has no movers, and its tokens are next in the input. Otherwise nothing is
read. -/
theorem scanned_cases (h : c.ByRule lex input e) :
    (e.scanned = [] ∧ e.rest input = input ∧ ∀ r ∈ e.records lex, r.label = none) ∨
      ∃ leaf w, e.scanned = [(c.index, leaf)] ∧ e.parts = [] ∧
        e.records lex = [.scanned lex leaf c] ∧
        c.movers = ∅ ∧ lex.word? leaf = some w ∧ input = tokens w ++ e.rest input := by
  have hpredicted (parts : List Category) :
      ∀ r ∈ parts.map NodeRecord.predicted, r.label = none := by
    rintro r hr
    obtain ⟨part, -, rfl⟩ := List.mem_map.mp hr
    rfl
  cases h with
  | merge1 | merge1b | merge2 | merge3 | merge4 | move1 | move2 =>
    exact Or.inl ⟨rfl, rfl, hpredicted _⟩
  | @scan leaf w hparent hword hmovers hinput =>
    refine Or.inr ⟨leaf, w, rfl, rfl, rfl, hmovers, hword, ?_⟩
    obtain ⟨rest, rfl⟩ := hinput
    rw [Expansion.rest, List.drop_left]

end ByRule
end Category

/-! ### Places in the course of a parse -/

namespace Parse

variable {π : Type} {lex : Lexicon} {first q : Parse π} {es : List Expansion} {words : List String}

/-- The words that have been read so far, with the places where they have been read. -/
def reading (es : List Expansion) : List (Address × Nat) := es.flatMap Expansion.scanned

theorem reading_append_singleton (es : List Expansion) (e : Expansion) :
    reading (es ++ [e]) = reading es ++ e.scanned := by
  rw [reading, List.flatMap_append, List.flatMap_singleton, reading]

/-- The keys and the words of the records that have a word. -/
def recordedWords (records : List NodeRecord) : List (String × Option String) :=
  (records.filter (·.label.isSome)).map fun r => (r.lexKey, r.label)

theorem recordedWords_append (records records' : List NodeRecord) :
    recordedWords (records ++ records') = recordedWords records ++ recordedWords records' := by
  rw [recordedWords, List.filter_append, List.map_append, recordedWords, recordedWords]

/-- What every expansion keeps: movers that have begun to wait and have not been found wait for one
of the open predictions, no open place is above one where a mover has begun to wait, and what has
been read is before all that is open and has been next in the input. -/
structure KeepsPlaces (lex : Lexicon) (words : List String) (es : List Expansion)
    (q : Parse π) : Prop where
  waiting : (Category.waiting q.queue.toList ++ es.flatMap Expansion.found).Perm
    (es.flatMap Expansion.opened)
  once : (es.flatMap Expansion.opened).Nodup
  past {i o : Address} : i ∈ es.flatMap Expansion.opened →
    o ∈ q.queue.toList.flatMap Category.slots → o.branches <+: i.branches → o = i
  before {r : Address × Nat} {o : Address} : r ∈ reading es →
    o ∈ q.queue.toList.flatMap Category.slots → r.1.Before o
  ascending : (reading es).Pairwise fun r r' => r.1.Before r'.1
  leaves : recordedWords q.records = (reading es).map fun r => (Lexicon.key r.2, lex.word? r.2)
  read : (reading es).flatMap (fun r => lex.tokensOf r.2) ++ q.input = words

theorem keepsPlaces_initial [Probability π] (lex : Lexicon) (words : List String) (root : Nat)
    (start : String) :
    KeepsPlaces lex words []
      (Parse.initial words (BeamParser.startCategory root start) : Parse π) where
  waiting := List.Perm.refl _
  once := List.nodup_nil
  past hi := absurd hi List.not_mem_nil
  before hr := absurd hr List.not_mem_nil
  ascending := List.Pairwise.nil
  leaves := rfl
  read := rfl

section expand

variable {c : Category} {queue : StableQueue Address Category} {e : Expansion} {share : π}
  {message : String}

theorem mem_slots_extend {o : Address} :
    o ∈ ({ q with queue }.extend lex e share message).queue.toList.flatMap Category.slots ↔
      o ∈ e.parts.flatMap Category.slots ∨ o ∈ queue.toList.flatMap Category.slots := by
  rw [queue_extend,
    ((toList_foldl_enqueue_perm e.parts queue).flatMap_right Category.slots).mem_iff,
    List.flatMap_append, List.mem_append]

theorem index_mem_slots (hpop : q.queue.pop? = some (c, queue)) :
    c.index ∈ q.queue.toList.flatMap Category.slots := by
  rw [StableQueue.toList_eq_of_pop? hpop, List.flatMap_cons]
  exact List.mem_append_left _ (List.mem_cons_self ..)

/-- An open place was open before, or is below one that was. -/
theorem exists_prefix_of_mem_slots_extend (hpop : q.queue.pop? = some (c, queue))
    (hrule : c.ByRule lex q.input e) {o : Address}
    (ho : o ∈ ({ q with queue }.extend lex e share message).queue.toList.flatMap Category.slots) :
    ∃ i ∈ q.queue.toList.flatMap Category.slots, i.branches <+: o.branches := by
  rw [StableQueue.toList_eq_of_pop? hpop, List.flatMap_cons]
  rcases mem_slots_extend.mp ho with hnew | hold
  · obtain ⟨i, hi, hbelow⟩ := hrule.exists_prefix_of_mem_slots hnew
    exact ⟨i, List.mem_append_left _ hi, hbelow⟩
  · exact ⟨o, List.mem_append_right _ hold, List.prefix_refl _⟩

/-- A word without movers is read at the first of the open places. -/
theorem index_before_of_mem_slots (hq : q.IsCoherent lex) (hpop : q.queue.pop? = some (c, queue))
    (hmovers : c.movers = ∅) {o : Address} (ho : o ∈ queue.toList.flatMap Category.slots) :
    c.index.Before o := by
  have hslots := hq.coherent.slots
  rw [StableQueue.toList_eq_of_pop? hpop, List.flatMap_cons] at hslots
  have hapart := (List.pairwise_append.mp hslots).2.2 _ (List.mem_cons_self ..) o ho
  have hle := (hq.order.isLE_of_mem_slots hpop).2 o ho
  rw [Category.minIndex_eq_index hmovers] at hle
  exact hapart.before_of_isLE hle

namespace KeepsPlaces

variable (h : KeepsPlaces lex words es q) (hpop : q.queue.pop? = some (c, queue))
  (hrule : c.ByRule lex q.input e)

include h hpop hrule

/-- No mover is lost, and none waits twice. -/
theorem waiting_extend :
    (Category.waiting ({ q with queue }.extend lex e share message).queue.toList ++
      (es ++ [e]).flatMap Expansion.found).Perm ((es ++ [e]).flatMap Expansion.opened) := by
  have hnew : (Category.waiting ({ q with queue }.extend lex e share message).queue.toList).Perm
      (Category.waiting e.parts ++ Category.waiting queue.toList) := by
    rw [queue_extend, Category.waiting, Category.waiting, Category.waiting, ← List.flatMap_append]
    exact (toList_foldl_enqueue_perm e.parts queue).flatMap_right _
  have hold := h.waiting
  rw [StableQueue.toList_eq_of_pop? hpop, Category.waiting, List.flatMap_cons] at hold
  -- each place is counted on both sides
  apply List.perm_iff_count.mpr
  intro a
  have hcount := List.perm_iff_count.mp hold a
  have hcountNew := List.perm_iff_count.mp hnew a
  have hcountRule := List.perm_iff_count.mp hrule.moverSlots_perm a
  simp only [List.flatMap_append, List.flatMap_singleton, List.count_append, Category.waiting] at *
  omega

/-- A new mover does not begin to wait where another one has done so. -/
theorem nodup_opened : ((es ++ [e]).flatMap Expansion.opened).Nodup := by
  rw [List.flatMap_append, List.flatMap_singleton]
  rcases hrule.opened_cases with hnone | hone
  · rw [hnone, List.append_nil]
    exact h.once
  · rw [hone]
    apply List.nodup_append.mpr ⟨h.once, List.pairwise_singleton .., ?_⟩
    intro i hi o ho heq
    obtain rfl := List.mem_singleton.mp ho
    subst heq
    -- the place was divided, so nothing has begun to wait below it
    have hsame := h.past hi (index_mem_slots hpop) (List.prefix_append ..)
    have hlength := congrArg (·.branches.length) hsame
    simp [Address.left, Address.child] at hlength

theorem eq_of_begins_extend (hlex : lex.WellFormed) (hq : q.IsCoherent lex)
    (he : e ∈ c.expansions lex q.input) {i o : Address}
    (hi : i ∈ (es ++ [e]).flatMap Expansion.opened)
    (ho : o ∈ ({ q with queue }.extend lex e share message).queue.toList.flatMap Category.slots)
    (hbelow : o.branches <+: i.branches) : o = i := by
  rw [List.flatMap_append, List.flatMap_singleton] at hi
  rcases List.mem_append.mp hi with hi | hi
  · obtain ⟨i₀, hi₀, habove⟩ := exists_prefix_of_mem_slots_extend hpop hrule ho
    obtain rfl := h.past hi hi₀ (habove.trans hbelow)
    exact congrArg Address.mk (hbelow.eq_of_length_le habove.length_le)
  · have hslots := (hq.extend hlex hpop he share message).coherent.slots
    apply Address.eq_of_begins hslots ho _ hbelow
    exact mem_slots_extend.mpr (Or.inl (hrule.opened_subset_slots hi))

/-- What has been read is before all that is open. -/
theorem before_extend (hq : q.IsCoherent lex) {r : Address × Nat} {o : Address}
    (hr : r ∈ reading (es ++ [e]))
    (ho : o ∈ ({ q with queue }.extend lex e share message).queue.toList.flatMap Category.slots) :
    r.1.Before o := by
  rw [reading_append_singleton] at hr
  rcases List.mem_append.mp hr with hr | hr
  · obtain ⟨i, hi, habove⟩ := exists_prefix_of_mem_slots_extend hpop hrule ho
    exact (h.before hr hi).of_begins habove
  · rcases hrule.scanned_cases with ⟨hnone, -⟩ | ⟨leaf, w, hscanned, hparts, -, hmovers, -⟩
    · rw [hnone] at hr
      exact absurd hr List.not_mem_nil
    · rw [hscanned] at hr
      obtain rfl := List.mem_singleton.mp hr
      rcases mem_slots_extend.mp ho with hnew | hold
      · rw [hparts] at hnew
        exact absurd hnew List.not_mem_nil
      · exact index_before_of_mem_slots hq hpop hmovers hold

theorem ascending_extend : (reading (es ++ [e])).Pairwise fun r r' => r.1.Before r'.1 := by
  rw [reading_append_singleton]
  rcases hrule.scanned_cases with ⟨hnone, -⟩ | ⟨leaf, w, hscanned, -⟩
  · rw [hnone, List.append_nil]
    exact h.ascending
  · rw [hscanned]
    apply List.pairwise_append.mpr ⟨h.ascending, List.pairwise_singleton .., ?_⟩
    intro r hr r' hr'
    rw [List.mem_singleton.mp hr']
    exact h.before hr (index_mem_slots hpop)

omit hpop in
theorem leaves_extend :
    recordedWords ({ q with queue }.extend lex e share message).records =
      (reading (es ++ [e])).map fun r => (Lexicon.key r.2, lex.word? r.2) := by
  rw [records_extend, recordedWords_append, h.leaves, reading_append_singleton, List.map_append,
    List.append_right_inj]
  rcases hrule.scanned_cases with ⟨hnone, -, hlabel⟩ | ⟨leaf, w, hscanned, -, hrecords, -, hword, -⟩
  · rw [hnone, recordedWords, List.filter_eq_nil_iff.mpr fun r hr => by simp [hlabel r hr]]
    rfl
  · simp [recordedWords, hscanned, hrecords, NodeRecord.scanned, hword]

omit hpop in
theorem read_extend : (reading (es ++ [e])).flatMap (fun r => lex.tokensOf r.2) ++
    ({ q with queue }.extend lex e share message).input = words := by
  rw [reading_append_singleton, input_extend, List.flatMap_append, List.append_assoc]
  rcases hrule.scanned_cases with ⟨hnone, hrest, -⟩ | ⟨leaf, w, hscanned, -, -, -, hword, hinput⟩
  · rw [hnone, hrest]
    exact h.read
  · rw [hscanned, List.flatMap_singleton, Lexicon.tokensOf, hword]
    exact hinput ▸ h.read

omit hrule in
/-- What holds of the places of a parse holds after an expansion of its first prediction. -/
theorem expand (hlex : lex.WellFormed) (hq : q.IsCoherent lex) (he : e ∈ c.expansions lex q.input)
    (share : π) (message : String) :
    KeepsPlaces lex words (es ++ [e]) ({ q with queue }.extend lex e share message) :=
  have hrule := Category.byRule_of_mem hlex he
  { waiting := h.waiting_extend hpop hrule
    once := h.nodup_opened hpop hrule
    past := h.eq_of_begins_extend hpop hrule hlex hq he
    before := h.before_extend hpop hrule hq
    ascending := h.ascending_extend hpop hrule
    leaves := h.leaves_extend hrule
    read := h.read_extend hrule }

end KeepsPlaces

end expand

/-- What every expansion keeps holds of whatever comes from the prediction of a start category. -/
theorem ComesAbout.keepsPlaces [Probability π] (hlex : lex.WellFormed) {root : Nat} {start : String}
    (hroot : lex.category? start = some root)
    (h : (initial words (BeamParser.startCategory root start)).ComesAbout lex es q) :
    KeepsPlaces lex words es q := by
  induction h with
  | start => exact keepsPlaces_initial lex words root start
  | log _ state ih =>
    exact ⟨ih.waiting, ih.once, ih.past, ih.before, ih.ascending, ih.leaves, ih.read⟩
  | expand h hpop he share message ih =>
    exact ih.expand hpop hlex (h.isCoherent hlex (isCoherent_initial hlex hroot words)) he
      share message

/-- What holds of the places of a parse over some words that has come about by some expansions. -/
structure IsOrderly (lex : Lexicon) (words : List String) (es : List Expansion)
    (q : Parse π) : Prop where
  /-- The places of the open predictions and of all their movers are different, and none is above
  another one. -/
  slots : (q.queue.toList.flatMap Category.slots).Pairwise fun a b =>
    a ≠ b ∧ ¬a.branches <+: b.branches ∧ ¬b.branches <+: a.branches
  /-- Every prediction waits in the queue under the first of its places. -/
  keys {x : Address × Category} : x ∈ q.queue.entries → x.1 = x.2.minIndex
  /-- No two predictions wait under the same place. -/
  noTie : q.queue.entries.Pairwise fun x y => compare x.1 y.1 = .lt
  /-- Movers begin to wait at different places. -/
  opened : (es.flatMap Expansion.opened).Nodup
  /-- Those that have begun to wait and have not been found are the movers of the open
  predictions. -/
  waiting_iff (i : Address) : i ∈ Category.waiting q.queue.toList ↔
    i ∈ es.flatMap Expansion.opened ∧ i ∉ es.flatMap Expansion.found
  /-- Each of them is a mover of one open prediction. -/
  owner {i : Address} : i ∈ es.flatMap Expansion.opened → i ∉ es.flatMap Expansion.found →
    ∃! c, c ∈ q.queue.toList ∧ i ∈ Category.moverSlots c.movers
  /-- The records with words are those of the leaves that have been read. -/
  leaves : recordedWords q.records = (reading es).map fun r => (Lexicon.key r.2, lex.word? r.2)
  /-- The places where they have been read go up. -/
  ascending : (reading es).Pairwise fun r r' => compare r.1 r'.1 = .lt
  /-- Whatever is open comes behind them. -/
  before {r : Address × Nat} {o : Address} : r ∈ reading es →
    o ∈ q.queue.toList.flatMap Category.slots → compare r.1 o = .lt
  /-- Their tokens are the words up to the position of the parse, and the others are left to
  read. -/
  read : ∃ position ≤ words.length,
    (reading es).flatMap (fun r => lex.tokensOf r.2) = words.take position ∧
    q.input = words.drop position

/-- A mover waits for an open prediction from when it has begun to wait until it is found. -/
theorem KeepsPlaces.mem_waiting_iff (h : KeepsPlaces lex words es q) {i : Address} :
    i ∈ Category.waiting q.queue.toList ↔
      i ∈ es.flatMap Expansion.opened ∧ i ∉ es.flatMap Expansion.found := by
  have hdisjoint := (List.nodup_append.mp (h.waiting.nodup_iff.mpr h.once)).2.2
  rw [← h.waiting.mem_iff, List.mem_append]
  constructor
  · intro hi
    exact ⟨Or.inl hi, fun hfound => hdisjoint _ hi _ hfound rfl⟩
  · rintro ⟨hi, hfound⟩
    exact hi.resolve_right hfound

/-- The places under which the predictions wait go up from one to the next. -/
theorem IsCoherent.pairwise_keys (hq : q.IsCoherent lex) :
    q.queue.entries.Pairwise fun x y => compare x.1 y.1 = .lt := by
  have hpairs := List.pairwise_map.mp (List.pairwise_flatMap.mp hq.coherent.slots).2
  apply (hq.order.sorted.and hpairs).imp_of_mem
  intro x y hx hy ⟨hle, hapart⟩
  rw [hq.order.keys hx, hq.order.keys hy] at hle ⊢
  have hkeys := hapart _ x.2.minIndex_mem_slots _ y.2.minIndex_mem_slots
  exact (hkeys.before_of_isLE hle).compare_eq_lt

theorem KeepsPlaces.isOrderly (hq : q.IsCoherent lex) (h : KeepsPlaces lex words es q) :
    q.IsOrderly lex words es where
  slots := hq.coherent.slots.imp fun h => ⟨h.ne, h.not_begins, h.symm.not_begins⟩
  keys := hq.order.keys
  noTie := hq.pairwise_keys
  opened := h.once
  waiting_iff _ := h.mem_waiting_iff
  owner {i} hopened hfound := by
    obtain ⟨c, hc, hi⟩ := List.mem_flatMap.mp (h.mem_waiting_iff.mpr ⟨hopened, hfound⟩)
    refine ⟨c, ⟨hc, hi⟩, ?_⟩
    rintro c' ⟨hc', hi'⟩
    exact Category.eq_of_mem_slots hq.coherent.slots hc' hc (Category.moverSlots_subset_slots hi')
      (Category.moverSlots_subset_slots hi)
  leaves := h.leaves
  ascending := h.ascending.imp Address.Before.compare_eq_lt
  before hr ho := (h.before hr ho).compare_eq_lt
  read := by
    refine ⟨((reading es).flatMap fun r => lex.tokensOf r.2).length, ?_, ?_, ?_⟩
    · rw [← h.read, List.length_append]
      exact Nat.le_add_right ..
    · rw [← h.read, List.take_left]
    · rw [← h.read, List.drop_left]

end Parse

namespace BeamParser

variable {π : Type} [Probability π]

/-- Every parse that is on the beam or among the results after some steps has come about by
expansions of the prediction of the start category. Its open predictions and their movers are at
places of which none is above another one, each mover belongs to one of them, and the words are read
from left to right. -/
theorem exists_isOrderly (entries : List (String × List Feature)) (p : BeamParser π)
    (hp : p.lexicon = .ofEntries entries) (words : List String) (start : String)
    (ts : Nat → DerivationTree) (n : Nat) {q : Parse π}
    (hq : q ∈ ((p.start words start).1.after ts n).held) :
    ∃ root, p.lexicon.category? start = some root ∧
      (∃ es, (Parse.initial words (startCategory root start)).ComesAbout p.lexicon es q) ∧
      ∀ es, (Parse.initial words (startCategory root start)).ComesAbout p.lexicon es q →
        q.IsOrderly p.lexicon words es := by
  have hlex : p.lexicon.WellFormed := hp ▸ Lexicon.wellFormed_ofEntries entries
  obtain ⟨root, es, hroot, hes⟩ := exists_comesAbout_of_mem_held p words start ts n hq
  refine ⟨root, hroot, ⟨es, hes⟩, ?_⟩
  intro es' hes'
  exact (hes'.keepsPlaces hlex hroot).isOrderly
    (hes'.isCoherent hlex (isCoherent_initial hlex hroot words))

theorem exists_isOrderly_question :
    ∃ q ∈ ((({ lexicon := .ofEntries questionEntries, settings := { minProbability := 0 } } :
      BeamParser Rat).start ["what", "saw"] "C").1.after (fun _ => {}) 4).held, ∃ root es,
        (Parse.initial ["what", "saw"] (startCategory root "C")).ComesAbout
          (.ofEntries questionEntries) es q ∧
          q.IsOrderly (.ofEntries questionEntries) ["what", "saw"] es := by
  obtain ⟨q, hq⟩ := List.exists_mem_of_length_pos
    (show 0 < ((({ lexicon := .ofEntries questionEntries, settings := { minProbability := 0 } } :
      BeamParser Rat).start ["what", "saw"] "C").1.after (fun _ => {}) 4).held.length
      by decide +kernel)
  obtain ⟨root, -, ⟨es, hes⟩, horderly⟩ :=
    exists_isOrderly questionEntries _ rfl ["what", "saw"] "C" (fun _ => {}) 4 hq
  exact ⟨q, hq, root, es, hes, horderly es hes⟩

end BeamParser
end MinimalistGrammar
