import MinimalistGrammar.Proofs.Archive.Reloading
import MinimalistGrammar.Proofs.Archive.Wholeness
import MinimalistGrammar.Proofs.Derivation.Closed

/-!
# What a load leaves in a tree

A load makes the objects that the snapshot has and drops those that the states have shown before, if
their plain keys are not found in the snapshot. So two kinds of objects make the tree differ from
the snapshot: those that no state shows, which stay, and those that the states have shown and that
the snapshot has under a key with leading zeros only, which are made and then dropped.

## Main definitions

* `DerivationTree.Reached` — a tree comes about by any changes and by loading any snapshots.
* `DerivationTree.Has`, `Snapshot.Names` — the objects of a tree, and those that a snapshot names.
* `DerivationTree.IsReplacement` — what is left when a snapshot has been loaded.

## Main results

* `DerivationTree.isReplacement_of_load` — what a load leaves, and when it is exactly what the
  snapshot names.
-/

namespace MinimalistGrammar

namespace Snapshot

variable {s : Snapshot} {records : List (String × Record)} {key : String}

/-- A key to which the references of the snapshot lead names the object. -/
def Names (s : Snapshot) (k : ObjectKey) : Prop :=
  ∃ key, s.source.Leads s.root key ∧ ObjectKey.parse? key = some k

/-- The keys that can be reached are those to which references lead. -/
theorem mem_reachable_iff (h : s.reachable = .ok records) :
    key ∈ records.map (·.1) ↔ s.source.Leads s.root key := by
  unfold reachable at h
  split at h
  · rw [← Source.exists_mem_walk_iff h, List.mem_map]
    constructor
    · rintro ⟨e, he, rfl⟩
      exact ⟨e.2, he⟩
    · rintro ⟨r, hr⟩
      exact ⟨(key, r), hr, rfl⟩
  · exact absurd h (by simp)

end Snapshot

namespace DerivationTree

variable {t t' u : DerivationTree} {s : Snapshot} {loaded : Loaded} {k : ObjectKey}

/-! ### States under their numbers -/

theorem IsKeyed.congr (h : t.IsKeyed) (hstates : t'.states = t.states) : t'.IsKeyed :=
  fun id x hx => h id x (by rw [state?, ← hstates]; exact hx)

theorem IsKeyed.addStep (h : t.IsKeyed) (step : Step) (parent : Option StateId) :
    (t.addStep step parent).1.IsKeyed := by
  intro id x hx
  rw [state?_addStep] at hx
  split at hx
  · next hid => rw [hid, ← Option.some.inj hx]
  · exact h id x hx

theorem IsKeyed.removeStates (h : t.IsKeyed) (ids : List StateId) :
    (t.removeStates ids).1.IsKeyed :=
  fun id x hx => h id x (of_state?_removeStates hx)

theorem Edits.isKeyed (h : t.Edits u) (ht : t.IsKeyed) : u.IsKeyed := by
  induction h with
  | refl => exact ht
  | store _ _ ih => exact ih.congr rfl
  | addStep _ step parent ih => exact ih.addStep step parent
  | removeStates _ ids ih => exact ih.removeStates ids

theorem id_of_lastState? {id : StateId} {x : SyntaxState} {objects : List Object}
    (h : lastState? id objects = some x) : x.id = id := by
  induction objects with
  | nil => exact absurd h (by simp [lastState?])
  | cons object objects ih =>
    rw [lastState?, Option.or_eq_some_iff] at h
    rcases h with h | ⟨-, h⟩
    · exact ih h
    · cases object with
      | state y =>
        rw [asState?] at h
        split at h
        · next hid => rw [← Option.some.inj h, hid]
        · exact absurd h (by simp)
      | _ => exact absurd h (by simp [asState?])

theorem IsKeyed.load (h : t.IsKeyed) (hload : t.load s = .ok (t', loaded)) : t'.IsKeyed := by
  obtain ⟨records, objects, -, -, -, rfl⟩ := exists_objects_of_load hload
  suffices hdiscarded : IsKeyed
      ((discardedKeys (Target.existing t treeClass) (records.map (·.1))).foldl Target.discard
        ((objects.map (·.2)).foldl putObject t)) from
    hdiscarded.congr rfl
  intro id x hx
  rw [state?_foldl_discard fun _ => exists_text_of_mem_discardedKeys] at hx
  split at hx
  · exact absurd hx (by simp)
  · rw [state?_foldl_putObject_eq, Option.or_eq_some_iff] at hx
    exact hx.elim id_of_lastState? fun hx => h id x hx.2

theorem Evolves.isKeyed (h : Evolves t u) (ht : t.IsKeyed) : u.IsKeyed := by
  induction h with
  | refl => exact ht
  | store _ _ ih => exact (ih ht).congr rfl
  | addStep _ step parent ih => exact (ih ht).addStep step parent
  | jumpTo _ hu' ih => exact (ih ht).congr (Moves.jumpTo hu').sameStates.states
  | nextStep _ ih | previousStep _ ih | firstStep _ ih | lastStep _ ih =>
    exact (ih ht).congr (sameStates_goTo ..).states
  | nextParse _ ih | previousParse _ ih => exact (ih ht).congr (sameStates_cycle ..).states
  | removeStates _ ids ih => exact (ih ht).removeStates ids
  | beamStep _ p ih => exact (p.edits_step .refl).isKeyed (ih ht)
  | beam _ p words start ih => exact (p.edits_parse words start .refl).isKeyed (ih ht)
  | monorail _ p words ih => exact (p.edits_parse words .refl).isKeyed (ih ht)
  | load _ _ _ hu' ih => exact (ih ht).load hu'

/-- The tree comes about from a new one by any changes and by loading any snapshots, those that were
never saved included. -/
inductive Reached : DerivationTree → Prop
  | new : Reached {}
  | evolves {t u : DerivationTree} (h : Reached t) (hu : Evolves t u) : Reached u
  | load {t t' : DerivationTree} {s : Snapshot} {loaded : Loaded} (h : Reached t)
      (hload : t.load s = .ok (t', loaded)) : Reached t'

theorem Reached.isKeyed (h : t.Reached) : t.IsKeyed := by
  induction h with
  | new => exact isConsistent_empty.toIsOrdered.isKeyed
  | evolves _ hu ih => exact hu.isKeyed ih
  | load _ hload ih => exact ih.load hload

/-! ### What is left -/

/-- The tree has an object. -/
def Has (t : DerivationTree) (k : ObjectKey) : Prop := ∃ object, t.objectOf? k = some object

/-- Objects that are put into a tree are there, and those that it had. -/
theorem has_foldl_putObject_iff {objects : List Object} (hk : k ≠ .tree) :
    (objects.foldl putObject t).Has k ↔ (∃ object ∈ objects, object.objectKey = k) ∨ t.Has k := by
  induction objects generalizing t with
  | nil => simp
  | cons object objects ih =>
    have hput : (t.putObject object).Has k ↔ object.objectKey = k ∨ t.Has k := by
      by_cases heq : object.objectKey = k
      · subst heq
        exact iff_of_true ⟨object, objectOf?_putObject t hk⟩ (Or.inl rfl)
      · rw [Has, objectOf?_putObject_of_ne t hk heq, or_iff_right heq]
        rfl
    rw [List.foldl_cons, ih, hput, List.exists_mem_cons_iff, ← or_assoc,
      or_comm (b := object.objectKey = k)]

/-- What is true when the snapshot `s` has been loaded into `t`, which has become `t'`. -/
structure IsReplacement (t : DerivationTree) (s : Snapshot) (t' : DerivationTree) : Prop where
  /-- An object is there if references lead to its plain key, and otherwise if no state has shown it
  and the snapshot names it with leading zeros or the tree has had it. -/
  has_iff {k : ObjectKey} (hk : k ≠ .tree) : t'.Has k ↔
    s.source.Leads s.root k.text ∨ k.text ∉ t.liveKeys ∧ (s.Names k ∨ t.Has k)
  /-- What the snapshot does not name and no state has shown stays as it was. -/
  objectOf?_eq {k : ObjectKey} (hk : k ≠ .tree) (hnames : ¬s.Names k)
    (hdead : k.text ∉ t.liveKeys) :
    t'.objectOf? k = t.objectOf? k
  /-- The tree has exactly what the snapshot names if all that it does not name was shown by the
  states, and all that was shown and that it names has its plain key there. -/
  has_iff_names_iff : (∀ k : ObjectKey, k ≠ .tree → (t'.Has k ↔ s.Names k)) ↔
    (∀ k : ObjectKey, k ≠ .tree → t.Has k → ¬s.Names k → k.text ∈ t.liveKeys) ∧
      ∀ k : ObjectKey, k ≠ .tree → s.Names k → k.text ∈ t.liveKeys → s.source.Leads s.root k.text

/-- Objects are made for exactly the keys that can be reached, and have them. -/
theorem IsKeyed.exists_objectKey_iff (h : t.IsKeyed) {records : List (String × Record)}
    {objects : List (String × Object)} (hrecords : s.reachable = .ok records)
    (hobjects : stageAll t (Target.existing t treeClass) records = .ok objects) :
    (∃ object ∈ objects.map (·.2), object.objectKey = k) ↔ s.Names k := by
  have hstaged := isStaged_of_stageAll hobjects
  constructor
  · rintro ⟨object, hobject, rfl⟩
    obtain ⟨e, he, rfl⟩ := List.mem_map.mp hobject
    obtain ⟨r, hr, hstage⟩ := hstaged.exists_record he
    exact ⟨e.1, (Snapshot.mem_reachable_iff hrecords).mp (List.mem_map_of_mem (f := Prod.fst) hr),
      h.objectKey_of_stageObject hstage⟩
  · rintro ⟨key, hkey, hk⟩
    obtain ⟨e, he, rfl⟩ := List.mem_map.mp ((Snapshot.mem_reachable_iff hrecords).mpr hkey)
    obtain ⟨object, hobject, hstage⟩ := hstaged.exists_object he
    have hobjectKey := (h.objectKey_of_stageObject hstage).symm.trans hk
    exact ⟨object, List.mem_map_of_mem (f := Prod.snd) hobject, Option.some.inj hobjectKey⟩

/-- References lead to plain keys only if these name objects. -/
theorem IsKeyed.names_of_leads (h : t.IsKeyed) {records : List (String × Record)}
    {objects : List (String × Object)} (hrecords : s.reachable = .ok records)
    (hobjects : stageAll t (Target.existing t treeClass) records = .ok objects)
    (hk : s.source.Leads s.root k.text) : s.Names k := by
  obtain ⟨e, he, hkey⟩ := List.mem_map.mp ((Snapshot.mem_reachable_iff hrecords).mpr hk)
  obtain ⟨object, -, hstage⟩ := (isStaged_of_stageAll hobjects).exists_object he
  have hparse := h.objectKey_of_stageObject hstage
  have hread := (Option.filter_eq_some_iff.mp hparse).1
  rw [hkey, ObjectKey.read?_text] at hread
  exact ⟨k.text, hk, by rw [← hkey, hparse, Option.some.inj hread]⟩

/-- After a load there is what was installed or was there before, unless its key is discarded. -/
theorem objectOf?_relink_foldl (t : DerivationTree) (objects : List (String × Object))
    (records : List (String × Record)) {k : ObjectKey} (hk : k ≠ .tree) :
    ((discardedKeys (Target.existing t treeClass) (records.map (·.1))).foldl Target.discard
      ((objects.map (·.2)).foldl putObject t)).relink.objectOf? k =
      if k.text ∈ discardedKeys (Target.existing t treeClass) (records.map (·.1)) then none
      else ((objects.map (·.2)).foldl putObject t).objectOf? k := by
  rw [objectOf?_relink _ hk, objectOf?_foldl_discard (fun _ => exists_text_of_mem_discardedKeys) hk]

/-- Keys are discarded that are live and to which no reference leads. -/
theorem text_mem_discardedKeys_iff {records : List (String × Record)}
    (hrecords : s.reachable = .ok records) (k : ObjectKey) :
    k.text ∈ discardedKeys (Target.existing t treeClass) (records.map (·.1)) ↔
      k.text ∈ t.liveKeys ∧ ¬s.source.Leads s.root k.text := by
  rw [mem_discardedKeys_iff, contains_existing_iff, Snapshot.mem_reachable_iff hrecords]

/-- A load leaves that to which references lead in the snapshot, and of all else what was not
live. -/
theorem IsKeyed.has_load_iff (h : t.IsKeyed) (hload : t.load s = .ok (t', loaded)) {k : ObjectKey}
    (hk : k ≠ .tree) : t'.Has k ↔
      s.source.Leads s.root k.text ∨ k.text ∉ t.liveKeys ∧ (s.Names k ∨ t.Has k) := by
  obtain ⟨records, objects, hroot, hrecords, hobjects, rfl⟩ := exists_objects_of_load hload
  have hmade : ((objects.map (·.2)).foldl putObject t).Has k ↔ s.Names k ∨ t.Has k := by
    rw [has_foldl_putObject_iff hk, h.exists_objectKey_iff hrecords hobjects]
  rw [Has] at hmade
  rw [Has, objectOf?_relink_foldl t objects records hk]
  split
  · next hdiscarded => simp [(text_mem_discardedKeys_iff hrecords k).mp hdiscarded]
  · next hstays =>
    rw [hmade]
    constructor
    · intro hhas
      by_cases hlead : s.source.Leads s.root k.text
      · exact Or.inl hlead
      · exact Or.inr
          ⟨fun hlive => hstays ((text_mem_discardedKeys_iff hrecords k).mpr ⟨hlive, hlead⟩), hhas⟩
    · rintro (hlead | ⟨-, hhas⟩)
      · exact Or.inl (h.names_of_leads hrecords hobjects hlead)
      · exact hhas

/-- Whatever has been done with a tree before, a load that does not fail leaves what the snapshot
names and what no state has shown, but for what was shown and has no plain key in the snapshot. -/
theorem isReplacement_of_load (h : t.Reached) (hload : t.load s = .ok (t', loaded)) :
    t.IsReplacement s t' := by
  have hiff {k : ObjectKey} (hk : k ≠ .tree) := h.isKeyed.has_load_iff hload hk
  obtain ⟨records, objects, hroot, hrecords, hobjects, rfl⟩ := exists_objects_of_load hload
  refine ⟨hiff, fun {k} hk hnot hdead => ?_, ?_⟩
  · rw [objectOf?_relink_foldl t objects records hk,
      if_neg fun hdiscarded => hdead ((text_mem_discardedKeys_iff hrecords k).mp hdiscarded).1]
    refine objectOf?_foldl_putObject_of_ne hk fun object hobject heq => hnot ?_
    exact (h.isKeyed.exists_objectKey_iff hrecords hobjects).mp ⟨object, hobject, heq⟩
  · constructor
    · intro hall
      refine ⟨fun k hk hhas hnot => ?_, fun k hk hname hlive => ?_⟩
      · by_contra hdead
        exact hnot ((hall k hk).mp ((hiff hk).mpr (Or.inr ⟨hdead, Or.inr hhas⟩)))
      · exact ((hiff hk).mp ((hall k hk).mpr hname)).resolve_right fun hdead => hdead.1 hlive
    · rintro ⟨hunnamed, hplain⟩ k hk
      rw [hiff hk]
      constructor
      · rintro (hlead | ⟨hdead, hname | hhas⟩)
        · exact h.isKeyed.names_of_leads hrecords hobjects hlead
        · exact hname
        · by_contra hnot
          exact hdead (hunnamed k hk hhas hnot)
      · intro hname
        by_cases hlive : k.text ∈ t.liveKeys
        · exact Or.inl (hplain k hk hname hlive)
        · exact Or.inr ⟨hlive, Or.inl hname⟩

/-- What a saved snapshot names the saved tree has. -/
theorem has_of_names {v : DerivationTree} (hs : v.save = .ok s) {records : List (String × Record)}
    (hrecords : s.reachable = .ok records) (hk : s.Names k) : v.Has k := by
  obtain ⟨key, hkey, hparse⟩ := hk
  obtain ⟨e, he, rfl⟩ := List.mem_map.mp ((Snapshot.mem_reachable_iff hrecords).mpr hkey)
  have hr := (Snapshot.isWalk_of_reachable hrecords).record he
  rw [Snapshot.source, Dict.record_source] at hr
  have hr := Except.ok.inj hr
  obtain ⟨k', object, -, hparse', hobject, -⟩ := exists_object_of_save hs hr
  obtain rfl := Option.some.inj (hparse.symm.trans hparse')
  exact ⟨object, hobject⟩

/-- A tree without states whose store has a leaf. -/
def looseLeaf (label : String) : DerivationTree :=
  { store := (({} : Store).addLeaf label []).1 }

/-- The key of its leaf. -/
def looseKey : ObjectKey := .object (⟨0⟩ : ConstituentId)

/-- The leaf stays when the snapshot of a new tree is loaded, which does not name it. -/
theorem exists_replacement_looseLeaf : ∃ s t' loaded, ({} : DerivationTree).save = .ok s ∧
    (looseLeaf "x").load s = .ok (t', loaded) ∧
      ¬∀ k : ObjectKey, k ≠ .tree → (t'.Has k ↔ s.Names k) := by
  have hevolves : Evolves {} (looseLeaf "x") := (Evolves.refl {}).store _
  have hordered := (hevolves.isConsistent_and_le isConsistent_empty).1.toIsOrdered
  have hstorable : IsStorable {} :=
    ⟨show 0 < Ident.bound by decide, fun hc => absurd hc (by simp [Store.constituent?])⟩
  obtain ⟨s, hs⟩ := exists_save_of_isClosed (t := {}) (by decide +kernel)
  obtain ⟨t', loaded, hload, -⟩ := exists_load_of_save hordered isConsistent_empty hstorable hs
  obtain ⟨records, objects, -, hrecords, -⟩ := exists_objects_of_load hload
  have h := isReplacement_of_load (Reached.new.evolves hevolves) hload
  have hnames : ¬s.Names looseKey := fun hname => by
    obtain ⟨object, hobject⟩ := has_of_names hs hrecords hname
    exact absurd (Option.isSome_of_eq_some hobject) (by decide +kernel)
  refine ⟨s, t', loaded, hs, hload, fun hsame => ?_⟩
  have hlive := (h.has_iff_names_iff.mp hsame).1 looseKey (by simp [looseKey])
    (Option.isSome_iff_exists.mp (by decide +kernel)) hnames
  rw [liveKeys_eq rfl] at hlive
  exact absurd hlive (by decide +kernel)

end DerivationTree
end MinimalistGrammar
