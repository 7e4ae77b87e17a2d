import MinimalistGrammar.Archive.Log
import MinimalistGrammar.Proofs.Archive.Loading

/-!
# What a load makes of the states

The parent of a state is kept in a snapshot as a number. It is no reference, so nothing says that
there is a record for it. When a snapshot or a log is loaded, the lists of children always say the
same as the parents. But a state whose parent has no record keeps a parent that is not in the tree,
and then the way up from this state leaves the tree.

## Main definitions

* `DerivationTree.IsWhole` — the parents and children of states are states.
* `DerivationTree.lastState?` — the state that some objects leave under a number.
* `DerivationTree.loadedState?` — the state that a load leaves under a number.

## Main results

* `DerivationTree.isWhole_load_iff` — a load leaves a whole tree exactly if it leaves the parents of
  all states that it leaves.
-/

namespace MinimalistGrammar
namespace DerivationTree

variable {t t' : DerivationTree} {s : Snapshot} {id a p : StateId} {loaded : Loaded}

/-! ### Whole trees -/

/-- Every parent of a state is a state, the lists of children say the same as the parents and have
nothing but states, and so have the branches. -/
structure IsWhole (t : DerivationTree) : Prop where
  parent {id p : StateId} (h : t.parent? id = some p) : t.contains p = true
  listed (id : StateId) : t.children.contains id = t.contains id
  mem_childrenOf_iff {p id : StateId} : id ∈ t.childrenOf p ↔ t.parent? id = some p
  contains_child {p id : StateId} (h : id ∈ t.childrenOf p) : t.contains id = true
  contains_branch {id a : StateId} (hid : t.contains id = true) (ha : a ∈ t.branch id) :
    t.contains a = true

theorem contains_of_mem_ancestorsWithin (h : ∀ {id p}, t.parent? id = some p → t.contains p = true)
    {n : Nat} (hid : t.contains id = true) (ha : a ∈ t.ancestorsWithin n (some id)) :
    t.contains a = true := by
  induction n generalizing id with
  | zero => exact absurd ha (by simp [ancestorsWithin])
  | succ n ih =>
    unfold ancestorsWithin at ha
    rcases List.mem_cons.mp ha with rfl | ha
    · exact hid
    · cases hp : t.parent? id with
      | none => simp [hp] at ha
      | some p =>
        rw [hp] at ha
        exact ih (h hp) ha

/-- The lists of children that are made anew say the same as the parents, whatever these are. -/
theorem mem_childrenOf_relink_iff : id ∈ t.relink.childrenOf p ↔ t.relink.parent? id = some p := by
  have hparent : t.relink.parent? id = t.parent? id := rfl
  rw [childrenOf_relink, List.mem_map, hparent, parent?, Option.bind_eq_some_iff]
  constructor
  · rintro ⟨⟨child, x⟩, hmem, rfl⟩
    obtain ⟨hmem, hx⟩ := List.mem_filter.mp hmem
    exact ⟨x, mem_toList_states_iff.mp hmem, by simpa using hx⟩
  · rintro ⟨x, hx, hp⟩
    exact ⟨(id, x), List.mem_filter.mpr ⟨mem_toList_states_iff.mpr hx, by simpa using hp⟩, rfl⟩

/-- States that are linked anew make a whole tree exactly if all parents are states. -/
theorem isWhole_relink_iff :
    t.relink.IsWhole ↔ ∀ id p, t.parent? id = some p → t.contains p = true := by
  constructor
  · intro h id p hp
    exact h.parent (t := t.relink) hp
  · intro h
    have hparent {id p : StateId} (hp : t.relink.parent? id = some p) :
        t.relink.contains p = true :=
      h id p hp
    refine ⟨hparent, fun id => ?_, mem_childrenOf_relink_iff, fun hmem => ?_,
      fun {id a} hid ha => ?_⟩
    · show (linkChildren t.states).contains id = t.states.contains id
      rw [linkChildren, Std.TreeMap.foldl_eq_foldl_toList, Bool.eq_iff_iff,
        contains_foldl_linkChild, Std.TreeMap.contains_map, or_iff_left_iff_imp]
      rintro ⟨⟨child, x⟩, hmem, hx⟩
      refine h child id ?_
      rw [parent?, mem_toList_states_iff.mp hmem]
      exact hx
    · exact contains_of_parent? (mem_childrenOf_relink_iff.mp hmem)
    · rw [branch, List.mem_reverse, ancestors, if_pos hid] at ha
      exact contains_of_mem_ancestorsWithin hparent hid ha

/-! ### The states that a load leaves -/

/-- The state that an object is, if it has a given number. -/
def asState? (id : StateId) : Object → Option SyntaxState
  | .state x => if x.id = id then some x else none
  | _ => none

/-- The state that some objects leave under a number: the last one that has it. -/
def lastState? (id : StateId) : List Object → Option SyntaxState
  | [] => none
  | object :: objects => (lastState? id objects).or (asState? id object)

theorem state?_putObject (t : DerivationTree) (object : Object) (id : StateId) :
    (t.putObject object).state? id = (asState? id object).or (t.state? id) := by
  cases object with
  | state x =>
    have hself : asState? id (.state x) = if x.id = id then some x else none := rfl
    refine (IdentMap.getElem?_insert ..).trans ?_
    rw [hself]
    by_cases hid : id = x.id
    · rw [if_pos hid, if_pos hid.symm, Option.some_or]
    · rw [if_neg hid, if_neg (Ne.symm hid), Option.none_or]
      rfl
  | _ => exact Option.none_or.symm

theorem state?_foldl_putObject_eq (t : DerivationTree) (objects : List Object) (id : StateId) :
    (objects.foldl putObject t).state? id = (lastState? id objects).or (t.state? id) := by
  induction objects generalizing t with
  | nil => exact Option.none_or.symm
  | cons object objects ih =>
    rw [List.foldl_cons, ih, state?_putObject, lastState?, Option.or_assoc]

theorem exists_lastState? {objects : List Object} {x : SyntaxState} (h : .state x ∈ objects) :
    ∃ y, lastState? x.id objects = some y := by
  induction objects with
  | nil => exact absurd h (by simp)
  | cons object objects ih =>
    unfold lastState?
    rcases List.mem_cons.mp h with rfl | h
    · cases lastState? x.id objects with
      | none => exact ⟨x, by simp [asState?]⟩
      | some y => exact ⟨y, rfl⟩
    · obtain ⟨y, hy⟩ := ih h
      exact ⟨y, by rw [hy, Option.some_or]⟩

/-- The state that a load leaves under a number: the one that is made of the records of the
snapshot. A state that was in the tree before and is not found in the snapshot is dropped. -/
def loadedState? (t : DerivationTree) (s : Snapshot) (id : StateId) : Option SyntaxState :=
  match s.reachable with
  | .error _ => none
  | .ok records =>
    match stageAll t (Target.existing t s.root) records with
    | .error _ => none
    | .ok objects =>
      if t.contains id && !(records.map (·.1)).contains id.key then none
      else lastState? id (objects.map (·.2))

/-- The states of a loaded tree are those that the load leaves. -/
theorem IsOrdered.state?_of_load (h : t.IsOrdered) (hload : t.load s = .ok (t', loaded))
    (id : StateId) : t'.state? id = t.loadedState? s id := by
  obtain ⟨records, objects, hroot, hrecords, hobjects, rfl⟩ := exists_objects_of_load hload
  have hgone : id.key ∈ discardedKeys (Target.existing t treeClass) (records.map (·.1)) ↔
      (t.contains id && !(records.map (·.1)).contains id.key) = true := by
    rw [key_mem_discardedKeys_iff, Bool.and_eq_true, Bool.not_eq_true', ← Bool.not_eq_true,
      List.contains_iff_mem]
  have hrelink (u : DerivationTree) : u.relink.state? id = u.state? id := rfl
  unfold loadedState?
  simp only [hrecords, hroot, hobjects]
  rw [hrelink, state?_foldl_discard fun _ => exists_text_of_mem_discardedKeys,
    state?_foldl_putObject_eq]
  simp only [hgone]
  split
  · rfl
  · next hstays =>
    -- a state that was there before is made again
    cases hx : t.state? id with
    | none => exact Option.or_none
    | some x =>
      have hcontains := contains_iff.mpr ⟨x, hx⟩
      have hmem : id.key ∈ records.map (·.1) := by simpa [hcontains] using hstays
      obtain ⟨e, he, hkey⟩ := List.mem_map.mp hmem
      obtain ⟨object, hobject, hstage⟩ := (isStaged_of_stageAll hobjects).exists_object he
      have hobjectKey := h.isKeyed.objectKey_of_stageObject hstage
      have hread := (Option.filter_eq_some_iff.mp hobjectKey).1
      rw [hkey, show id.key = (ObjectKey.object id).text from rfl, ObjectKey.read?_text] at hread
      obtain ⟨y, rfl, hy⟩ := Object.exists_state_of_objectKey (Option.some.inj hread).symm
      obtain ⟨z, hz⟩ := exists_lastState? (List.mem_map_of_mem (f := Prod.snd) hobject)
      rw [← hy, hz, Option.some_or]

/-! ### Whole trees from snapshots and logs -/

/-- What is true when the snapshot `s` has been loaded into `t`, which has become `t'`. The tree is
whole exactly if with every state that is left its parent is left. -/
structure IsOutcome (t : DerivationTree) (s : Snapshot) (t' : DerivationTree) : Prop where
  state?_eq (id : StateId) : t'.state? id = t.loadedState? s id
  mem_childrenOf_iff {p id : StateId} : id ∈ t'.childrenOf p ↔ t'.parent? id = some p
  isWhole_iff : t'.IsWhole ↔ ∀ id x p, t.loadedState? s id = some x → x.parent = some p →
    ∃ y, t.loadedState? s p = some y

theorem IsOrdered.isOutcome (h : t.IsOrdered) (hload : t.load s = .ok (t', loaded)) :
    t.IsOutcome s t' := by
  have hstate := h.state?_of_load hload
  obtain ⟨records, objects, -, -, -, rfl⟩ := exists_objects_of_load hload
  refine ⟨hstate, mem_childrenOf_relink_iff,
    isWhole_relink_iff.trans ⟨fun hwhole id x p hx hp => ?_, fun hwhole id p hp => ?_⟩⟩
  · rw [← hstate] at hx
    obtain ⟨y, hy⟩ := contains_iff.mp (hwhole id p (Option.bind_eq_some_iff.mpr ⟨x, hx, hp⟩))
    exact ⟨y, (hstate p).symm.trans hy⟩
  · obtain ⟨x, hx, hp⟩ := Option.bind_eq_some_iff.mp hp
    obtain ⟨y, hy⟩ := hwhole id x p ((hstate id).symm.trans hx) hp
    exact contains_iff.mpr ⟨y, (hstate p).trans hy⟩

theorem ofLog_eq_ok_iff {records : List LogRecord} :
    ofLog records = .ok t' ↔
      ∃ loaded, ({} : DerivationTree).load (logSnapshot records) = .ok (t', loaded) := by
  unfold ofLog ofSnapshot
  rw [map_eq_ok_iff]
  constructor
  · rintro ⟨⟨t', loaded⟩, hload, rfl⟩
    exact ⟨loaded, hload⟩
  · rintro ⟨loaded, hload⟩
    exact ⟨(t', loaded), hload, rfl⟩

/-- A load that does not fail leaves the states that are made of the snapshot, with lists of
children that say the same as their parents. The tree is whole exactly if with every state its
parent was made. It is the same with the tree of a log. -/
theorem isOutcome_of_load (ht : t.IsConsistent) :
    (∀ s t' loaded, t.load s = .ok (t', loaded) → t.IsOutcome s t') ∧
      ∀ records t', ofLog records = .ok t' →
        ({} : DerivationTree).IsOutcome (logSnapshot records) t' := by
  refine ⟨fun s t' loaded hload => ht.isOutcome hload, fun records t' hlog => ?_⟩
  obtain ⟨loaded, hload⟩ := ofLog_eq_ok_iff.mp hlog
  exact isConsistent_empty.isOutcome hload

/-- The log of a state whose parent is missing. -/
def orphanLog : List LogRecord :=
  let r : Record :=
    { className := Kind.state.className
      fields := Dict.ofList [("parent_id", .int 0), ("roots", .list []), ("msg", .str "scan"),
        ("groups", .map []), ("state_type", .int 3)] }
  let key := Ident.key (k := .state) ⟨1⟩
  [{ state := 1, parent := some 0, type := 3, message := "scan", roots := .list [],
     groups := .map []
     objects := { root := key, records := Dict.ofList [(key, r)] } }]

/-- Nothing but the tree itself is live in a tree without states. -/
theorem liveKeys_eq (h : t.states = ∅) : t.liveKeys = [treeClass] := by
  have hshown : t.shown = {} := by
    unfold shown
    rw [h]
    show Store.follow _ _ [] = _
    rw [Store.follow]
    rfl
  unfold liveKeys
  rw [hshown, h]
  rfl

theorem existing_empty :
    Target.existing ({} : DerivationTree) treeClass = Std.TreeSet.ofList [treeClass] := by
  show (Std.TreeSet.ofList ({} : DerivationTree).liveKeys) = _
  rw [liveKeys_eq rfl]

/-- The tree of such a log has the state with its parent, which is no state of the tree. -/
theorem exists_orphan : ∃ t' loaded,
    ofLog orphanLog = .ok t' ∧
      ({} : DerivationTree).load (logSnapshot orphanLog) = .ok (t', loaded) ∧
      t'.parent? ⟨1⟩ = some ⟨0⟩ ∧ t'.contains ⟨0⟩ = false ∧ ¬ t'.IsWhole := by
  have hreach : (logSnapshot orphanLog).reachable =
      .ok (((logSnapshot orphanLog).reachableWithin 20).getD []) := by
    apply Snapshot.reachable_eq_of_reachableWithin (n := 20)
    have hsome : ((logSnapshot orphanLog).reachableWithin 20).isSome = true := by decide +kernel
    obtain ⟨records, hrecords⟩ := Option.isSome_iff_exists.mp hsome
    rw [hrecords, Option.getD_some]
  have hroot : (logSnapshot orphanLog).root = treeClass := rfl
  -- both states are known once the objects have been made
  have hmade : (stageAll ({} : DerivationTree) (Std.TreeSet.ofList [treeClass])
      (((logSnapshot orphanLog).reachableWithin 20).getD [])).toOption.any (fun objects =>
        (lastState? ⟨1⟩ (objects.map (·.2))).bind (·.parent) == some ⟨0⟩ &&
          (lastState? ⟨0⟩ (objects.map (·.2))).isNone) = true := by
    decide +kernel
  obtain ⟨objects, hobjects, hstates⟩ := (Option.any_eq_true ..).mp hmade
  obtain ⟨hchild, hparent⟩ := Bool.and_eq_true_iff.mp hstates
  have hstage : stageAll ({} : DerivationTree)
      (Target.existing ({} : DerivationTree) (logSnapshot orphanLog).root)
      (((logSnapshot orphanLog).reachableWithin 20).getD []) = .ok objects := by
    rw [hroot, existing_empty]
    exact toOption_eq_some_iff.mp hobjects
  have hleft (id : StateId) : ({} : DerivationTree).loadedState? (logSnapshot orphanLog) id =
      lastState? id (objects.map (·.2)) := by
    have hempty : ({} : DerivationTree).contains id = false := contains_eq_false_of_isEmpty rfl
    unfold loadedState?
    simp only [hreach, hstage, hempty, Bool.false_and]
    rfl
  obtain ⟨loaded, hload⟩ := exists_load_of_stageAll hreach hstage
  have hload : ({} : DerivationTree).load (logSnapshot orphanLog) = .ok (_, loaded) := hload
  have hlog := ofLog_eq_ok_iff.mpr ⟨loaded, hload⟩
  obtain ⟨hloads, hlogs⟩ := isOutcome_of_load isConsistent_empty
  have h := hloads _ _ _ hload
  have h' := hlogs _ _ hlog
  obtain ⟨x, hx, hp⟩ := Option.bind_eq_some_iff.mp (eq_of_beq hchild)
  have hnone := Option.isNone_iff_eq_none.mp hparent
  refine ⟨_, loaded, hlog, hload, ?_, ?_, fun hwhole => ?_⟩
  · rw [parent?, h.state?_eq, hleft, hx]
    exact hp
  · rw [Bool.eq_false_iff]
    intro hcontains
    obtain ⟨y, hy⟩ := contains_iff.mp hcontains
    rw [h.state?_eq, hleft, hnone] at hy
    exact absurd hy (by simp)
  · obtain ⟨y, hy⟩ := h'.isWhole_iff.mp hwhole ⟨1⟩ x ⟨0⟩ ((hleft _).trans hx) hp
    rw [hleft, hnone] at hy
    exact absurd hy (by simp)

end DerivationTree
end MinimalistGrammar
