import MinimalistGrammar.Proofs.Archive.Loading

/-!
# Objects that come into a tree and go from it

Putting an object into a tree changes what is found under its key and nothing else, and so does
dropping one. The counters stay above the numbers of all objects that have come into the tree.

## Main definitions

* `DerivationTree.counter` — the number that the next object of a kind gets.
* `Object.reserved` — the numbers that are in use when an object is in a tree.

## Main results

* `DerivationTree.objectOf?_foldl_putObject`, `DerivationTree.objectOf?_foldl_putObject_of_ne` —
  what is found when some objects have come into a tree.
* `DerivationTree.objectOf?_foldl_discard` — what is found when some have gone.
* `DerivationTree.counter_foldl_putObject_le_iff` — the counters when some have come.
-/

namespace MinimalistGrammar

/-- All numbers of a kind below this one are in use when an object is in a tree. -/
def Object.reserved : Object → Kind → Nat
  | tree _ _ nextId, .state => nextId
  | state s, .state => s.id.index + 1
  | constituent id _, .constituent => id.index + 1
  | feature id _, .feature => id.index + 1
  | group id _, .group => id.index + 1
  | _, _ => 0

namespace DerivationTree

variable {t : DerivationTree} {object : Object} {objects : List Object} {k : ObjectKey}
  {kind : Kind} {keys : List String}

/-! ### Objects that come -/

theorem objectOf?_putObject (t : DerivationTree) (h : object.objectKey ≠ .tree) :
    (t.putObject object).objectOf? object.objectKey = some object := by
  cases object with
  | tree => exact absurd rfl h
  | _ => exact congrArg (Option.map _) ((IdentMap.getElem?_insert ..).trans (if_pos rfl))

theorem objectOf?_putObject_of_ne (t : DerivationTree) (hk : k ≠ .tree) (h : object.objectKey ≠ k) :
    (t.putObject object).objectOf? k = t.objectOf? k := by
  have hne {kind : Kind} {id id' : Ident kind} (h : ObjectKey.object id ≠ .object id') : id' ≠ id :=
    fun heq => h (congrArg ObjectKey.object heq.symm)
  cases k with
  | tree => exact absurd rfl hk
  | @object kind id =>
    cases object <;> cases kind <;> first
      | rfl
      | exact congrArg (Option.map _) ((IdentMap.getElem?_insert ..).trans (if_neg (hne h)))

theorem objectOf?_foldl_putObject_of_ne (hk : k ≠ .tree)
    (h : ∀ object ∈ objects, object.objectKey ≠ k) :
    (objects.foldl putObject t).objectOf? k = t.objectOf? k := by
  induction objects generalizing t with
  | nil => rfl
  | cons object objects ih =>
    rw [List.foldl_cons, ih fun object hmem => h object (List.mem_cons_of_mem _ hmem)]
    exact objectOf?_putObject_of_ne t hk (h object (List.mem_cons_self ..))

theorem objectOf?_foldl_putObject (hdistinct : objects.Pairwise (·.objectKey ≠ ·.objectKey))
    (hobject : object ∈ objects) (h : object.objectKey ≠ .tree) :
    (objects.foldl putObject t).objectOf? object.objectKey = some object := by
  induction objects generalizing t with
  | nil => exact absurd hobject (by simp)
  | cons first objects ih =>
    obtain ⟨hfirst, hrest⟩ := List.pairwise_cons.mp hdistinct
    rw [List.foldl_cons]
    rcases List.mem_cons.mp hobject with rfl | hobject
    · rw [objectOf?_foldl_putObject_of_ne h fun object' hmem => (hfirst object' hmem).symm]
      exact objectOf?_putObject t h
    · exact ih hrest hobject

/-! ### Objects that go -/

theorem objectOf?_dropObject (t : DerivationTree) (h : k ≠ .tree) :
    (t.dropObject k).objectOf? k = none := by
  cases k with
  | tree => exact absurd rfl h
  | @object kind id =>
    cases kind <;> exact congrArg (Option.map _) ((IdentMap.getElem?_erase ..).trans (if_pos rfl))

theorem objectOf?_dropObject_of_ne (t : DerivationTree) {k' : ObjectKey} (hk : k ≠ .tree)
    (h : k ≠ k') : (t.dropObject k').objectOf? k = t.objectOf? k := by
  have hne {kind : Kind} {id id' : Ident kind} (h : ObjectKey.object id ≠ .object id') : id ≠ id' :=
    fun heq => h (congrArg ObjectKey.object heq)
  cases k with
  | tree => exact absurd rfl hk
  | @object kind id =>
    cases k' with
    | tree => rfl
    | @object kind' id' =>
      cases kind <;> cases kind' <;> first
        | rfl
        | exact congrArg (Option.map _) ((IdentMap.getElem?_erase ..).trans (if_neg (hne h)))

theorem objectOf?_foldl_discard (hkeys : ∀ key ∈ keys, ∃ k : ObjectKey, k.text = key)
    (hk : k ≠ .tree) :
    (keys.foldl Target.discard t).objectOf? k = if k.text ∈ keys then none else t.objectOf? k := by
  induction keys generalizing t with
  | nil => rfl
  | cons key keys ih =>
    obtain ⟨k', rfl⟩ := hkeys key (List.mem_cons_self ..)
    rw [List.foldl_cons, ih fun key hkey => hkeys key (List.mem_cons_of_mem _ hkey), discard_text]
    by_cases heq : k = k'
    · subst heq
      rw [objectOf?_dropObject t hk, ite_self, if_pos (List.mem_cons_self ..)]
    · have hne : k.text ≠ k'.text := fun htext => heq (ObjectKey.eq_of_text_eq k k' htext)
      simp only [objectOf?_dropObject_of_ne t hk heq, List.mem_cons, hne, false_or]

/-! ### Counters -/

/-- The number that the next object of a kind gets. -/
def counter (t : DerivationTree) : Kind → Nat
  | .state => t.nextId
  | .constituent => t.store.nextConstituent
  | .feature => t.store.nextFeature
  | .group => t.store.nextGroup

theorem counter_putObject (t : DerivationTree) (object : Object) (kind : Kind) :
    (t.putObject object).counter kind = max (t.counter kind) (object.reserved kind) := by
  cases object <;> cases kind <;> first | rfl | exact (Nat.max_zero _).symm

/-- The counters stay above the numbers of what comes into a tree, and no higher than they have
to. -/
theorem counter_foldl_putObject_le_iff {n : Nat} :
    (objects.foldl putObject t).counter kind ≤ n ↔
      t.counter kind ≤ n ∧ ∀ object ∈ objects, object.reserved kind ≤ n := by
  induction objects generalizing t with
  | nil => simp
  | cons object objects ih =>
    rw [List.foldl_cons, ih, counter_putObject, Nat.max_le, List.forall_mem_cons, and_assoc]

theorem counter_foldl_discard (hkeys : ∀ key ∈ keys, ∃ k : ObjectKey, k.text = key) :
    (keys.foldl Target.discard t).counter kind = t.counter kind := by
  induction keys generalizing t with
  | nil => rfl
  | cons key keys ih =>
    obtain ⟨k, rfl⟩ := hkeys key (List.mem_cons_self ..)
    rw [List.foldl_cons, ih fun key hkey => hkeys key (List.mem_cons_of_mem _ hkey), discard_text]
    cases k with
    | tree => rfl
    | @object k id => cases k <;> cases kind <;> rfl

end DerivationTree
end MinimalistGrammar
