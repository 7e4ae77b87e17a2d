import MinimalistGrammar.Proofs.Archive.Codec

/-!
# Annotations that can be kept

An annotation may hold others, to any depth, and any of them may be of a form that no snapshot
keeps: a value that is computed on demand, one that only others understand, or a double that is not
finite. The first of them that is met on a walk through the annotation is the one that is reported.
An annotation without them is kept, with references to its nodes in the order of a walk, and comes
back.

## Main definitions

* `Attribute.Step`, `Attribute.pathTo` — steps from an annotation to those in it, and how they are
  shown.
* `Attribute.HasAt` — the annotation to which some steps lead.
* `Attribute.isSavable`, `Attribute.fault?` — whether an annotation, apart from those in it, can be
  kept, and why not.

## Main results

* `Attribute.exists_first_of_failure?` — what is reported is the first annotation that cannot be
  kept.
* `Attribute.store_cases` — **when an annotation is kept, and how it comes back**.
-/

namespace MinimalistGrammar

/-! ### What fails -/

section failure

variable {ε α β γ : Type} {x : Except ε α} {y : Except ε β}

/-- The error of what fails. -/
def failure? : Except ε α → Option ε
  | .ok _ => none
  | .error e => some e

theorem failure?_eq_some_iff {e : ε} : failure? x = some e ↔ x = .error e := by
  cases x <;> simp [failure?]

theorem failure?_eq_none_iff : failure? x = none ↔ ∃ a, x = .ok a := by
  cases x <;> simp [failure?]

theorem failure?_map (f : α → β) : failure? (x.map f) = failure? x := by
  cases x <;> rfl

/-- Of two that are done one after the other the first that fails counts. -/
theorem failure?_seq (f : α → β → γ) :
    failure? (do let a ← x; let b ← y; return f a b) = (failure? x).or (failure? y) := by
  cases x <;> cases y <;> rfl

/-- The first of some doubles that is not finite, as an error at a path. -/
def notFinite? (path : String) (xs : List Float) : Option SaveError :=
  (xs.find? (!·.isFinite)).map (.notFinite path)

theorem failure?_finite (path : String) (x : Float) :
    failure? (Codec.finite path x) = notFinite? path [x] := by
  rw [Codec.finite]
  cases hx : x.isFinite <;> simp [notFinite?, failure?, hx]

/-- One more double that is looked at first. -/
theorem failure?_finite_bind {path : String} {x : Float} {xs : List Float} {y : Except SaveError α}
    (h : failure? y = notFinite? path xs) :
    failure? (Codec.finite path x >>= fun _ => y) = notFinite? path (x :: xs) := by
  rw [Codec.finite]
  cases hx : x.isFinite with
  | true =>
    rw [notFinite?, List.find?_cons, hx]
    exact h
  | false =>
    rw [notFinite?, List.find?_cons, hx]
    rfl

end failure

namespace Attribute

/-! ### Places in annotations -/

/-- A step from an annotation to one in it. -/
inductive Step
  /-- To an item of a list, a tuple or a set. -/
  | item (i : Nat)
  /-- To the value under a key of a map. -/
  | entry (key : String)
deriving DecidableEq

namespace Step

/-- The path after a step. -/
def path (path : String) : Step → String
  | item i => itemPath path i
  | entry key => entryPath path (.str key)

/-- Items come in the order of their numbers, and entries in that of their keys. -/
def Before : Step → Step → Prop
  | item i, item j => i < j
  | entry k, entry l => compare k l = .lt
  | _, _ => False

end Step

/-- The path after some steps. -/
def pathTo (path : String) (steps : List Step) : String := steps.foldl Step.path path

/-- The annotations that stand directly in one, with the steps to them, in order. -/
def children : Attribute → List (Step × Attribute)
  | list items | tuple items | set items => items.zipIdx.map fun x => (.item x.2, x.1)
  | map entries => entries.map fun e => (.entry e.1, e.2)
  | _ => []

/-- Some steps lead from an annotation to another one. -/
def HasAt : Attribute → List Step → Attribute → Prop
  | a, [], b => a = b
  | a, s :: steps, b => ∃ c, (s, c) ∈ a.children ∧ c.HasAt steps b

/-! ### Single annotations -/

/-- The doubles in a single annotation. -/
def doubles : Attribute → List Float
  | float x => [x]
  | point p => [p.x, p.y]
  | rect r => [r.x, r.y, r.w, r.h]
  | _ => []

/-- Whether an annotation, apart from those in it, can be kept. -/
def isSavable : Attribute → Bool
  | computed _ | foreign _ _ => false
  | a => a.doubles.all (·.isFinite)

/-- Why an annotation at a path, apart from those in it, cannot be kept. -/
def fault? (path : String) : Attribute → Option SaveError
  | computed _ => some (.forbidden path)
  | foreign typeName _ => some (.unknownType path typeName)
  | a => notFinite? path a.doubles

theorem fault?_eq_none_iff {a : Attribute} (path : String) :
    a.fault? path = none ↔ a.isSavable = true := by
  cases a <;> simp [fault?, isSavable, notFinite?]

/-! ### Walks through annotations -/

theorem sizeOf_lt_of_mem_children {a : Attribute} {x : Step × Attribute} (hx : x ∈ a.children) :
    sizeOf x.2 < sizeOf a := by
  have hitem {items : List Attribute} (hx : x ∈ items.zipIdx.map fun x => (Step.item x.2, x.1)) :
      sizeOf x.2 < 1 + sizeOf items := by
    obtain ⟨y, hy, rfl⟩ := List.mem_map.mp hx
    have hlt := List.sizeOf_lt_of_mem (List.fst_mem_of_mem_zipIdx hy)
    show sizeOf y.1 < 1 + sizeOf items
    omega
  cases a with
  | list items | tuple items | set items => simpa using hitem hx
  | map entries =>
    obtain ⟨⟨key, c⟩, he, rfl⟩ := List.mem_map.mp hx
    have hlt := List.sizeOf_lt_of_mem he
    simp only [map.sizeOf_spec, Prod.mk.sizeOf_spec] at hlt ⊢
    omega
  | _ => exact absurd hx List.not_mem_nil

/-- What holds of an annotation if it holds of all those in it holds of every annotation. -/
theorem induction_children {P : Attribute → Prop} (h : ∀ a, (∀ x ∈ a.children, P x.2) → P a)
    (a : Attribute) : P a :=
  h a fun x hx =>
    have := sizeOf_lt_of_mem_children hx
    induction_children h x.2
termination_by sizeOf a

theorem failure?_storeItems (path : String) (i : Nat) (items : List Attribute) :
    failure? (storeItems path i items) =
      (items.zipIdx i).findSome? fun x => failure? (x.1.store (itemPath path x.2)) := by
  induction items generalizing i with
  | nil => rfl
  | cons a as ih =>
    rw [storeItems, failure?_seq, ih, List.zipIdx_cons, List.findSome?_cons]
    cases failure? (a.store (itemPath path i)) <;> rfl

theorem failure?_storeEntries (path : String) (entries : List (String × Attribute)) :
    failure? (storeEntries path entries) =
      entries.findSome? fun e => failure? (e.2.store (entryPath path (.str e.1))) := by
  induction entries with
  | nil => rfl
  | cons e rest ih =>
    rw [storeEntries, failure?_seq (fun v vs => (Value.str e.1, v) :: vs), ih, List.findSome?_cons]
    cases failure? (e.2.store (entryPath path (.str e.1))) <;> rfl

/-- An annotation fails for its own sake, or as the first of those in it that fails. -/
theorem failure?_store (a : Attribute) (path : String) :
    failure? (a.store path) =
      (a.fault? path).or (a.children.findSome? fun x => failure? (x.2.store (x.1.path path))) := by
  cases a with
  | list items | tuple items | set items =>
    rw [store, failure?_map, failure?_storeItems, children, List.findSome?_map]
    rfl
  | map entries =>
    rw [store, failure?_map, failure?_storeEntries, children, List.findSome?_map]
    rfl
  | float x =>
    refine Eq.trans ?_ Option.or_none.symm
    exact (failure?_map _).trans (failure?_finite path x)
  | point p =>
    refine Eq.trans ?_ Option.or_none.symm
    exact failure?_finite_bind (failure?_finite_bind rfl)
  | rect r =>
    refine Eq.trans ?_ Option.or_none.symm
    exact failure?_finite_bind
      (failure?_finite_bind (failure?_finite_bind (failure?_finite_bind rfl)))
  | _ => rfl

/-- An annotation fails exactly if there is one in it that cannot be kept. -/
theorem failure?_store_eq_none_iff (a : Attribute) : ∀ path : String,
    failure? (a.store path) = none ↔ ∀ steps b, a.HasAt steps b → b.isSavable = true := by
  induction a using induction_children with
  | h a ih =>
    intro path
    rw [failure?_store, Option.or_eq_none_iff, fault?_eq_none_iff, List.findSome?_eq_none_iff]
    constructor
    · rintro ⟨ha, hchildren⟩ steps b hb
      match steps with
      | [] => rwa [← show a = b from hb]
      | s :: steps =>
        obtain ⟨c, hc, hb⟩ := hb
        exact (ih (s, c) hc _).mp (hchildren (s, c) hc) steps b hb
    · intro h
      refine ⟨h [] a rfl, fun x hx => (ih x hx _).mpr fun steps b hb => ?_⟩
      exact h (x.1 :: steps) b ⟨x.2, hx, hb⟩

/-! ### The order of a walk -/

theorem ordered_of_mem_items {items : List Attribute} (h : OrderedItems items) :
    ∀ a ∈ items, a.Ordered := by
  induction items with
  | nil => exact fun a ha => absurd ha List.not_mem_nil
  | cons a as ih => exact List.forall_mem_cons.mpr ⟨h.1, ih h.2⟩

theorem ordered_of_mem_entries {entries : List (String × Attribute)} (h : OrderedEntries entries) :
    ∀ e ∈ entries, e.2.Ordered := by
  induction entries with
  | nil => exact fun e he => absurd he List.not_mem_nil
  | cons e rest ih => exact List.forall_mem_cons.mpr ⟨h.1, ih h.2⟩

/-- What stands in an annotation in order is in order. -/
theorem Ordered.of_mem_children {a : Attribute} (h : a.Ordered) {x : Step × Attribute}
    (hx : x ∈ a.children) : x.2.Ordered := by
  cases a with
  | list items | tuple items | set items =>
    obtain ⟨y, hy, rfl⟩ := List.mem_map.mp hx
    exact ordered_of_mem_items h y.1 (List.fst_mem_of_mem_zipIdx hy)
  | map entries =>
    obtain ⟨e, he, rfl⟩ := List.mem_map.mp hx
    exact ordered_of_mem_entries h.2 e he
  | _ => exact absurd hx List.not_mem_nil

theorem pairwise_zipIdx {α : Type} (l : List α) : l.zipIdx.Pairwise (·.2 < ·.2) := by
  rw [← List.pairwise_map (f := Prod.snd), List.zipIdx_map_snd]
  exact List.pairwise_lt_range'

/-- The steps from an annotation are taken in order. -/
theorem Ordered.pairwise_children {a : Attribute} (h : a.Ordered) :
    a.children.Pairwise fun x y => x.1.Before y.1 := by
  cases a with
  | list items | tuple items | set items => exact List.pairwise_map.mpr (pairwise_zipIdx items)
  | map entries => exact List.pairwise_map.mpr h.1
  | _ => exact .nil

/-- What is reported is the first annotation on a walk that cannot be kept, with its path. -/
theorem exists_first_of_failure? (a : Attribute) : a.Ordered → ∀ {path : String} {e : SaveError},
    failure? (a.store path) = some e → ∃ steps b, a.HasAt steps b ∧
      b.fault? (pathTo path steps) = some e ∧
      ∀ steps' b', a.HasAt steps' b' → b'.isSavable = false →
        steps' = steps ∨ List.Lex Step.Before steps steps' := by
  induction a using induction_children with
  | h a ih =>
    intro hordered path e he
    rw [failure?_store, Option.or_eq_some_iff] at he
    rcases he with he | ⟨hnone, he⟩
    · -- all other annotations stand in this one
      refine ⟨[], a, rfl, he, fun steps' b' _ _ => ?_⟩
      cases steps' with
      | nil => exact .inl rfl
      | cons s' steps' => exact .inr .nil
    · obtain ⟨before, x, after, hchildren, he, hbefore⟩ := List.findSome?_eq_some_iff.mp he
      have hx : x ∈ a.children := by simp [hchildren]
      obtain ⟨steps, b, hb, hfault, hfirst⟩ := ih x hx (hordered.of_mem_children hx) he
      refine ⟨x.1 :: steps, b, ⟨x.2, hx, hb⟩, hfault, fun steps' b' hb' hsavable => ?_⟩
      match steps' with
      | [] =>
        obtain rfl : a = b' := hb'
        rw [(fault?_eq_none_iff path).mp hnone] at hsavable
        exact absurd hsavable (by decide)
      | s' :: steps' =>
        obtain ⟨c, hc, hb'⟩ := hb'
        rw [hchildren, List.mem_append, List.mem_cons] at hc
        rcases hc with hc | rfl | hc
        · -- nothing fails that comes before
          have hc' := (c.failure?_store_eq_none_iff _).mp (hbefore (s', c) hc) steps' b' hb'
          rw [hc'] at hsavable
          exact absurd hsavable (by decide)
        · exact (hfirst steps' b' hb' hsavable).imp (congrArg (s' :: ·)) .cons
        · have hpairwise := hordered.pairwise_children
          rw [hchildren, List.pairwise_append, List.pairwise_cons] at hpairwise
          exact .inr (.rel (hpairwise.2.1.1 (s', c) hc))

/-! ### Annotations that come back -/

/-- What is written of an annotation can be read, if its nodes have numbers of 32 bits. -/
theorem isReadable_of_store {a : Attribute} (hfits : ∀ id ∈ a.nodes, id.fits = true) {path : String}
    {v : Value} (h : a.store path = .ok v) : v.IsReadable := by
  refine ⟨path, fun ref href => ?_⟩
  have hkey : ref.key ∈ a.nodes.map Ident.key := by
    rw [← a.refersTo h (q := path)]
    exact List.mem_map_of_mem href
  obtain ⟨id, hid, hkey⟩ := List.mem_map.mp hkey
  have hid : (ObjectKey.object id).fits = true := hfits id hid
  rw [← hkey]
  exact ⟨.object id, ObjectKey.parse?_text hid⟩

/-- **When an annotation is kept, and how it comes back.** It is kept unless there is one in it that
is computed, foreign or has a double that is not finite; the first of these on a walk is reported,
with the path to it. What is kept comes back as it was, and refers to its nodes in the order of a
walk. -/
theorem store_cases (a : Attribute) (hordered : a.Ordered) (hfits : ∀ id ∈ a.nodes, id.fits = true)
    (path : String) :
    ((∃ e, a.store path = .error e) ↔ ∃ steps b, a.HasAt steps b ∧ b.isSavable = false) ∧
    (∀ e, a.store path = .error e → ∃ steps b, a.HasAt steps b ∧ b.isSavable = false ∧
      b.fault? (pathTo path steps) = some e ∧
      ∀ steps' b', a.HasAt steps' b' → b'.isSavable = false →
        steps' = steps ∨ List.Lex Step.Before steps steps') ∧
    ∀ v, a.store path = .ok v → ∀ path',
      restore path' v = .ok a ∧ (v.references path').map (·.key) = a.nodes.map Ident.key := by
  refine ⟨?_, fun e he => ?_, fun v hv path' => ?_⟩
  · have hiff := not_congr (a.failure?_store_eq_none_iff path)
    push Not at hiff
    simpa only [Option.ne_none_iff_exists', failure?_eq_some_iff, Bool.not_eq_true,
      exists_and_left] using hiff
  · obtain ⟨steps, b, hb, hfault, hfirst⟩ :=
      a.exists_first_of_failure? hordered (failure?_eq_some_iff.mpr he)
    refine ⟨steps, b, hb, ?_, hfault, hfirst⟩
    rw [Bool.eq_false_iff, Ne, ← fault?_eq_none_iff (pathTo path steps), hfault]
    exact Option.some_ne_none e
  · exact ⟨a.restore_of_store hordered hv (isReadable_of_store hfits hv), a.refersTo hv⟩

/-- A map with a node and a point, and the same map with a value that is computed on demand. -/
theorem store_cases_nested :
    let a := map [("centre", point ⟨1, 2⟩), ("parts", list [node ⟨3⟩, tuple [node ⟨1⟩, node ⟨3⟩]])]
    let b :=
      map [("centre", a), ("label", list [bool true, computed 7]), ("size", foreign "Extent" 8)]
    (∃ v, a.store "attrs" = .ok v ∧ restore "attrs" v = .ok a ∧
      (v.references "attrs").map (·.key) = ["Constituent3", "Constituent1", "Constituent3"]) ∧
    b.store "attrs" = .error (.forbidden "attrs[label][1]") ∧
    ∃ steps c, b.HasAt steps c ∧
      c.fault? (pathTo "attrs" steps) = some (.forbidden "attrs[label][1]") := by
  intro a b
  have hcentre : compare "centre" "parts" = .lt ∧ compare "centre" "label" = .lt ∧
      compare "centre" "size" = .lt ∧ compare "label" "size" = .lt := by decide
  have ha : a.Ordered := by
    simp [a, Ordered, OrderedItems, OrderedEntries, Increasing, hcentre]
  have hb : b.Ordered := by
    simp [a, b, Ordered, OrderedItems, OrderedEntries, Increasing, hcentre]
  have hfits : (∀ id ∈ a.nodes, id.fits = true) ∧ ∀ id ∈ b.nodes, id.fits = true := by decide
  have hfails : b.store "attrs" = .error (.forbidden "attrs[label][1]") := rfl
  have hkept : failure? (a.store "attrs") = none := by decide
  obtain ⟨v, hv⟩ := failure?_eq_none_iff.mp hkept
  obtain ⟨hback, hkeys⟩ := (store_cases a ha hfits.1 "attrs").2.2 v hv "attrs"
  obtain ⟨steps, c, hc, -, hfault, -⟩ := (store_cases b hb hfits.2 "attrs").2.1 _ hfails
  exact ⟨⟨v, hv, hback, hkeys⟩, hfails, steps, c, hc, hfault⟩

end Attribute
end MinimalistGrammar
