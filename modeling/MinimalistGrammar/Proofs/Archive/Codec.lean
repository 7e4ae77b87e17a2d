import MinimalistGrammar.Archive.Codec
import MinimalistGrammar.Proofs.Archive.Object

/-!
# Data that come back from a snapshot

What a codec has written it reads again, as long as all that the data refer to is in the snapshot,
so that the references have keys that can be read. All that the data refer to is referred to in the
value.

## Main definitions

* `Value.IsReadable` — all references in a value have keys that can be read.
* `Codec.Restores` — some data come back when they are written.
* `Codec.RefersTo` — to which objects the value that is written refers.

## Main results

* `Attribute.restore_of_store` — annotations come back.
* `Attribute.refersTo` — an annotation refers to its nodes.
-/

namespace MinimalistGrammar

/-! ### References -/

/-- A key that can be read. -/
def IsKey (key : String) : Prop := ∃ k, ObjectKey.parse? key = some k

/-- The key of an object can be read only if its number is not too great. -/
theorem Ident.fits_of_isKey {k : Kind} {id : Ident k} (h : IsKey id.key) : id.fits = true := by
  obtain ⟨key, hkey⟩ := h
  have hfits := ObjectKey.fits_of_parse? hkey
  have hread := (Option.filter_eq_some_iff.mp hkey).1
  rw [show id.key = (ObjectKey.object id).text from rfl, ObjectKey.read?_text] at hread
  rw [← Option.some.inj hread] at hfits
  exact hfits

namespace Value

/-- All references in a value have keys that can be read. -/
def IsReadable (v : Value) : Prop := ∃ p, ∀ ref ∈ v.references p, IsKey ref.key

/-- All references in some items have keys that can be read. -/
def AreReadable (vs : List Value) : Prop :=
  ∃ p i, ∀ ref ∈ itemReferences p i vs, IsKey ref.key

/-- All references in some entries have keys that can be read. -/
def AreReadableEntries (entries : List (Value × Value)) : Prop :=
  ∃ p, ∀ ref ∈ entryReferences p entries, IsKey ref.key

theorem IsReadable.items {v : Value} {vs : List Value} (h : v.IsReadable)
    (hv : v.items? = some vs) : AreReadable vs := by
  obtain ⟨p, h⟩ := h
  refine ⟨p, 0, fun ref href => h ref ?_⟩
  cases v with
  | list items | tuple items | set items =>
    obtain rfl := Option.some.inj hv
    exact href
  | _ => cases hv

theorem AreReadable.head {v : Value} {vs : List Value}
    (h : AreReadable (v :: vs)) : v.IsReadable := by
  obtain ⟨p, i, h⟩ := h
  exact ⟨_, fun ref href => h ref (List.mem_append_left _ href)⟩

theorem AreReadable.tail {v : Value} {vs : List Value}
    (h : AreReadable (v :: vs)) : AreReadable vs := by
  obtain ⟨p, i, h⟩ := h
  exact ⟨_, _, fun ref href => h ref (List.mem_append_right _ href)⟩

theorem IsReadable.entries {entries : List (Value × Value)} (h : (map entries).IsReadable) :
    AreReadableEntries entries := h

theorem AreReadableEntries.head {k v : Value} {rest : List (Value × Value)}
    (h : AreReadableEntries ((k, v) :: rest)) : k.IsReadable ∧ v.IsReadable := by
  obtain ⟨p, h⟩ := h
  exact ⟨⟨_, fun ref href => h ref (List.mem_append_left _ (List.mem_append_left _ href))⟩,
    ⟨_, fun ref href => h ref (List.mem_append_left _ (List.mem_append_right _ href))⟩⟩

theorem AreReadableEntries.tail {k v : Value} {rest : List (Value × Value)}
    (h : AreReadableEntries ((k, v) :: rest)) : AreReadableEntries rest := by
  obtain ⟨p, h⟩ := h
  exact ⟨_, fun ref href => h ref (List.mem_append_right _ href)⟩

end Value

/-! ### Data that come back -/

namespace Codec

variable {α κ : Type} {c : Codec α} {key : Codec κ} {a : α}

/-- Some data come back when they are written, if what they refer to can be read. -/
def Restores (c : Codec α) (a : α) : Prop :=
  ∀ {p q : String} {v : Value}, c.store p a = .ok v → v.IsReadable →
    c.restore q v = .ok a

theorem restores_bool (b : Bool) : bool.Restores b := by
  intro p q v hv _
  obtain rfl := Except.ok.inj hv
  rfl

theorem restores_string (s : String) : string.Restores s := by
  intro p q v hv _
  obtain rfl := Except.ok.inj hv
  rfl

theorem restores_color (x : Color) : color.Restores x := by
  intro p q v hv _
  obtain rfl := Except.ok.inj hv
  rfl

theorem restores_sign (s : Sign) : sign.Restores s := by
  intro p q v hv _
  obtain rfl := Except.ok.inj hv
  show expecting q "a feature sign" (Sign.ofSymbol? s.symbol) = .ok s
  rw [Sign.ofSymbol?_symbol]
  rfl

theorem restores_stateType (t : StateType) : stateType.Restores t := by
  intro p q v hv _
  obtain rfl := Except.ok.inj hv
  cases t <;> rfl

/-- Numbers of 32 bits. -/
theorem restores_number {n : Nat} (h : n < Ident.bound) : number.Restores n := by
  intro p q v hv _
  obtain rfl := Except.ok.inj hv
  have hrange : IntRange.u32.contains n = true := by
    have hle : n ≤ 4294967295 := Nat.le_of_lt_succ h
    rw [IntRange.contains, Bool.and_eq_true, decide_eq_true_eq, decide_eq_true_eq]
    refine ⟨Int.natCast_nonneg n, ?_⟩
    show (n : Int) ≤ 4294967295
    omega
  show expecting q "u32" (((Value.int n).int?.filter IntRange.u32.contains).map Int.toNat) = .ok n
  rw [Value.int?, Option.filter_some_pos hrange]
  rfl

/-- Identifiers of objects that can be in a snapshot. -/
theorem restores_ident {k : Kind} (id : Ident k) : (ident k).Restores id := by
  intro p q v hv hreadable
  obtain rfl := Except.ok.inj hv
  obtain ⟨p, hkey⟩ := hreadable
  have hfits := Ident.fits_of_isKey (hkey _ (List.mem_singleton_self _))
  show expecting q _ (Ident.ofKey? k id.key) = .ok id
  rw [Ident.ofKey?, Ident.read?_key, Option.filter_some_pos hfits]
  rfl

/-! ### Containers -/

theorem Restores.option {o : Option α} (h : ∀ a, o = some a → c.Restores a)
    (hnull : ∀ p a, c.store p a ≠ .ok .null) : c.option.Restores o := by
  intro p q v hv hreadable
  cases o with
  | none =>
    obtain rfl := Except.ok.inj hv
    rfl
  | some a =>
    have hv : c.store p a = .ok v := hv
    have hback := h a rfl hv hreadable (q := q)
    cases v with
    | null => exact absurd hv (hnull p a)
    | _ =>
      show (c.restore q _).map some = .ok (some a)
      rw [hback]
      rfl

theorem restoreItems_of_storeItems {as : List α} (h : ∀ a ∈ as, c.Restores a) {p q : String}
    {i j : Nat} {vs : List Value} (hvs : c.storeItems p i as = .ok vs)
    (hreadable : Value.AreReadable vs) : c.restoreItems q j vs = .ok as := by
  induction as generalizing i j vs with
  | nil =>
    obtain rfl := Except.ok.inj hvs
    rfl
  | cons a as ih =>
    obtain ⟨v, hv, hvs⟩ := bind_eq_ok_iff.mp hvs
    obtain ⟨vs', hvs', hvs⟩ := bind_eq_ok_iff.mp hvs
    obtain rfl := Except.ok.inj hvs
    have hhead := h a (List.mem_cons_self ..) hv hreadable.head (q := itemPath q j)
    have htail := ih (fun a ha => h a (List.mem_cons_of_mem _ ha)) hvs' hreadable.tail (j := j + 1)
    rw [restoreItems, hhead, htail]
    rfl

theorem Restores.list {as : List α} (h : ∀ a ∈ as, c.Restores a) : c.list.Restores as := by
  intro p q v hv hreadable
  obtain ⟨vs, hvs, rfl⟩ := map_eq_ok_iff.mp hv
  exact restoreItems_of_storeItems h hvs (hreadable.items rfl)

theorem restoreEntries_of_storeEntries {entries : List (κ × α)}
    (h : ∀ e ∈ entries, key.Restores e.1 ∧ c.Restores e.2) {p q : String} {i : Nat}
    {vs : List (Value × Value)} (hvs : storeEntries key c p i entries = .ok vs)
    (hreadable : Value.AreReadableEntries vs) : restoreEntries key c q vs = .ok entries := by
  induction entries generalizing i vs with
  | nil =>
    obtain rfl := Except.ok.inj hvs
    rfl
  | cons e entries ih =>
    obtain ⟨k, hk, hvs⟩ := bind_eq_ok_iff.mp hvs
    obtain ⟨v, hv, hvs⟩ := bind_eq_ok_iff.mp hvs
    obtain ⟨vs', hvs', hvs⟩ := bind_eq_ok_iff.mp hvs
    obtain rfl := Except.ok.inj hvs
    obtain ⟨hkey, hvalue⟩ := h e (List.mem_cons_self ..)
    have hkey' := hkey hk hreadable.head.1 (q := entryPath q k)
    have hvalue' := hvalue hv hreadable.head.2 (q := entryPath q k)
    have htail := ih (fun e he => h e (List.mem_cons_of_mem _ he)) hvs' hreadable.tail
    show (do
      let k' ← key.restore (entryPath q k) k
      let a ← c.restore (entryPath q k) v
      let rest ← restoreEntries key c q vs'
      return (k', a) :: rest) = _
    rw [hkey', hvalue', htail]
    rfl

theorem Restores.map [Ord κ] [Std.TransOrd κ] [Std.LawfulEqOrd κ] [DecidableEq κ] {d : Dict κ α}
    (h : ∀ e ∈ d.entries, key.Restores e.1 ∧ c.Restores e.2) : (key.map c).Restores d := by
  intro p q v hv hreadable
  obtain ⟨vs, hvs, rfl⟩ := map_eq_ok_iff.mp hv
  have hback := restoreEntries_of_storeEntries h hvs hreadable.entries (q := q)
  show (do
    let entries ← restoreEntries key c q vs
    return Dict.ofList entries) = _
  rw [hback]
  show Except.ok (Dict.ofList d.entries) = _
  rw [Dict.ofList_entries]

/-- Heads, with one part or with two. -/
theorem restores_head (head : Head) : Codec.head.Restores head := by
  intro p q v hv hreadable
  cases head with
  | single a =>
    have hback := restores_ident a (p := p) hv hreadable (q := q)
    obtain rfl := Except.ok.inj hv
    show ((ident .constituent).restore q (.ref a.key)).map Head.single = _
    rw [hback]
    rfl
  | shared a b =>
    obtain rfl := Except.ok.inj hv
    have hitems : Value.AreReadable [.ref a.key, .ref b.key] := hreadable.items rfl
    have hfirst := restores_ident a (p := p) rfl hitems.head (q := itemPath q 0)
    have hsecond := restores_ident b (p := p) rfl hitems.tail.head (q := itemPath q 1)
    show (do
      let a ← (ident .constituent).restore (itemPath q 0) (.ref a.key)
      let b ← (ident .constituent).restore (itemPath q 1) (.ref b.key)
      return (a, b) : Except LoadError (ConstituentId × ConstituentId)).map _ = _
    rw [hfirst, hsecond]
    rfl

end Codec

/-! ### Annotations -/

namespace Attribute

mutual

/-- An annotation comes back, if its maps are in order. -/
theorem restore_of_store : (a : Attribute) → a.Ordered → ∀ {p q : String} {v : Value},
    a.store p = .ok v → v.IsReadable → restore q v = .ok a
  | null, _, _, _, _, hv, _ | bool _, _, _, _, _, hv, _ | int _, _, _, _, _, hv, _
  | str _, _, _, _, _, hv, _ | color _, _, _, _, _, hv, _ => by
    obtain rfl := Except.ok.inj hv
    rfl
  | float x, _, _, _, _, hv, _ => by
    obtain ⟨_, -, rfl⟩ := map_eq_ok_iff.mp hv
    rfl
  | point p, _, _, _, _, hv, _ => by
    obtain ⟨_, -, hv⟩ := bind_eq_ok_iff.mp hv
    obtain ⟨_, -, hv⟩ := bind_eq_ok_iff.mp hv
    obtain rfl := Except.ok.inj hv
    rfl
  | rect r, _, _, _, _, hv, _ => by
    obtain ⟨_, -, hv⟩ := bind_eq_ok_iff.mp hv
    obtain ⟨_, -, hv⟩ := bind_eq_ok_iff.mp hv
    obtain ⟨_, -, hv⟩ := bind_eq_ok_iff.mp hv
    obtain ⟨_, -, hv⟩ := bind_eq_ok_iff.mp hv
    obtain rfl := Except.ok.inj hv
    rfl
  | node id, _, p, q, _, hv, hreadable => by
    have hback := Codec.restores_ident id (p := p) hv hreadable (q := q)
    obtain rfl := Except.ok.inj hv
    show ((Codec.ident .constituent).restore q (.ref id.key)).map node = _
    rw [hback]
    rfl
  | computed _, _, _, _, _, hv, _ | foreign _ _, _, _, _, _, hv, _ => by
    exact absurd hv (by simp [store])
  | list items, hordered, _, q, _, hv, hreadable => by
    obtain ⟨vs, hvs, rfl⟩ := map_eq_ok_iff.mp hv
    have hback := restoreItems_of_storeItems items hordered hvs (hreadable.items rfl) (q := q)
      (j := 0)
    rw [restore, hback]
    rfl
  | tuple items, hordered, _, q, _, hv, hreadable => by
    obtain ⟨vs, hvs, rfl⟩ := map_eq_ok_iff.mp hv
    have hback := restoreItems_of_storeItems items hordered hvs (hreadable.items rfl) (q := q)
      (j := 0)
    rw [restore, hback]
    rfl
  | set items, hordered, _, q, _, hv, hreadable => by
    obtain ⟨vs, hvs, rfl⟩ := map_eq_ok_iff.mp hv
    have hback := restoreItems_of_storeItems items hordered hvs (hreadable.items rfl) (q := q)
      (j := 0)
    rw [restore, hback]
    rfl
  | map entries, hordered, _, q, _, hv, hreadable => by
    obtain ⟨vs, hvs, rfl⟩ := map_eq_ok_iff.mp hv
    have hback := restoreEntries_of_storeEntries entries hordered.2 hvs hreadable.entries
      (q := q)
    rw [restore, hback]
    show Except.ok (ofEntries entries) = _
    -- entries in order are those of their dictionary
    have hdict : Dict.ofList entries = ⟨entries, hordered.1⟩ :=
      Dict.ofList_entries ⟨entries, hordered.1⟩
    rw [ofEntries, hdict]

theorem restoreItems_of_storeItems : (items : List Attribute) → OrderedItems items →
    ∀ {p q : String} {i j : Nat} {vs : List Value}, storeItems p i items = .ok vs →
      Value.AreReadable vs → restoreItems q j vs = .ok items
  | [], _, _, _, _, _, _, hvs, _ => by
    obtain rfl := Except.ok.inj hvs
    rfl
  | a :: as, hordered, _, q, _, j, _, hvs, hreadable => by
    obtain ⟨v, hv, hvs⟩ := bind_eq_ok_iff.mp hvs
    obtain ⟨vs', hvs', hvs⟩ := bind_eq_ok_iff.mp hvs
    obtain rfl := Except.ok.inj hvs
    have hhead := restore_of_store a hordered.1 hv hreadable.head (q := itemPath q j)
    have htail := restoreItems_of_storeItems as hordered.2 hvs' hreadable.tail (q := q)
      (j := j + 1)
    rw [restoreItems, hhead, htail]
    rfl

theorem restoreEntries_of_storeEntries : (entries : List (String × Attribute)) →
    OrderedEntries entries → ∀ {p q : String} {vs : List (Value × Value)},
      storeEntries p entries = .ok vs → Value.AreReadableEntries vs →
        restoreEntries q vs = .ok entries
  | [], _, _, _, _, hvs, _ => by
    obtain rfl := Except.ok.inj hvs
    rfl
  | (key, a) :: rest, hordered, _, q, _, hvs, hreadable => by
    obtain ⟨v, hv, hvs⟩ := bind_eq_ok_iff.mp hvs
    obtain ⟨vs', hvs', hvs⟩ := bind_eq_ok_iff.mp hvs
    obtain rfl := Except.ok.inj hvs
    have hhead := restore_of_store a hordered.1 hv hreadable.head.2
      (q := entryPath q (.str key))
    have htail := restoreEntries_of_storeEntries rest hordered.2 hvs' hreadable.tail (q := q)
    rw [restoreEntries, hhead, htail]
    rfl

end

end Attribute

theorem Codec.restores_attribute {a : Attribute} (h : a.Ordered) : attribute.Restores a := by
  intro p q v hv hreadable
  exact a.restore_of_store h hv hreadable

/-! ### What is referred to -/

namespace Codec

variable {α : Type} {c : Codec α}

/-- What is written of some data refers to the objects with some keys, in order. -/
def RefersTo (c : Codec α) (a : α) (keys : List String) : Prop :=
  ∀ {p q : String} {v : Value}, c.store p a = .ok v → (v.references q).map (·.key) = keys

/-- Data that are always written as one value without references. -/
theorem refersTo_nil_of_store_eq {a : α} {v : Value} (hstore : ∀ p, c.store p a = .ok v)
    (hv : ∀ q, v.references q = []) : c.RefersTo a [] := by
  intro p q v' hv'
  obtain rfl := Except.ok.inj ((hstore p).symm.trans hv')
  rw [hv, List.map_nil]

theorem refersTo_bool (b : Bool) : bool.RefersTo b [] :=
  refersTo_nil_of_store_eq (fun _ => rfl) fun _ => rfl

theorem refersTo_string (s : String) : string.RefersTo s [] :=
  refersTo_nil_of_store_eq (fun _ => rfl) fun _ => rfl

theorem refersTo_number (n : Nat) : number.RefersTo n [] :=
  refersTo_nil_of_store_eq (fun _ => rfl) fun _ => rfl

theorem refersTo_color (x : Color) : color.RefersTo x [] :=
  refersTo_nil_of_store_eq (fun _ => rfl) fun _ => rfl

theorem refersTo_sign (s : Sign) : sign.RefersTo s [] :=
  refersTo_nil_of_store_eq (fun _ => rfl) fun _ => rfl

theorem refersTo_stateType (t : StateType) : stateType.RefersTo t [] :=
  refersTo_nil_of_store_eq (fun _ => rfl) fun _ => rfl

theorem refersTo_ident {k : Kind} (id : Ident k) : (ident k).RefersTo id [id.key] := by
  intro p q v hv
  obtain rfl := Except.ok.inj hv
  rfl

theorem RefersTo.option {o : Option α} {keys : α → List String} (h : ∀ a, c.RefersTo a (keys a)) :
    c.option.RefersTo o (o.elim [] keys) := by
  intro p q v hv
  cases o with
  | none =>
    obtain rfl := Except.ok.inj hv
    rfl
  | some a => exact h a hv

theorem RefersTo.option_nil {o : Option α} (h : ∀ a, c.RefersTo a []) : c.option.RefersTo o [] := by
  intro p q v hv
  rw [RefersTo.option h hv]
  cases o <;> rfl

theorem keys_itemReferences {as : List α} {keys : α → List String} (h : ∀ a, c.RefersTo a (keys a))
    {p q : String} {i j : Nat} {vs : List Value} (hvs : c.storeItems p i as = .ok vs) :
    (Value.itemReferences q j vs).map (·.key) = as.flatMap keys := by
  induction as generalizing i j vs with
  | nil =>
    obtain rfl := Except.ok.inj hvs
    rfl
  | cons a as ih =>
    obtain ⟨v, hv, hvs⟩ := bind_eq_ok_iff.mp hvs
    obtain ⟨vs', hvs', hvs⟩ := bind_eq_ok_iff.mp hvs
    obtain rfl := Except.ok.inj hvs
    rw [Value.itemReferences, List.map_append, h a hv, ih hvs', List.flatMap_cons]

theorem RefersTo.list {as : List α} {keys : α → List String} (h : ∀ a, c.RefersTo a (keys a)) :
    c.list.RefersTo as (as.flatMap keys) := by
  intro p q v hv
  obtain ⟨vs, hvs, rfl⟩ := map_eq_ok_iff.mp hv
  exact keys_itemReferences h hvs

theorem keys_entryReferences {entries : List (String × α)} {keys : α → List String}
    (h : ∀ a, c.RefersTo a (keys a)) {p q : String} {i : Nat} {vs : List (Value × Value)}
    (hvs : storeEntries string c p i entries = .ok vs) :
    (Value.entryReferences q vs).map (·.key) = (entries.map (·.2)).flatMap keys := by
  induction entries generalizing i vs with
  | nil =>
    obtain rfl := Except.ok.inj hvs
    rfl
  | cons e entries ih =>
    obtain ⟨k, hk, hvs⟩ := bind_eq_ok_iff.mp hvs
    obtain ⟨v, hv, hvs⟩ := bind_eq_ok_iff.mp hvs
    obtain ⟨vs', hvs', hvs⟩ := bind_eq_ok_iff.mp hvs
    obtain rfl := Except.ok.inj hvs
    rw [Value.entryReferences, List.map_append, List.map_append, refersTo_string e.1 hk, h e.2 hv,
      ih hvs', List.nil_append, List.map_cons, List.flatMap_cons]

/-- A dictionary under names refers to what its values refer to. -/
theorem RefersTo.map {d : Dict String α} {keys : α → List String} (h : ∀ a, c.RefersTo a (keys a)) :
    (Codec.map .string c).RefersTo d (d.values.flatMap keys) := by
  intro p q v hv
  obtain ⟨vs, hvs, rfl⟩ := map_eq_ok_iff.mp hv
  exact keys_entryReferences h hvs

/-- A head refers to its parts. -/
theorem refersTo_head (h : Head) : head.RefersTo h (h.parts.map Ident.key) := by
  intro p q v hv
  cases h <;> obtain rfl := Except.ok.inj hv <;>
    simp [Head.parts, Value.references, Value.itemReferences]

end Codec

namespace Attribute

mutual

/-- An annotation refers to its nodes. -/
theorem refersTo : (a : Attribute) → Codec.attribute.RefersTo a (a.nodes.map Ident.key)
  | list items, _, _, _, hv | tuple items, _, _, _, hv | set items, _, _, _, hv => by
    obtain ⟨vs, hvs, rfl⟩ := map_eq_ok_iff.mp hv
    exact keys_itemReferences items hvs
  | map entries, _, _, _, hv => by
    obtain ⟨vs, hvs, rfl⟩ := map_eq_ok_iff.mp hv
    exact keys_entryReferences entries hvs
  | node id, p, _, _, hv => Codec.refersTo_ident id (p := p) hv
  | null, _, _, _, hv | bool _, _, _, _, hv | int _, _, _, _, hv | str _, _, _, _, hv
  | color _, _, _, _, hv => by
    obtain rfl := Except.ok.inj hv
    rfl
  | float _, _, _, _, hv => by
    obtain ⟨_, _, rfl⟩ := map_eq_ok_iff.mp hv
    rfl
  | point _, _, _, _, hv => by
    obtain ⟨_, _, hv⟩ := bind_eq_ok_iff.mp hv
    obtain ⟨_, _, hv⟩ := bind_eq_ok_iff.mp hv
    obtain rfl := Except.ok.inj hv
    rfl
  | rect _, _, _, _, hv => by
    obtain ⟨_, _, hv⟩ := bind_eq_ok_iff.mp hv
    obtain ⟨_, _, hv⟩ := bind_eq_ok_iff.mp hv
    obtain ⟨_, _, hv⟩ := bind_eq_ok_iff.mp hv
    obtain ⟨_, _, hv⟩ := bind_eq_ok_iff.mp hv
    obtain rfl := Except.ok.inj hv
    rfl
  | computed _, _, _, _, hv | foreign _ _, _, _, _, hv =>
    absurd hv (by simp [Codec.attribute, store])

/-- The items of a collection refer to their nodes, one item after the other. -/
theorem keys_itemReferences : (items : List Attribute) → ∀ {p q : String} {i j : Nat}
    {vs : List Value}, storeItems p i items = .ok vs →
      (Value.itemReferences q j vs).map (·.key) = (nodesOfItems items).map Ident.key
  | [], _, _, _, _, _, hvs => by
    obtain rfl := Except.ok.inj hvs
    rfl
  | a :: as, _, _, _, _, _, hvs => by
    obtain ⟨v, hv, hvs⟩ := bind_eq_ok_iff.mp hvs
    obtain ⟨vs', hvs', hvs⟩ := bind_eq_ok_iff.mp hvs
    obtain rfl := Except.ok.inj hvs
    rw [Value.itemReferences, List.map_append, refersTo a hv, keys_itemReferences as hvs',
      nodesOfItems, List.map_append]

/-- The values of a map refer to their nodes, in the order of the entries. -/
theorem keys_entryReferences : (entries : List (String × Attribute)) → ∀ {p q : String}
    {vs : List (Value × Value)}, storeEntries p entries = .ok vs →
      (Value.entryReferences q vs).map (·.key) = (nodesOfEntries entries).map Ident.key
  | [], _, _, _, hvs => by
    obtain rfl := Except.ok.inj hvs
    rfl
  | (name, a) :: rest, _, _, _, hvs => by
    obtain ⟨v, hv, hvs⟩ := bind_eq_ok_iff.mp hvs
    obtain ⟨vs', hvs', hvs⟩ := bind_eq_ok_iff.mp hvs
    obtain rfl := Except.ok.inj hvs
    rw [Value.entryReferences, List.map_append, List.map_append, refersTo a hv,
      keys_entryReferences rest hvs', nodesOfEntries, List.map_append]
    rfl

end

end Attribute
end MinimalistGrammar
