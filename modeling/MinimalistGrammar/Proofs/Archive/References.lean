import MinimalistGrammar.Proofs.Archive.Restoring

/-!
# What records refer to

A record refers to the objects to which its object is linked, and to nothing else.

## Main definitions

* `Record.RefersOnly` — a record refers to nothing but certain objects.

## Main results

* `Object.exists_mem_references_iff` — a record refers to exactly what its object is linked to.
-/

namespace MinimalistGrammar

/-! ### Records -/

namespace Record

variable {α : Type} {r r' : Record} {key field : String} {c : Codec α} {a : α} {P : String → Prop}
  {keys : List String}

/-- A record refers to no objects but those with certain keys. -/
def RefersOnly (P : String → Prop) (r : Record) : Prop :=
  ∀ key, ∀ ref ∈ r.references key, P ref.key

theorem refersOnly_empty (P : String → Prop) (className : String) : RefersOnly P { className } :=
  fun _ _ href => absurd href List.not_mem_nil

/-- A field that refers to such objects only may be written. -/
theorem RefersOnly.put (h : r.RefersOnly P) (hc : c.RefersTo a keys) (hkeys : ∀ k ∈ keys, P k)
    (hput : r.put key field c a = .ok r') : r'.RefersOnly P := by
  obtain ⟨v, hv, rfl⟩ := exists_of_put hput
  intro key' ref href
  obtain ⟨⟨field', v'⟩, hentry, href⟩ := List.mem_flatMap.mp href
  have hget := Dict.get?_eq_some_iff.mpr hentry
  by_cases hfield : field' = field
  · subst hfield
    rw [Dict.get?_insert_self] at hget
    obtain rfl := Option.some.inj hget
    refine hkeys ref.key ?_
    rw [← hc hv]
    exact List.mem_map_of_mem href
  · rw [Dict.get?_insert_of_ne hfield] at hget
    exact h key' ref (List.mem_flatMap.mpr ⟨(field', v'), Dict.get?_eq_some_iff.mp hget, href⟩)

/-- A field without references may be written. -/
theorem RefersOnly.put_nil (h : r.RefersOnly P) (hc : c.RefersTo a [])
    (hput : r.put key field c a = .ok r') : r'.RefersOnly P :=
  h.put hc (fun _ hk => absurd hk List.not_mem_nil) hput

end Record

/-! ### Objects -/

namespace Object

open Codec

variable {key : String} {r : Record} {object : Object} {P : String → Prop}

theorem refersOnly_of_record_constituent {id : ConstituentId} {c : Constituent}
    (h : (constituent id c).record key = .ok r) (hfeatures : ∀ f ∈ c.features, P f.key)
    (hnodes : ∀ i ∈ c.nodes, P i.key) : r.RefersOnly P := by
  have hfeatures' : ∀ k ∈ c.features.map Ident.key, P k := List.forall_mem_map.mpr hfeatures
  -- the nodes are those of six fields
  obtain ⟨⟨⟨⟨⟨hparts, hmovers⟩, hhead⟩, hlexicalHeads⟩, hlanding⟩, hattributes⟩ :
      (((((∀ k ∈ c.parts.map Ident.key, P k) ∧ ∀ k ∈ c.movers.values.map Ident.key, P k) ∧
        ∀ k ∈ (c.head.elim [] Head.parts).map Ident.key, P k) ∧
        ∀ k ∈ c.lexicalHeads.map Ident.key, P k) ∧ ∀ k ∈ c.landing.toList.map Ident.key, P k) ∧
        ∀ k ∈ (c.attributes.values.flatMap Attribute.nodes).map Ident.key, P k := by
    simpa only [Constituent.nodes, List.forall_mem_append, List.forall_mem_map] using hnodes
  rw [record] at h
  obtain ⟨r₁, h₁, h⟩ := bind_eq_ok_iff.mp h
  obtain ⟨r₂, h₂, h⟩ := bind_eq_ok_iff.mp h
  obtain ⟨r₃, h₃, h⟩ := bind_eq_ok_iff.mp h
  obtain ⟨r₄, h₄, h⟩ := bind_eq_ok_iff.mp h
  obtain ⟨r₅, h₅, h⟩ := bind_eq_ok_iff.mp h
  obtain ⟨r₆, h₆, h⟩ := bind_eq_ok_iff.mp h
  obtain ⟨r₇, h₇, h⟩ := bind_eq_ok_iff.mp h
  obtain ⟨r₈, h₈, h⟩ := bind_eq_ok_iff.mp h
  obtain ⟨r₉, h₉, h⟩ := bind_eq_ok_iff.mp h
  obtain ⟨r₁₀, h₁₀, h₁₁⟩ := bind_eq_ok_iff.mp h
  have hr₁ := (Record.refersOnly_empty P _).put_nil (refersTo_string _) h₁
  have hr₂ := hr₁.put (refersTo_identList _) hparts h₂
  have hr₃ := hr₂.put (refersTo_identList _) hfeatures' h₃
  have hr₄ := hr₃.put_nil (RefersTo.option_nil refersTo_string) h₄
  have hr₅ := hr₄.put_nil (RefersTo.option_nil refersTo_string) h₅
  have hr₆ := hr₅.put (refersTo_identMap _) hmovers h₆
  have hr₇ := hr₆.put (refersTo_optionHead _) hhead h₇
  have hr₈ := hr₇.put (refersTo_identList _) hlexicalHeads h₈
  have hr₉ := hr₈.put (refersTo_optionIdent _) hlanding h₉
  have hr₁₀ := hr₉.put_nil (refersTo_string _) h₁₀
  exact hr₁₀.put (refersTo_attributes _) hattributes h₁₁

theorem refersOnly_of_record_tree {states : List StateId} {current : Option StateId} {nextId : Nat}
    (h : (tree states current nextId).record key = .ok r) (hstates : ∀ id ∈ states, P id.key)
    (hcurrent : ∀ id ∈ current.toList, P id.key) : r.RefersOnly P := by
  rw [record] at h
  obtain ⟨r₁, h₁, h⟩ := bind_eq_ok_iff.mp h
  obtain ⟨r₂, h₂, h₃⟩ := bind_eq_ok_iff.mp h
  have hr₁ :=
    (Record.refersOnly_empty P _).put (refersTo_identList _) (List.forall_mem_map.mpr hstates) h₁
  have hr₂ := hr₁.put (refersTo_optionIdent _) (List.forall_mem_map.mpr hcurrent) h₂
  exact hr₂.put_nil (refersTo_number _) h₃

theorem refersOnly_of_record_state {s : SyntaxState} (h : (state s).record key = .ok r)
    (hroots : ∀ id ∈ s.roots, P id.key) (hgroups : ∀ id ∈ s.groups.values, P id.key) :
    r.RefersOnly P := by
  rw [record] at h
  obtain ⟨r₁, h₁, h⟩ := bind_eq_ok_iff.mp h
  obtain ⟨r₂, h₂, h⟩ := bind_eq_ok_iff.mp h
  obtain ⟨r₃, h₃, h⟩ := bind_eq_ok_iff.mp h
  obtain ⟨r₄, h₄, h⟩ := bind_eq_ok_iff.mp h
  obtain ⟨r₅, h₅, h₆⟩ := bind_eq_ok_iff.mp h
  have hr₁ := (Record.refersOnly_empty P _).put_nil (refersTo_number _) h₁
  have hr₂ := hr₁.put_nil (RefersTo.option_nil refersTo_number) h₂
  have hr₃ := hr₂.put (refersTo_identList _) (List.forall_mem_map.mpr hroots) h₃
  have hr₄ := hr₃.put_nil (refersTo_string _) h₄
  have hr₅ := hr₄.put (refersTo_identMap _) (List.forall_mem_map.mpr hgroups) h₅
  exact hr₅.put_nil (refersTo_stateType _) h₆

theorem refersOnly_of_record_feature {id : FeatureId} {f : FeatureOccurrence}
    (h : (feature id f).record key = .ok r) (hlinks : ∀ l ∈ f.links, P l.key) : r.RefersOnly P := by
  -- the links are those of three fields
  obtain ⟨⟨hchecks, hcheckedBy⟩, hhost⟩ :
      ((∀ k ∈ f.checks.toList.map Ident.key, P k) ∧ ∀ k ∈ f.checkedBy.toList.map Ident.key, P k) ∧
        ∀ k ∈ f.host.toList.map Ident.key, P k := by
    simpa only [FeatureOccurrence.links, Link.key, List.forall_mem_append, List.forall_mem_map]
      using hlinks
  rw [record] at h
  obtain ⟨r₁, h₁, h⟩ := bind_eq_ok_iff.mp h
  obtain ⟨r₂, h₂, h⟩ := bind_eq_ok_iff.mp h
  obtain ⟨r₃, h₃, h⟩ := bind_eq_ok_iff.mp h
  obtain ⟨r₄, h₄, h⟩ := bind_eq_ok_iff.mp h
  obtain ⟨r₅, h₅, h₆⟩ := bind_eq_ok_iff.mp h
  have hr₁ := (Record.refersOnly_empty P _).put_nil (refersTo_string _) h₁
  have hr₂ := hr₁.put_nil (refersTo_sign _) h₂
  have hr₃ := hr₂.put_nil (refersTo_bool _) h₃
  have hr₄ := hr₃.put (refersTo_optionIdent _) hchecks h₄
  have hr₅ := hr₄.put (refersTo_optionIdent _) hcheckedBy h₅
  exact hr₅.put (refersTo_optionIdent _) hhost h₆

theorem refersOnly_of_record_group {id : GroupId} {g : Group} (h : (group id g).record key = .ok r)
    (hmembers : ∀ id ∈ g.members, P id.key) : r.RefersOnly P := by
  rw [record] at h
  obtain ⟨r₁, h₁, h⟩ := bind_eq_ok_iff.mp h
  obtain ⟨r₂, h₂, h₃⟩ := bind_eq_ok_iff.mp h
  have hr₁ := (Record.refersOnly_empty P _).put_nil (refersTo_string _) h₁
  have hr₂ := hr₁.put (refersTo_identList _) (List.forall_mem_map.mpr hmembers) h₂
  exact hr₂.put_nil (RefersTo.option_nil refersTo_color) h₃

/-- A record refers to nothing but what its object is linked to. -/
theorem refersOnly_of_record (h : object.record key = .ok r) (hP : ∀ k ∈ object.keys, P k) :
    r.RefersOnly P := by
  cases object with
  | tree states current nextId =>
    obtain ⟨hstates, hcurrent⟩ := List.forall_mem_append.mp hP
    exact refersOnly_of_record_tree h (List.forall_mem_map.mp hstates)
      (List.forall_mem_map.mp hcurrent)
  | state s =>
    obtain ⟨hroots, hgroups⟩ := List.forall_mem_append.mp hP
    exact refersOnly_of_record_state h (List.forall_mem_map.mp hroots)
      (List.forall_mem_map.mp hgroups)
  | constituent id c =>
    obtain ⟨hfeatures, hnodes⟩ := List.forall_mem_append.mp (List.forall_mem_map.mp hP)
    exact refersOnly_of_record_constituent h
      (fun f hf => hfeatures (.feature f) (List.mem_map_of_mem hf))
      fun i hi => hnodes (.constituent i) (List.mem_map_of_mem hi)
  | feature id f => exact refersOnly_of_record_feature h (List.forall_mem_map.mp hP)
  | group id g => exact refersOnly_of_record_group h (List.forall_mem_map.mp hP)

/-- No object is linked to the tree. -/
theorem ne_treeClass_of_mem_keys {k : String} (hk : k ∈ object.keys) : k ≠ treeClass := by
  have hlink (l : Link) : l.key ≠ treeClass := by cases l <;> exact Ident.key_ne_treeClass _
  cases object with
  | tree | state =>
    rcases List.mem_append.mp hk with hk | hk <;> obtain ⟨id, -, rfl⟩ := List.mem_map.mp hk <;>
      exact id.key_ne_treeClass
  | constituent | feature =>
    obtain ⟨l, -, rfl⟩ := List.mem_map.mp hk
    exact hlink l
  | group =>
    obtain ⟨id, -, rfl⟩ := List.mem_map.mp hk
    exact id.key_ne_treeClass

theorem exists_mem_references_iff (h : object.record key = .ok r) {k : String} :
    (∃ ref ∈ r.references key, ref.key = k) ↔ k ∈ object.keys := by
  refine ⟨?_, exists_mem_references h⟩
  rintro ⟨ref, href, rfl⟩
  exact refersOnly_of_record h (P := (· ∈ object.keys)) (fun _ hk => hk) key ref href

end Object
end MinimalistGrammar
