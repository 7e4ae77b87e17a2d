import MinimalistGrammar.Proofs.Archive.Codec
import MinimalistGrammar.Tree.Reachable

/-!
# Objects that come back from their records

An object that is filled with the fields of the record of another one becomes this object, whatever
it was before, as the record has all fields. A record refers to all objects to which its object is
linked.

## Main definitions

* `Object.IsStorable` — the numbers and the maps of an object can be kept.
* `Object.keys` — the keys of the objects to which an object is linked.

## Main results

* `Object.fill_of_record` — an object becomes the one whose record it is filled with.
* `Object.exists_mem_references` — a record refers to all objects to which its object is linked.
-/

namespace MinimalistGrammar

/-! ### Fields -/

namespace Record

variable {α : Type} {r : Record} {key field : String} {c : Codec α} {a b : α}

/-- All references in a record have keys that can be read. -/
def IsReadable (r : Record) (key : String) : Prop := ∀ ref ∈ r.references key, IsKey ref.key

/-- What a record holds is read from it. -/
theorem Holds.update_eq (h : r.Holds key field c a) (hr : r.IsReadable key) (hc : c.Restores a) :
    r.update key field c b = .ok a := by
  obtain ⟨v, hv, hfield⟩ := h
  have hreadable : v.IsReadable := ⟨fieldPath key field, fun ref href => hr ref
    (List.mem_flatMap.mpr ⟨(field, v), Dict.get?_eq_some_iff.mp hfield, href⟩)⟩
  rw [update, hfield]
  exact hc hv hreadable

/-- What a record holds is referred to in it. -/
theorem Holds.exists_mem_references {keys : List String} (h : r.Holds key field c a)
    (hc : c.RefersTo a keys) {k : String} (hk : k ∈ keys) :
    ∃ ref ∈ r.references key, ref.key = k := by
  obtain ⟨v, hv, hfield⟩ := h
  rw [← hc hv (q := fieldPath key field)] at hk
  obtain ⟨ref, href, hkey⟩ := List.mem_map.mp hk
  exact ⟨ref, List.mem_flatMap.mpr ⟨(field, v), Dict.get?_eq_some_iff.mp hfield, href⟩, hkey⟩

/-- A field is written under its name, and all other fields stay. -/
theorem exists_of_put {r' : Record} (h : r.put key field c a = .ok r') :
    ∃ v, c.store (fieldPath key field) a = .ok v ∧
      r' = { r with fields := r.fields.insert field v } := by
  obtain ⟨v, hv, rfl⟩ := map_eq_ok_iff.mp h
  exact ⟨v, hv, rfl⟩

end Record

namespace Object

variable {key : String} {r : Record} {object base : Object}

/-- What the record of a node holds. -/
theorem holds_of_record_constituent {id : ConstituentId} {c : Constituent}
    (h : (constituent id c).record key = .ok r) :
    r.className = Kind.constituent.className ∧
      r.Holds key "label" .string c.label ∧ r.Holds key "parts" nodesCodec c.parts ∧
      r.Holds key "features" (.list (.ident .feature)) c.features ∧
      r.Holds key "lex_key" (.option .string) c.lexKey ∧
      r.Holds key "parent_lex_key" (.option .string) c.parentLexKey ∧
      r.Holds key "movers" (.map .string (.ident .constituent)) c.movers ∧
      r.Holds key "head" (.option .head) c.head ∧
      r.Holds key "lexical_heads" nodesCodec c.lexicalHeads ∧
      r.Holds key "landing" (.option (.ident .constituent)) c.landing ∧
      r.Holds key "address" .string c.address ∧
      r.Holds key "attrs" (.map .string .attribute) c.attributes := by
  rw [record] at h
  obtain ⟨_, p₁, h⟩ := bind_eq_ok_iff.mp h
  obtain ⟨_, p₂, h⟩ := bind_eq_ok_iff.mp h
  obtain ⟨_, p₃, h⟩ := bind_eq_ok_iff.mp h
  obtain ⟨_, p₄, h⟩ := bind_eq_ok_iff.mp h
  obtain ⟨_, p₅, h⟩ := bind_eq_ok_iff.mp h
  obtain ⟨_, p₆, h⟩ := bind_eq_ok_iff.mp h
  obtain ⟨_, p₇, h⟩ := bind_eq_ok_iff.mp h
  obtain ⟨_, p₈, h⟩ := bind_eq_ok_iff.mp h
  obtain ⟨_, p₉, h⟩ := bind_eq_ok_iff.mp h
  obtain ⟨_, p₁₀, p₁₁⟩ := bind_eq_ok_iff.mp h
  obtain ⟨v₁, h₁, rfl⟩ := Record.exists_of_put p₁
  obtain ⟨v₂, h₂, rfl⟩ := Record.exists_of_put p₂
  obtain ⟨v₃, h₃, rfl⟩ := Record.exists_of_put p₃
  obtain ⟨v₄, h₄, rfl⟩ := Record.exists_of_put p₄
  obtain ⟨v₅, h₅, rfl⟩ := Record.exists_of_put p₅
  obtain ⟨v₆, h₆, rfl⟩ := Record.exists_of_put p₆
  obtain ⟨v₇, h₇, rfl⟩ := Record.exists_of_put p₇
  obtain ⟨v₈, h₈, rfl⟩ := Record.exists_of_put p₈
  obtain ⟨v₉, h₉, rfl⟩ := Record.exists_of_put p₉
  obtain ⟨v₁₀, h₁₀, rfl⟩ := Record.exists_of_put p₁₀
  obtain ⟨v₁₁, h₁₁, rfl⟩ := Record.exists_of_put p₁₁
  refine ⟨rfl, ⟨v₁, h₁, ?_⟩, ⟨v₂, h₂, ?_⟩, ⟨v₃, h₃, ?_⟩, ⟨v₄, h₄, ?_⟩, ⟨v₅, h₅, ?_⟩, ⟨v₆, h₆, ?_⟩,
    ⟨v₇, h₇, ?_⟩, ⟨v₈, h₈, ?_⟩, ⟨v₉, h₉, ?_⟩, ⟨v₁₀, h₁₀, ?_⟩, ⟨v₁₁, h₁₁, ?_⟩⟩ <;>
    simp [Dict.get?_insert]

/-- What the record of a feature holds. -/
theorem holds_of_record_feature {id : FeatureId} {f : FeatureOccurrence}
    (h : (feature id f).record key = .ok r) :
    r.className = Kind.feature.className ∧
      r.Holds key "name" .string f.feature.name ∧ r.Holds key "sign" .sign f.feature.sign ∧
      r.Holds key "required" .bool f.feature.required ∧
      r.Holds key "checks" (.option (.ident .feature)) f.checks ∧
      r.Holds key "checked_by" (.option (.ident .feature)) f.checkedBy ∧
      r.Holds key "host" (.option (.ident .constituent)) f.host := by
  rw [record] at h
  obtain ⟨_, p₁, h⟩ := bind_eq_ok_iff.mp h
  obtain ⟨_, p₂, h⟩ := bind_eq_ok_iff.mp h
  obtain ⟨_, p₃, h⟩ := bind_eq_ok_iff.mp h
  obtain ⟨_, p₄, h⟩ := bind_eq_ok_iff.mp h
  obtain ⟨_, p₅, p₆⟩ := bind_eq_ok_iff.mp h
  obtain ⟨v₁, h₁, rfl⟩ := Record.exists_of_put p₁
  obtain ⟨v₂, h₂, rfl⟩ := Record.exists_of_put p₂
  obtain ⟨v₃, h₃, rfl⟩ := Record.exists_of_put p₃
  obtain ⟨v₄, h₄, rfl⟩ := Record.exists_of_put p₄
  obtain ⟨v₅, h₅, rfl⟩ := Record.exists_of_put p₅
  obtain ⟨v₆, h₆, rfl⟩ := Record.exists_of_put p₆
  refine ⟨rfl, ⟨v₁, h₁, ?_⟩, ⟨v₂, h₂, ?_⟩, ⟨v₃, h₃, ?_⟩, ⟨v₄, h₄, ?_⟩, ⟨v₅, h₅, ?_⟩,
    ⟨v₆, h₆, ?_⟩⟩ <;>
    simp [Dict.get?_insert]

/-- What the record of a group holds. -/
theorem holds_of_record_group {id : GroupId} {g : Group} (h : (group id g).record key = .ok r) :
    r.className = Kind.group.className ∧ r.Holds key "name" .string g.name ∧
      r.Holds key "members" nodesCodec g.members ∧
      r.Holds key "color" (.option .color) g.color := by
  rw [record] at h
  obtain ⟨_, p₁, h⟩ := bind_eq_ok_iff.mp h
  obtain ⟨_, p₂, p₃⟩ := bind_eq_ok_iff.mp h
  obtain ⟨v₁, h₁, rfl⟩ := Record.exists_of_put p₁
  obtain ⟨v₂, h₂, rfl⟩ := Record.exists_of_put p₂
  obtain ⟨v₃, h₃, rfl⟩ := Record.exists_of_put p₃
  refine ⟨rfl, ⟨v₁, h₁, ?_⟩, ⟨v₂, h₂, ?_⟩, ⟨v₃, h₃, ?_⟩⟩ <;> simp [Dict.get?_insert]

theorem className_of_record (h : object.record key = .ok r) :
    r.className = object.objectKey.className := by
  cases object with
  | tree => exact (holds_of_record_tree h).1
  | state => exact (holds_of_record_state h).1
  | constituent => exact (holds_of_record_constituent h).1
  | feature => exact (holds_of_record_feature h).1
  | group => exact (holds_of_record_group h).1

/-! ### Reading -/

/-- The numbers of an object have 32 bits, and its annotations keep their maps in order. -/
def IsStorable : Object → Prop
  | tree _ _ nextId => nextId < Ident.bound
  | state s => ∀ p, s.parent = some p → p.index < Ident.bound
  | constituent _ c => ∀ a ∈ c.attributes.values, a.Ordered
  | feature .. => True
  | group .. => True

theorem restores_optionIdent {k : Kind} (id : Option (Ident k)) :
    (Codec.option (.ident k)).Restores id :=
  Codec.Restores.option (fun id _ => Codec.restores_ident id) fun _ _ h => by
    simp [Codec.ident] at h

theorem restores_optionString (s : Option String) : (Codec.option .string).Restores s :=
  Codec.Restores.option (fun s _ => Codec.restores_string s) fun _ _ h => by
    simp [Codec.string] at h

theorem restores_identMap {k : Kind} (d : Dict String (Ident k)) :
    (Codec.map .string (.ident k)).Restores d :=
  Codec.Restores.map fun e _ => ⟨Codec.restores_string e.1, Codec.restores_ident e.2⟩

theorem restores_identList {k : Kind} (ids : List (Ident k)) :
    (Codec.list (.ident k)).Restores ids :=
  Codec.Restores.list fun id _ => Codec.restores_ident id

theorem restores_optionHead (head : Option Head) : (Codec.option .head).Restores head :=
  Codec.Restores.option (fun head _ => Codec.restores_head head) fun _ head h => by
    cases head <;> cases h

theorem restores_attributes {d : Dict String Attribute} (h : ∀ a ∈ d.values, a.Ordered) :
    (Codec.map .string .attribute).Restores d :=
  Codec.Restores.map fun e he => ⟨Codec.restores_string e.1,
    Codec.restores_attribute (h e.2 (List.mem_map_of_mem he))⟩

section fill

variable (hr : r.IsReadable key)

include hr

theorem fill_tree_of_record {states : List StateId} {current : Option StateId} {nextId : Nat}
    (h : (tree states current nextId).record key = .ok r)
    (hobject : (tree states current nextId).IsStorable)
    (hbase : base.objectKey = (tree states current nextId).objectKey) :
    base.fill key r = .ok (tree states current nextId) := by
  obtain ⟨_, _, _, rfl⟩ := exists_tree_of_objectKey hbase
  obtain ⟨-, hstates, hcurrent, hnextId⟩ := holds_of_record_tree h
  rw [fill, hstates.update_eq hr (restores_identList states),
    hcurrent.update_eq hr (restores_optionIdent current),
    hnextId.update_eq hr (Codec.restores_number hobject)]
  rfl

theorem fill_state_of_record {s : SyntaxState} (h : (state s).record key = .ok r)
    (hobject : (state s).IsStorable) (hbase : base.objectKey = (state s).objectKey) :
    base.fill key r = .ok (state s) := by
  obtain ⟨base, rfl, hid⟩ := exists_state_of_objectKey hbase
  obtain ⟨-, hparent, hroots, hmessage, hgroups, htype⟩ := holds_of_record_state h
  -- the parent is written as a number, without the kind of its name
  have hnumber : (Codec.option .number).Restores (s.parent.map (·.index)) := by
    refine Codec.Restores.option (fun n hn => ?_) fun _ _ h => by simp [Codec.number] at h
    obtain ⟨p, hp, rfl⟩ := Option.map_eq_some_iff.mp hn
    exact Codec.restores_number (hobject p hp)
  rw [fill, hparent.update_eq hr hnumber, hroots.update_eq hr (restores_identList s.roots),
    hmessage.update_eq hr (Codec.restores_string _), hgroups.update_eq hr (restores_identMap _),
    htype.update_eq hr (Codec.restores_stateType _)]
  cases s with
  | mk step id parent =>
    cases hid
    cases parent <;> rfl

theorem fill_constituent_of_record {id : ConstituentId} {c : Constituent}
    (h : (constituent id c).record key = .ok r) (hobject : (constituent id c).IsStorable)
    (hbase : base.objectKey = (constituent id c).objectKey) :
    base.fill key r = .ok (constituent id c) := by
  obtain ⟨-, hlabel, hparts, hfeatures, hlexKey, hparentLexKey, hmovers, hhead, hlexicalHeads,
    hlanding, haddress, hattributes⟩ := holds_of_record_constituent h
  cases base with
  | constituent id' c' =>
    cases hbase
    rw [fill, hlabel.update_eq hr (Codec.restores_string _),
      hparts.update_eq hr (restores_identList _), hfeatures.update_eq hr (restores_identList _),
      hlexKey.update_eq hr (restores_optionString _),
      hparentLexKey.update_eq hr (restores_optionString _),
      hmovers.update_eq hr (restores_identMap _), hhead.update_eq hr (restores_optionHead _),
      hlexicalHeads.update_eq hr (restores_identList _),
      hlanding.update_eq hr (restores_optionIdent _),
      haddress.update_eq hr (Codec.restores_string _),
      hattributes.update_eq hr (restores_attributes hobject)]
    rfl
  | _ => cases hbase

theorem fill_feature_of_record {id : FeatureId} {f : FeatureOccurrence}
    (h : (feature id f).record key = .ok r) (hbase : base.objectKey = (feature id f).objectKey) :
    base.fill key r = .ok (feature id f) := by
  obtain ⟨-, hname, hsign, hrequired, hchecks, hcheckedBy, hhost⟩ := holds_of_record_feature h
  cases base with
  | feature id' f' =>
    cases hbase
    rw [fill, hname.update_eq hr (Codec.restores_string _),
      hsign.update_eq hr (Codec.restores_sign _), hrequired.update_eq hr (Codec.restores_bool _),
      hchecks.update_eq hr (restores_optionIdent _),
      hcheckedBy.update_eq hr (restores_optionIdent _), hhost.update_eq hr (restores_optionIdent _)]
    rfl
  | _ => cases hbase

theorem fill_group_of_record {id : GroupId} {g : Group} (h : (group id g).record key = .ok r)
    (hbase : base.objectKey = (group id g).objectKey) : base.fill key r = .ok (group id g) := by
  obtain ⟨-, hname, hmembers, hcolor⟩ := holds_of_record_group h
  have hcolor' : (Codec.option .color).Restores g.color :=
    Codec.Restores.option (fun x _ => Codec.restores_color x) fun _ _ h => by
      simp [Codec.color] at h
  cases base with
  | group id' g' =>
    cases hbase
    rw [fill, hname.update_eq hr (Codec.restores_string _),
      hmembers.update_eq hr (restores_identList _), hcolor.update_eq hr hcolor']
    rfl
  | _ => cases hbase

end fill

/-- An object becomes the one whose record it is filled with, if it has the same key. -/
theorem fill_of_record (h : object.record key = .ok r) (hr : r.IsReadable key)
    (hobject : object.IsStorable) (hbase : base.objectKey = object.objectKey) :
    base.fill key r = .ok object := by
  cases object with
  | tree => exact fill_tree_of_record hr h hobject hbase
  | state => exact fill_state_of_record hr h hobject hbase
  | constituent => exact fill_constituent_of_record hr h hobject hbase
  | feature => exact fill_feature_of_record hr h hbase
  | group => exact fill_group_of_record hr h hbase

end Object

/-! ### References -/

/-- The key of the object to which a link leads. -/
def Link.key : Link → String
  | .constituent id => id.key
  | .feature id => id.key

namespace Object

variable {key : String} {r : Record} {object : Object}

/-- The keys of the objects to which an object is linked. -/
def keys : Object → List String
  | tree states current _ => states.map Ident.key ++ current.toList.map Ident.key
  | state s => s.roots.map Ident.key ++ s.groups.values.map Ident.key
  | constituent _ c => c.links.map Link.key
  | feature _ f => f.links.map Link.key
  | group _ g => g.members.map Ident.key

theorem refersTo_identList {k : Kind} (ids : List (Ident k)) :
    (Codec.list (.ident k)).RefersTo ids (ids.map Ident.key) := by
  intro p q v hv
  rw [Codec.RefersTo.list (fun id : Ident k => Codec.refersTo_ident id) hv, ← List.map_eq_flatMap]

theorem refersTo_optionIdent {k : Kind} (id : Option (Ident k)) :
    (Codec.option (.ident k)).RefersTo id (id.toList.map Ident.key) := by
  intro p q v hv
  rw [Codec.RefersTo.option (fun id : Ident k => Codec.refersTo_ident id) hv]
  cases id <;> rfl

theorem refersTo_identMap {k : Kind} (d : Dict String (Ident k)) :
    (Codec.map .string (.ident k)).RefersTo d (d.values.map Ident.key) := by
  intro p q v hv
  rw [Codec.RefersTo.map (fun id : Ident k => Codec.refersTo_ident id) hv, ← List.map_eq_flatMap]

theorem refersTo_optionHead (head : Option Head) :
    (Codec.option .head).RefersTo head ((head.elim [] Head.parts).map Ident.key) := by
  intro p q v hv
  rw [Codec.RefersTo.option Codec.refersTo_head hv]
  cases head <;> rfl

theorem refersTo_attributes (d : Dict String Attribute) :
    (Codec.map .string .attribute).RefersTo d
      ((d.values.flatMap Attribute.nodes).map Ident.key) := by
  intro p q v hv
  rw [Codec.RefersTo.map Attribute.refersTo hv, ← List.map_flatMap]

/-- A record refers to all objects to which its object is linked. -/
theorem exists_mem_references (h : object.record key = .ok r) {k : String} (hk : k ∈ object.keys) :
    ∃ ref ∈ r.references key, ref.key = k := by
  cases object with
  | tree states current nextId =>
    obtain ⟨-, hstates, hcurrent, -⟩ := holds_of_record_tree h
    rcases List.mem_append.mp hk with hk | hk
    · exact hstates.exists_mem_references (refersTo_identList states) hk
    · exact hcurrent.exists_mem_references (refersTo_optionIdent current) hk
  | state s =>
    obtain ⟨-, -, hroots, -, hgroups, -⟩ := holds_of_record_state h
    rcases List.mem_append.mp hk with hk | hk
    · exact hroots.exists_mem_references (refersTo_identList s.roots) hk
    · exact hgroups.exists_mem_references (refersTo_identMap s.groups) hk
  | constituent id c =>
    obtain ⟨-, -, hparts, hfeatures, -, -, hmovers, hhead, hlexicalHeads, hlanding, -,
      hattributes⟩ := holds_of_record_constituent h
    obtain ⟨l, hl, rfl⟩ := List.mem_map.mp hk
    rcases List.mem_append.mp hl with hl | hl
    · obtain ⟨id, hid, rfl⟩ := List.mem_map.mp hl
      exact hfeatures.exists_mem_references (refersTo_identList _) (List.mem_map_of_mem hid)
    · obtain ⟨id, hid, rfl⟩ := List.mem_map.mp hl
      simp only [Constituent.nodes, List.mem_append] at hid
      -- the nodes are those of six fields
      rcases hid with ((((hid | hid) | hid) | hid) | hid) | hid
      · exact hparts.exists_mem_references (refersTo_identList _) (List.mem_map_of_mem hid)
      · exact hmovers.exists_mem_references (refersTo_identMap _) (List.mem_map_of_mem hid)
      · exact hhead.exists_mem_references (refersTo_optionHead _) (List.mem_map_of_mem hid)
      · exact hlexicalHeads.exists_mem_references (refersTo_identList _) (List.mem_map_of_mem hid)
      · exact hlanding.exists_mem_references (refersTo_optionIdent _) (List.mem_map_of_mem hid)
      · exact hattributes.exists_mem_references (refersTo_attributes _) (List.mem_map_of_mem hid)
  | feature id f =>
    obtain ⟨-, -, -, -, hchecks, hcheckedBy, hhost⟩ := holds_of_record_feature h
    obtain ⟨l, hl, rfl⟩ := List.mem_map.mp hk
    simp only [FeatureOccurrence.links, List.mem_append] at hl
    rcases hl with (hl | hl) | hl
    · obtain ⟨id, hid, rfl⟩ := List.mem_map.mp hl
      exact hchecks.exists_mem_references (refersTo_optionIdent _) (List.mem_map_of_mem hid)
    · obtain ⟨id, hid, rfl⟩ := List.mem_map.mp hl
      exact hcheckedBy.exists_mem_references (refersTo_optionIdent _) (List.mem_map_of_mem hid)
    · obtain ⟨id, hid, rfl⟩ := List.mem_map.mp hl
      exact hhost.exists_mem_references (refersTo_optionIdent _) (List.mem_map_of_mem hid)
  | group id g =>
    obtain ⟨-, -, hmembers, -⟩ := holds_of_record_group h
    exact hmembers.exists_mem_references (refersTo_identList g.members) hk

end Object
end MinimalistGrammar
