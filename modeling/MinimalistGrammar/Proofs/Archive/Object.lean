import MinimalistGrammar.Archive.Object
import MinimalistGrammar.Proofs.Snapshot.Faithful

/-!
# Objects read from their records

A record holds the fields of the object for which it was written. An object that is filled with the
fields of a record keeps its key, and a state or a tree becomes what the record was written for.

## Main definitions

* `Record.Holds` — a record has some data in a field.

## Main results

* `Object.objectKey_fill` — filling keeps the key.
* `Object.fill_state_eq`, `Object.fill_tree_eq` — states and trees become what was written.
-/

namespace MinimalistGrammar

/-! ### Codecs -/

theorem Codec.isFaithful_ident (k : Kind) : (Codec.ident k).IsFaithful := by
  constructor
  intro path path' id id' v hv hid
  obtain rfl := Except.ok.inj hv
  have hkey : expecting path' ("a reference to a " ++ k.className) (Ident.ofKey? k id.key) =
      .ok id' :=
    hid
  have hread := (Option.filter_eq_some_iff.mp (expecting_eq_ok_iff.mp hkey)).1
  rw [Ident.read?_key] at hread
  exact (Option.some.inj hread).symm

theorem Codec.isFaithful_stateType : Codec.stateType.IsFaithful := by
  constructor
  intro path path' type type' v hv htype
  obtain rfl := Except.ok.inj hv
  obtain ⟨n, hn, hcode⟩ := Option.bind_eq_some_iff.mp (expecting_eq_ok_iff.mp htype)
  obtain rfl := Option.some.inj (Option.filter_eq_some_iff.mp hn).1
  rw [Int.toNat_natCast, StateType.ofCode?_code] at hcode
  exact (Option.some.inj hcode).symm

theorem Object.isFaithful_nodesCodec : nodesCodec.IsFaithful :=
  (Codec.isFaithful_ident .constituent).list

/-! ### Fields -/

namespace Record

variable {α β : Type} {r r' : Record} {key key' field field' : String} {c : Codec α} {c' : Codec β}
  {a b b' : α} {a' : β}

/-- A record has some data in a field. -/
def Holds (r : Record) (key field : String) (c : Codec α) (a : α) : Prop :=
  ∃ v, c.store (fieldPath key field) a = .ok v ∧ r.fields.get? field = some v

theorem className_of_put (h : r.put key field c a = .ok r') : r'.className = r.className := by
  obtain ⟨v, -, rfl⟩ := map_eq_ok_iff.mp h
  rfl

theorem holds_of_put (h : r.put key field c a = .ok r') : r'.Holds key field c a := by
  obtain ⟨v, hv, rfl⟩ := map_eq_ok_iff.mp h
  exact ⟨v, hv, Dict.get?_insert_self⟩

theorem Holds.put (h : r.Holds key field c a) (hr' : r.put key' field' c' a' = .ok r')
    (hne : field ≠ field') : r'.Holds key field c a := by
  obtain ⟨v, hv, hfield⟩ := h
  obtain ⟨v', -, rfl⟩ := map_eq_ok_iff.mp hr'
  exact ⟨v, hv, (Dict.get?_insert_of_ne hne).trans hfield⟩

/-- What a faithful codec reads from a field is what the record holds. -/
theorem Holds.eq_of_update (h : r.Holds key field c a) (hc : c.IsFaithful)
    (hb : r.update key' field c b = .ok b') : b' = a := by
  obtain ⟨v, hv, hfield⟩ := h
  rw [update, hfield] at hb
  exact hc.eq hv hb

end Record

/-! ### Objects -/

namespace Object

variable {key key' : String} {r : Record} {object filled : Object} {s s' : SyntaxState}
  {states states' : List StateId} {current current' : Option StateId} {nextId nextId' : Nat}

theorem objectKey_blank (key : ObjectKey) : (blank key).objectKey = key := by
  cases key with
  | tree => rfl
  | @object k id => cases k <;> rfl

/-- An object stays the one with its key. -/
theorem objectKey_fill (h : object.fill key r = .ok filled) :
    filled.objectKey = object.objectKey := by
  cases object <;> rw [fill] at h <;> repeat obtain ⟨_, -, h⟩ := bind_eq_ok_iff.mp h
  all_goals exact Except.ok.inj h ▸ rfl

theorem exists_state_of_objectKey {id : StateId} (h : object.objectKey = .object id) :
    ∃ s, object = .state s ∧ s.id = id := by
  cases object with
  | state s => exact ⟨s, rfl, by cases h; rfl⟩
  | _ => cases h

theorem exists_tree_of_objectKey (h : object.objectKey = .tree) :
    ∃ states current nextId, object = .tree states current nextId := by
  cases object with
  | tree states current nextId => exact ⟨states, current, nextId, rfl⟩
  | _ => cases h

/-- What the record of a state holds. -/
theorem holds_of_record_state (h : (state s).record key = .ok r) :
    r.className = Kind.state.className ∧
      r.Holds key "parent_id" (.option .number) (s.parent.map (·.index)) ∧
      r.Holds key "roots" nodesCodec s.roots ∧ r.Holds key "msg" .string s.message ∧
      r.Holds key "groups" (.map .string (.ident .group)) s.groups ∧
      r.Holds key "state_type" .stateType s.type := by
  rw [record] at h
  obtain ⟨r₁, h₁, h⟩ := bind_eq_ok_iff.mp h
  obtain ⟨r₂, h₂, h⟩ := bind_eq_ok_iff.mp h
  obtain ⟨r₃, h₃, h⟩ := bind_eq_ok_iff.mp h
  obtain ⟨r₄, h₄, h⟩ := bind_eq_ok_iff.mp h
  obtain ⟨r₅, h₅, h₆⟩ := bind_eq_ok_iff.mp h
  refine ⟨?_, ?_, ?_, ?_, ?_, Record.holds_of_put h₆⟩
  · rw [Record.className_of_put h₆, Record.className_of_put h₅, Record.className_of_put h₄,
      Record.className_of_put h₃, Record.className_of_put h₂, Record.className_of_put h₁]
    rfl
  · have hparent := (Record.holds_of_put h₂).put h₃ (by decide)
    exact ((hparent.put h₄ (by decide)).put h₅ (by decide)).put h₆ (by decide)
  · exact (((Record.holds_of_put h₃).put h₄ (by decide)).put h₅ (by decide)).put h₆ (by decide)
  · exact ((Record.holds_of_put h₄).put h₅ (by decide)).put h₆ (by decide)
  · exact (Record.holds_of_put h₅).put h₆ (by decide)

/-- What the record of a tree holds. -/
theorem holds_of_record_tree (h : (tree states current nextId).record key = .ok r) :
    r.className = treeClass ∧ r.Holds key "states" (.list (.ident .state)) states ∧
      r.Holds key "current" (.option (.ident .state)) current ∧
      r.Holds key "next_id" .number nextId := by
  rw [record] at h
  obtain ⟨r₁, h₁, h⟩ := bind_eq_ok_iff.mp h
  obtain ⟨r₂, h₂, h₃⟩ := bind_eq_ok_iff.mp h
  refine ⟨?_, ?_, (Record.holds_of_put h₂).put h₃ (by decide), Record.holds_of_put h₃⟩
  · rw [Record.className_of_put h₃, Record.className_of_put h₂, Record.className_of_put h₁]
    rfl
  · exact ((Record.holds_of_put h₁).put h₂ (by decide)).put h₃ (by decide)

/-- A state becomes the one whose record it is filled with, but for its number. -/
theorem fill_state_eq (hr : (state s).record key = .ok r)
    (h : (state s').fill key' r = .ok filled) : filled = state { s with id := s'.id } := by
  obtain ⟨-, hparent, hroots, hmessage, hgroups, htype⟩ := holds_of_record_state hr
  rw [fill] at h
  obtain ⟨parent, hparent', h⟩ := bind_eq_ok_iff.mp h
  obtain ⟨roots, hroots', h⟩ := bind_eq_ok_iff.mp h
  obtain ⟨message, hmessage', h⟩ := bind_eq_ok_iff.mp h
  obtain ⟨groups, hgroups', h⟩ := bind_eq_ok_iff.mp h
  obtain ⟨type, htype', h⟩ := bind_eq_ok_iff.mp h
  have hnumber : (Codec.option .number).IsFaithful :=
    Codec.isFaithful_number.option fun _ _ hnull => by simp [Codec.number] at hnull
  have hnames : (Codec.map .string (.ident .group)).IsFaithful :=
    Codec.isFaithful_string.map (Codec.isFaithful_ident .group)
  rw [← Except.ok.inj h, hparent.eq_of_update hnumber hparent',
    hroots.eq_of_update isFaithful_nodesCodec hroots',
    hmessage.eq_of_update Codec.isFaithful_string hmessage',
    hgroups.eq_of_update hnames hgroups', htype.eq_of_update Codec.isFaithful_stateType htype']
  cases s with
  | mk step id parent => cases parent <;> rfl

/-- A tree becomes the one whose record it is filled with. -/
theorem fill_tree_eq (hr : (tree states current nextId).record key = .ok r)
    (h : (tree states' current' nextId').fill key' r = .ok filled) :
    filled = tree states current nextId := by
  obtain ⟨-, hstates, hcurrent, hnextId⟩ := holds_of_record_tree hr
  rw [fill] at h
  obtain ⟨states'', hstates', h⟩ := bind_eq_ok_iff.mp h
  obtain ⟨current'', hcurrent', h⟩ := bind_eq_ok_iff.mp h
  obtain ⟨nextId'', hnextId', h⟩ := bind_eq_ok_iff.mp h
  have hcursor : (Codec.option (.ident .state)).IsFaithful :=
    (Codec.isFaithful_ident .state).option fun _ _ hnull => by simp [Codec.ident] at hnull
  rw [← Except.ok.inj h, hstates.eq_of_update (Codec.isFaithful_ident .state).list hstates',
    hcurrent.eq_of_update hcursor hcurrent',
    hnextId.eq_of_update Codec.isFaithful_number hnextId']

end Object
end MinimalistGrammar
