import MinimalistGrammar.Proofs.Decimal.Finite
import MinimalistGrammar.Proofs.Snapshot.Faithful

/-!
# Values that survive their encoding

The JSON of a value stands for this value again, if the integers in the value fit a word and its
doubles are finite. Whatever JSON stands for a value, the value has these properties.

## Main definitions

* `Json.isNumeric` — whether all numbers in JSON are such as JSON has.
* `Value.isEncodable` — whether all numbers in a value are kept by JSON.

## Main results

* `Value.ofJson_toJson_iff` — which values survive their encoding.
* `Value.isEncodable_of_ofJson` — what JSON stands for survives.
* `Value.survives` — **both together**.
-/

namespace MinimalistGrammar

/-! ### Numbers -/

namespace Json

mutual

/-- Whether all integers in a JSON value are words of 64 bits, with or without a sign, and all
doubles are finite. -/
def isNumeric : Json → Bool
  | int n => IntRange.i64.contains n || IntRange.u64.contains n
  | float x => x.isFinite
  | arr items => areNumeric items
  | obj fields => areNumericFields fields
  | _ => true

/-- The items of an array. -/
def areNumeric : List Json → Bool
  | [] => true
  | j :: js => j.isNumeric && areNumeric js

/-- The fields of an object. -/
def areNumericFields : List (String × Json) → Bool
  | [] => true
  | (_, j) :: rest => j.isNumeric && areNumericFields rest

end

end Json

/-- Whether both coordinates of a point are finite. -/
def Point.isFinite (p : Point) : Bool := p.x.isFinite && p.y.isFinite

/-- Whether the corner and the size of a rectangle are finite. -/
def Rect.isFinite (r : Rect) : Bool :=
  r.x.isFinite && r.y.isFinite && r.w.isFinite && r.h.isFinite

namespace Value

mutual

/-- Whether all integers in a value are words of 64 bits with a sign, and all doubles are finite. -/
def isEncodable : Value → Bool
  | int n => IntRange.i64.contains n
  | float x => x.isFinite
  | list items => areEncodable items
  | tuple items => areEncodable items
  | set items => areEncodable items
  | map entries => areEncodableEntries entries
  | point p => p.isFinite
  | rect r => r.isFinite
  | _ => true

/-- The items of a container. -/
def areEncodable : List Value → Bool
  | [] => true
  | v :: vs => v.isEncodable && areEncodable vs

/-- The entries of a map. -/
def areEncodableEntries : List (Value × Value) → Bool
  | [] => true
  | (k, v) :: rest => k.isEncodable && v.isEncodable && areEncodableEntries rest

end

end Value

theorem contains_i64_iff {n : Int} :
    IntRange.i64.contains n = true ↔ -(pow2 63 : Int) ≤ n ∧ n < pow2 63 := by
  have hword : (pow2 63 : Int) = 2 ^ 63 := rfl
  simp [IntRange.contains, IntRange.i64, IntRange.signed, hword]
  omega

/-- Integers in JSON have a finite double. -/
theorem isFinite_doubleOfInt_of_isNumeric {n : Int} (h : (Json.int n).isNumeric = true) :
    (doubleOfInt n).isFinite = true := by
  refine isFinite_doubleOfInt ?_
  have hword : pow2 63 = 2 ^ 63 ∧ pow2 64 = 2 ^ 64 := ⟨rfl, rfl⟩
  simp [Json.isNumeric, IntRange.contains, IntRange.i64, IntRange.signed, IntRange.u64,
    IntRange.unsigned, hword] at h
  omega

/-! ### Single values -/

theorem readNumber_doubleJson (x y : Float) :
    readNumber (doubleJson x) = .ok y ↔ x.isFinite = true ∧ x = y := by
  cases hx : x.isFinite with
  | true => simp [doubleJson, hx, readNumber, Json.double?]
  | false => simp [doubleJson, hx, readNumber, Json.double?]

theorem isFinite_of_readNumber {j : Json} {x : Float} (hj : j.isNumeric = true)
    (h : readNumber j = .ok x) : x.isFinite = true := by
  cases j with
  | int n =>
    obtain rfl := Except.ok.inj h
    exact isFinite_doubleOfInt_of_isNumeric hj
  | float y =>
    obtain rfl := Except.ok.inj h
    exact hj
  | _ => cases h

theorem readChannel_channelJson (n : UInt8) : readChannel (channelJson n) = .ok n := by
  have hlt := n.toNat_lt
  rw [channelJson, readChannel, if_pos (by omega), Int.toNat_natCast, UInt8.ofNat_toNat]

theorem readPoint_doubleJson (p : Point) :
    readPoint [doubleJson p.x, doubleJson p.y] = .ok p ↔ p.isFinite = true := by
  rw [readPoint, Point.isFinite, Bool.and_eq_true]
  simp only [bind_eq_ok_iff, readNumber_doubleJson]
  constructor
  · rintro ⟨_, ⟨hx, rfl⟩, _, ⟨hy, rfl⟩, -⟩
    exact ⟨hx, hy⟩
  · rintro ⟨hx, hy⟩
    exact ⟨p.x, ⟨hx, rfl⟩, p.y, ⟨hy, rfl⟩, rfl⟩

theorem readRect_doubleJson (r : Rect) :
    readRect [doubleJson r.x, doubleJson r.y, doubleJson r.w, doubleJson r.h] = .ok r ↔
      r.isFinite = true := by
  rw [readRect, Rect.isFinite]
  simp only [bind_eq_ok_iff, readNumber_doubleJson, Bool.and_eq_true]
  constructor
  · rintro ⟨_, ⟨hx, rfl⟩, _, ⟨hy, rfl⟩, _, ⟨hw, rfl⟩, _, ⟨hh, rfl⟩, -⟩
    exact ⟨⟨⟨hx, hy⟩, hw⟩, hh⟩
  · rintro ⟨⟨⟨hx, hy⟩, hw⟩, hh⟩
    exact ⟨r.x, ⟨hx, rfl⟩, r.y, ⟨hy, rfl⟩, r.w, ⟨hw, rfl⟩, r.h, ⟨hh, rfl⟩, rfl⟩

theorem readColor_channelJson (c : Color) :
    readColor [channelJson c.r, channelJson c.g, channelJson c.b, channelJson c.a] = .ok c := by
  rw [readColor, readChannel_channelJson, readChannel_channelJson, readChannel_channelJson,
    readChannel_channelJson]
  rfl

theorem isFinite_of_readPoint {js : List Json} {p : Point} (hjs : Json.areNumeric js = true)
    (h : readPoint js = .ok p) : p.isFinite = true := by
  match js with
  | [x, y] =>
    simp only [Json.areNumeric, Bool.and_eq_true] at hjs
    obtain ⟨px, hx, h⟩ := bind_eq_ok_iff.mp h
    obtain ⟨py, hy, h⟩ := bind_eq_ok_iff.mp h
    obtain rfl := Except.ok.inj h
    rw [Point.isFinite, isFinite_of_readNumber hjs.1 hx, isFinite_of_readNumber hjs.2.1 hy]
    rfl
  | [] | [_] | _ :: _ :: _ :: _ => cases h

theorem isFinite_of_readRect {js : List Json} {r : Rect} (hjs : Json.areNumeric js = true)
    (h : readRect js = .ok r) : r.isFinite = true := by
  match js with
  | [x, y, w, h'] =>
    simp only [Json.areNumeric, Bool.and_eq_true] at hjs
    obtain ⟨rx, hx, h⟩ := bind_eq_ok_iff.mp h
    obtain ⟨ry, hy, h⟩ := bind_eq_ok_iff.mp h
    obtain ⟨rw', hw, h⟩ := bind_eq_ok_iff.mp h
    obtain ⟨rh, hh, h⟩ := bind_eq_ok_iff.mp h
    obtain rfl := Except.ok.inj h
    rw [Rect.isFinite, isFinite_of_readNumber hjs.1 hx, isFinite_of_readNumber hjs.2.1 hy,
      isFinite_of_readNumber hjs.2.2.1 hw, isFinite_of_readNumber hjs.2.2.2.1 hh]
    rfl
  | [] | [_] | [_, _] | [_, _, _] | _ :: _ :: _ :: _ :: _ :: _ => cases h

namespace Value

theorem ofInt_eq_int_iff {n : Int} : ofInt n = int n ↔ IntRange.i64.contains n = true := by
  rw [contains_i64_iff, ofInt]
  split
  · next h => exact ⟨fun _ => h, fun _ => rfl⟩
  · next h => exact ⟨fun hn => by simp at hn, fun hn => absurd hn h⟩

theorem isEncodable_ofInt {n : Int} (h : (Json.int n).isNumeric = true) :
    (ofInt n).isEncodable = true := by
  rw [ofInt]
  split
  · next hn => exact contains_i64_iff.mpr hn
  · exact isFinite_doubleOfInt_of_isNumeric h

theorem ofJson_tagged_color (items : List Json) :
    ofJson (tagged "Color" items) = (readColor items).map color := by
  rw [tagged, ofJson]

/-! ### Nested values -/

mutual

/-- A value comes back from its JSON exactly if JSON keeps all its numbers. -/
theorem ofJson_toJson_iff : (v : Value) → (ofJson v.toJson = .ok v ↔ v.isEncodable = true)
  | null | bool _ | str _ | ref _ => iff_of_true rfl rfl
  | int n => by
    rw [isEncodable, ← ofInt_eq_int_iff]
    exact ⟨Except.ok.inj, congrArg Except.ok⟩
  | float x => by
    rw [isEncodable, toJson, doubleJson]
    split
    · next h => exact iff_of_true rfl h
    · next h => exact iff_of_false (fun hnull => by cases hnull) h
  | list items | tuple items | set items => by
    -- the name that comes first chooses the reader, whatever strings the items begin with
    rw [isEncodable, ← ofItems_itemsToJson_iff items]
    exact map_eq_ok_iff.trans (by simp)
  | map entries => by
    rw [isEncodable, ← ofEntries_entriesToJson_iff entries]
    exact map_eq_ok_iff.trans (by simp)
  | point p => by
    rw [isEncodable, ← readPoint_doubleJson p]
    exact map_eq_ok_iff.trans (by simp)
  | rect r => by
    rw [isEncodable, ← readRect_doubleJson r]
    exact map_eq_ok_iff.trans (by simp)
  | color c => by
    refine iff_of_true ?_ rfl
    rw [toJson, ofJson_tagged_color, readColor_channelJson]
    rfl

/-- The items of a container. -/
theorem ofItems_itemsToJson_iff :
    (vs : List Value) → (ofItems (itemsToJson vs) = .ok vs ↔ areEncodable vs = true)
  | [] => iff_of_true rfl rfl
  | v :: vs => by
    rw [areEncodable, Bool.and_eq_true, ← ofJson_toJson_iff v, ← ofItems_itemsToJson_iff vs]
    refine bind_eq_ok_iff.trans ?_
    simp [bind_eq_ok_iff]

/-- The entries of a map. -/
theorem ofEntries_entriesToJson_iff : (entries : List (Value × Value)) →
    (ofEntries (entriesToJson entries) = .ok entries ↔ areEncodableEntries entries = true)
  | [] => iff_of_true rfl rfl
  | (k, v) :: rest => by
    rw [areEncodableEntries, Bool.and_eq_true, Bool.and_eq_true, ← ofJson_toJson_iff k,
      ← ofJson_toJson_iff v, ← ofEntries_entriesToJson_iff rest]
    refine bind_eq_ok_iff.trans ?_
    simp [bind_eq_ok_iff, and_assoc]

end

/-- An array that begins with the name of a form stands for a value of this form. -/
theorem ofJson_tagged_cases {tag : String} {items : List Json} {v : Value}
    (h : ofJson (tagged tag items) = .ok v) :
    (∃ vs, ofItems items = .ok vs ∧ (v = list vs ∨ v = tuple vs ∨ v = set vs)) ∨
      (∃ entries, ofEntries items = .ok entries ∧ v = map entries) ∨
        (∃ p, readPoint items = .ok p ∧ v = point p) ∨
          (∃ r, readRect items = .ok r ∧ v = rect r) ∨ (∃ c, v = color c) ∨ ∃ key, v = ref key := by
  unfold tagged ofJson at h
  split at h
  · obtain ⟨vs, hvs, rfl⟩ := map_eq_ok_iff.mp h
    exact .inl ⟨vs, hvs, .inl rfl⟩
  · obtain ⟨vs, hvs, rfl⟩ := map_eq_ok_iff.mp h
    exact .inl ⟨vs, hvs, .inr (.inl rfl)⟩
  · obtain ⟨vs, hvs, rfl⟩ := map_eq_ok_iff.mp h
    exact .inl ⟨vs, hvs, .inr (.inr rfl)⟩
  · obtain ⟨entries, hentries, rfl⟩ := map_eq_ok_iff.mp h
    exact .inr (.inl ⟨entries, hentries, rfl⟩)
  · obtain ⟨p, hp, rfl⟩ := map_eq_ok_iff.mp h
    exact .inr (.inr (.inl ⟨p, hp, rfl⟩))
  · obtain ⟨r, hr, rfl⟩ := map_eq_ok_iff.mp h
    exact .inr (.inr (.inr (.inl ⟨r, hr, rfl⟩)))
  · obtain ⟨c, -, rfl⟩ := map_eq_ok_iff.mp h
    exact .inr (.inr (.inr (.inr (.inl ⟨c, rfl⟩))))
  · obtain ⟨key, -, rfl⟩ := map_eq_ok_iff.mp h
    exact .inr (.inr (.inr (.inr (.inr ⟨key, rfl⟩))))
  · cases h

mutual

/-- What JSON stands for keeps its numbers in JSON. -/
theorem isEncodable_of_ofJson (j : Json) (hj : j.isNumeric = true) (v : Value)
    (h : ofJson j = .ok v) : v.isEncodable = true := by
  match j with
  | .null | .bool _ | .str _ =>
    obtain rfl := Except.ok.inj h
    rfl
  | .int _ =>
    -- an integer beyond 63 bits is read as a double
    obtain rfl := Except.ok.inj h
    exact isEncodable_ofInt hj
  | .float _ =>
    obtain rfl := Except.ok.inj h
    exact hj
  | .arr (.str tag :: items) =>
    have hitems : Json.areNumeric items = true := hj
    rcases ofJson_tagged_cases h with ⟨vs, hvs, rfl | rfl | rfl⟩ | ⟨entries, hentries, rfl⟩ |
      ⟨p, hp, rfl⟩ | ⟨r, hr, rfl⟩ | ⟨c, rfl⟩ | ⟨key, rfl⟩
    · exact areEncodable_of_ofItems items hitems vs hvs
    · exact areEncodable_of_ofItems items hitems vs hvs
    · exact areEncodable_of_ofItems items hitems vs hvs
    · exact areEncodableEntries_of_ofEntries items hitems entries hentries
    · exact isFinite_of_readPoint hitems hp
    · exact isFinite_of_readRect hitems hr
    · rfl
    · rfl
  | .obj _ | .arr [] | .arr (.null :: _) | .arr (.bool _ :: _) | .arr (.int _ :: _) |
    .arr (.float _ :: _) | .arr (.arr _ :: _) | .arr (.obj _ :: _) => cases h

/-- The items of an array. -/
theorem areEncodable_of_ofItems : (js : List Json) → Json.areNumeric js = true → (vs : List Value) →
    ofItems js = .ok vs → areEncodable vs = true
  | [], _, _, rfl => rfl
  | j :: js, hjs, vs, h => by
    rw [Json.areNumeric, Bool.and_eq_true] at hjs
    obtain ⟨v, hv, h⟩ := bind_eq_ok_iff.mp h
    obtain ⟨vs, hvs, h⟩ := bind_eq_ok_iff.mp h
    obtain rfl := Except.ok.inj h
    rw [areEncodable, isEncodable_of_ofJson j hjs.1 v hv, areEncodable_of_ofItems js hjs.2 vs hvs]
    rfl

/-- Pairs of values. -/
theorem areEncodableEntries_of_ofEntries (js : List Json) (hjs : Json.areNumeric js = true)
    (entries : List (Value × Value)) (h : ofEntries js = .ok entries) :
    areEncodableEntries entries = true := by
  match js with
  | [] =>
    obtain rfl := Except.ok.inj h
    rfl
  | .arr [k, v] :: js =>
    simp only [Json.areNumeric, Json.isNumeric, Bool.and_eq_true] at hjs
    obtain ⟨⟨hk, hv, -⟩, hjs⟩ := hjs
    obtain ⟨k', hk', h⟩ := bind_eq_ok_iff.mp h
    obtain ⟨v', hv', h⟩ := bind_eq_ok_iff.mp h
    obtain ⟨rest, hrest, h⟩ := bind_eq_ok_iff.mp h
    obtain rfl := Except.ok.inj h
    rw [areEncodableEntries, isEncodable_of_ofJson k hk k' hk', isEncodable_of_ofJson v hv v' hv',
      areEncodableEntries_of_ofEntries js hjs rest hrest]
    rfl
  | .null :: _ | .bool _ :: _ | .int _ :: _ | .float _ :: _ | .str _ :: _ | .obj _ :: _ |
    .arr [] :: _ | .arr [_] :: _ | .arr (_ :: _ :: _ :: _) :: _ => cases h

end

/-- **Which values survive their encoding.** A value comes back from its JSON exactly if its
integers are words and its doubles are finite; of such values no two have the same JSON. Whatever
value JSON stands for comes back from the JSON that is written for it. -/
theorem survives :
    (∀ v : Value, ofJson v.toJson = .ok v ↔ v.isEncodable = true) ∧
    (∀ v w : Value, v.isEncodable = true → w.isEncodable = true → v.toJson = w.toJson → v = w) ∧
    ∀ (j : Json) (v : Value), j.isNumeric = true → ofJson j = .ok v → ofJson v.toJson = .ok v := by
  refine ⟨ofJson_toJson_iff, fun v w hv hw h => ?_, fun j v hj h => ?_⟩
  · have hv' := (ofJson_toJson_iff v).mpr hv
    rw [h, (ofJson_toJson_iff w).mpr hw] at hv'
    exact (Except.ok.inj hv').symm
  · exact (ofJson_toJson_iff v).mpr (isEncodable_of_ofJson j hj v h)

/-- A map whose key is a list that looks like a reference, with an integer beyond 63 bits and a
point with integers as coordinates. -/
theorem survives_nested :
    let j := tagged "map" [.arr [tagged "list" [.str "ref", .str "Feature1"],
      tagged "tuple" [.int (2 ^ 63), tagged "Point" [.int 1, .int (-2)], tagged "set" []]]]
    let v := map [(list [str "ref", str "Feature1"],
      tuple [float (doubleOfInt (2 ^ 63)), point ⟨doubleOfInt 1, doubleOfInt (-2)⟩, set []])]
    ofJson j = .ok v ∧ v.isEncodable = true ∧ ofJson v.toJson = .ok v ∧
      (ref "Feature1").toJson ≠ (list [str "ref", str "Feature1"]).toJson := by
  intro j v
  have h : ofJson j = .ok v := rfl
  have hv : ofJson v.toJson = .ok v := survives.2.2 j v rfl h
  refine ⟨h, (survives.1 v).mp hv, hv, fun heq => ?_⟩
  have := survives.2.1 _ _ rfl rfl heq
  cases this

end Value
end MinimalistGrammar
