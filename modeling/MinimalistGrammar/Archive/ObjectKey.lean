import MinimalistGrammar.Decimal.Natural
import MinimalistGrammar.Ident
import MinimalistGrammar.Snapshot.Codec

/-!
# Keys of objects

In a snapshot every object has a key: the name of its class with its number behind it. A derivation
tree, of which there is one, has no number.

## Main definitions

* `Kind.className`, `treeClass` — the names of the classes.
* `Ident.key`, `Ident.ofKey?` — identifiers as keys.
* `ObjectKey` — what a key can name.
* `Codec.ident` — identifiers as references.

## Main results

* `ObjectKey.read?_text` — a key names the object that it was written for.
-/

namespace MinimalistGrammar

/-- The class of derivation trees. -/
def treeClass : String := "DerivationTree"

/-- The class of the objects of a kind. -/
def Kind.className : Kind → String
  | .state => "SyntaxState"
  | .constituent => "Constituent"
  | .feature => "Feature"
  | .group => "Group"

/-- All kinds. -/
def Kind.all : List Kind := [.state, .constituent, .feature, .group]

namespace Ident

variable {k : Kind}

/-- The key of an object. -/
def key (id : Ident k) : String := k.className ++ toString id.index

/-- The numbers of objects in a snapshot are below this bound. -/
def bound : Nat := pow2 32

/-- Whether an object can be in a snapshot. -/
def fits (id : Ident k) : Bool := id.index < bound

/-- What is left of a text behind `part`. -/
def rest? (part s : List Char) : Option (List Char) :=
  if part.isPrefixOf s then some (s.drop part.length) else none

/-- The object of kind `k` that a key names, with a number of any size. -/
def read? (k : Kind) (key : String) : Option (Ident k) := do
  let digits ← rest? k.className.toList key.toList
  let n ← Decimal.readDigits? digits
  some ⟨n⟩

/-- The object of kind `k` that a key of a snapshot names. -/
def ofKey? (k : Kind) (key : String) : Option (Ident k) := (read? k key).filter fits

theorem rest?_append (part s : List Char) : rest? part (part ++ s) = some s := by
  rw [rest?, if_pos (List.isPrefixOf_iff_prefix.mpr (List.prefix_append part s)),
    List.drop_left]

theorem toList_key (id : Ident k) :
    id.key.toList = k.className.toList ++ Nat.toDigits 10 id.index := by
  rw [key, String.toList_append]
  exact congrArg _ String.toList_ofList

@[simp] theorem read?_key (id : Ident k) : read? k id.key = some id := by
  rw [read?, toList_key, rest?_append]
  simp

/-- The classes begin with different letters. -/
theorem rest?_className_of_ne {k' : Kind} (h : k' ≠ k) (s : List Char) :
    rest? k'.className.toList (k.className.toList ++ s) = none := by
  cases k <;> cases k' <;> first | exact absurd rfl h | rfl

theorem read?_key_of_ne {k' : Kind} (id : Ident k) (h : k' ≠ k) : read? k' id.key = none := by
  rw [read?, toList_key, rest?_className_of_ne h]
  rfl

/-- The class of the tree begins with a letter of its own. -/
theorem className_append_ne (k : Kind) (s : String) : k.className ++ s ≠ treeClass := by
  intro h
  have hlist := congrArg String.toList h
  rw [String.toList_append] at hlist
  cases k <;> exact absurd (Option.some.inj (congrArg List.head? hlist)) (by decide)

/-- No key of an object is that of the tree. -/
theorem key_ne_treeClass (id : Ident k) : id.key ≠ treeClass := className_append_ne k _

end Ident

/-- What a key can name. -/
inductive ObjectKey
  | tree
  | object {k : Kind} (id : Ident k)

namespace ObjectKey

/-- The class of the object. -/
def className : ObjectKey → String
  | tree => treeClass
  | object (k := k) _ => k.className

/-- A key as written. -/
def text : ObjectKey → String
  | tree => treeClass
  | object id => id.key

/-- Whether an object can be in a snapshot. -/
def fits : ObjectKey → Bool
  | tree => true
  | object id => id.fits

/-- Reads a key with a number of any size. -/
def read? (key : String) : Option ObjectKey :=
  if key == treeClass then some tree
  else Kind.all.findSome? fun k => (Ident.read? k key).map fun id => object id

/-- Reads a key of a snapshot. -/
def parse? (key : String) : Option ObjectKey := (read? key).filter fits

/-- A key names the object that it was written for. -/
@[simp] theorem read?_text (key : ObjectKey) : read? key.text = some key := by
  cases key with
  | tree => rfl
  | @object k id =>
    rw [text, read?, if_neg (by simpa using id.key_ne_treeClass)]
    cases k <;> simp [Kind.all, Ident.read?_key_of_ne]

theorem eq_of_text_eq (key key' : ObjectKey) (h : key.text = key'.text) : key = key' :=
  Option.some.inj ((read?_text key).symm.trans ((congrArg read? h).trans (read?_text key')))

/-- Only one key names the tree. -/
theorem eq_treeClass_of_read? {s : String} (h : read? s = some tree) : s = treeClass := by
  rw [read?] at h
  split at h
  · next hs => exact eq_of_beq hs
  · obtain ⟨k, -, hk⟩ := List.exists_of_findSome?_eq_some h
    obtain ⟨id, -, hid⟩ := Option.map_eq_some_iff.mp hk
    exact absurd hid (by simp)

theorem fits_of_parse? {s : String} {key : ObjectKey} (h : parse? s = some key) :
    key.fits = true :=
  (Option.filter_eq_some_iff.mp h).2

/-- A key of a snapshot names the object that it was written for. -/
theorem parse?_text {key : ObjectKey} (h : key.fits = true) : parse? key.text = some key := by
  rw [parse?, read?_text]
  exact Option.filter_some_pos h

end ObjectKey

/-- Identifiers of a kind, as references. -/
def Codec.ident (k : Kind) : Codec (Ident k) where
  store _ id := .ok (.ref id.key)
  restore path v :=
    expecting path ("a reference to a " ++ k.className) (v.ref?.bind (Ident.ofKey? k))

end MinimalistGrammar
