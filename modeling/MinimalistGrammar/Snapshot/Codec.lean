import MinimalistGrammar.Decimal.Power
import MinimalistGrammar.Dict
import MinimalistGrammar.Snapshot.Error
import MinimalistGrammar.Snapshot.Value.Json

/-!
# Codecs

A codec turns data of some type into snapshot values and back. Both directions are told the path of
the value, which they name when something is wrong.

## Main definitions

* `Codec` — the two directions.
* `Codec.bool`, `Codec.string`, `Codec.float`, `Codec.int` — single values.
* `Codec.option`, `Codec.list`, `Codec.set`, `Codec.map`, `Codec.pair` — containers.
* `Codec.point`, `Codec.rect`, `Codec.color` — values for those who draw a tree.
-/

namespace MinimalistGrammar

/-- How data of a type are kept in snapshots. -/
structure Codec (α : Type) where
  /-- The value at a path that stands for some data. -/
  store (path : String) (a : α) : Except SaveError Value
  /-- The data for which the value at a path stands. -/
  restore (path : String) (v : Value) : Except LoadError α

/-- The data of a value, or the form that was expected at its path. -/
def expecting {α : Type} (path expected : String) (a : Option α) : Except LoadError α :=
  match a with
  | some a => .ok a
  | none => .error (.typeMismatch path expected)

namespace Codec

variable {α β κ : Type}

/-! ### Single values -/

/-- Values as they are. -/
def value : Codec Value where
  store _ v := .ok v
  restore _ v := .ok v

/-- Truth values. -/
def bool : Codec Bool where
  store _ b := .ok (.bool b)
  restore path v := expecting path "a bool" v.bool?

/-- Strings. -/
def string : Codec String where
  store _ s := .ok (.str s)
  restore path v := expecting path "a string" v.str?

end Codec

/-- A range of integers, with its name. -/
structure IntRange where
  name : String
  least : Int
  greatest : Int

namespace IntRange

/-- Whether an integer is in a range. -/
def contains (r : IntRange) (n : Int) : Bool := r.least ≤ n && n ≤ r.greatest

/-- The numbers of some bits. -/
def unsigned (name : String) (bits : Nat) : IntRange := ⟨name, 0, (pow2 bits : Int) - 1⟩

/-- The numbers of some bits and a sign. -/
def signed (name : String) (bits : Nat) : IntRange :=
  ⟨name, -(pow2 bits : Int), (pow2 bits : Int) - 1⟩

def u8 : IntRange := unsigned "u8" 8
def u32 : IntRange := unsigned "u32" 32
def u64 : IntRange := unsigned "u64" 64
def usize : IntRange := unsigned "usize" 64
def i32 : IntRange := signed "i32" 31
def i64 : IntRange := signed "i64" 63

end IntRange

namespace Codec

variable {α β κ : Type}

/-- Integers of a range. They are kept as signed 64-bit words, so the upper half of `u64` comes out
negative and does not come back. -/
def int (r : IntRange) : Codec Int where
  store _ n := .ok (.int (n.bmod (pow2 64)))
  restore path v := expecting path r.name (v.int?.filter r.contains)

/-- Numbers of 32 bits. -/
def number : Codec Nat where
  store _ n := .ok (.int n)
  restore path v := expecting path "u32" ((v.int?.filter IntRange.u32.contains).map Int.toNat)

/-- A double that has a JSON number. -/
def finite (path : String) (x : Float) : Except SaveError Unit :=
  if x.isFinite then .ok () else .error (.notFinite path x)

/-- Finite doubles. Integers are widened when they are read. -/
def float : Codec Float where
  store path x := (finite path x).map fun _ => .float x
  restore path v := expecting path "a number" v.float?

/-- Points with finite coordinates. -/
def point : Codec Point where
  store path p := do
    finite path p.x
    finite path p.y
    return .point p
  restore path v := expecting path "a Point" (match v with | .point p => some p | _ => none)

/-- Rectangles with finite corners and sizes. -/
def rect : Codec Rect where
  store path r := do
    finite path r.x
    finite path r.y
    finite path r.w
    finite path r.h
    return .rect r
  restore path v := expecting path "a Rect" (match v with | .rect r => some r | _ => none)

/-- Colours. -/
def color : Codec Color where
  store _ c := .ok (.color c)
  restore path v := expecting path "a Color" (match v with | .color c => some c | _ => none)

/-! ### Containers -/

/-- Data that may be missing. -/
def option (c : Codec α) : Codec (Option α) where
  store path a :=
    match a with
    | none => .ok .null
    | some a => c.store path a
  restore path v :=
    match v with
    | .null => .ok none
    | v => (c.restore path v).map some

/-- Stores items, the first of which has number `i`. -/
def storeItems (c : Codec α) (path : String) (i : Nat) : List α → Except SaveError (List Value)
  | [] => .ok []
  | a :: as => do
    let v ← c.store (itemPath path i) a
    let vs ← c.storeItems path (i + 1) as
    return v :: vs

/-- Restores items, the first of which has number `i`. -/
def restoreItems (c : Codec α) (path : String) (i : Nat) : List Value → Except LoadError (List α)
  | [] => .ok []
  | v :: vs => do
    let a ← c.restore (itemPath path i) v
    let as ← c.restoreItems path (i + 1) vs
    return a :: as

/-- The items of a list, a tuple or a set. -/
def restoreSequence (c : Codec α) (path : String) (v : Value) : Except LoadError (List α) := do
  c.restoreItems path 0 (← expecting path "a sequence" v.items?)

/-- Lists. Tuples and sets are read as lists as well. -/
def list (c : Codec α) : Codec (List α) where
  store path as := (c.storeItems path 0 as).map .list
  restore := c.restoreSequence

/-- Sets, in order and without repetition. Lists and tuples are read as sets as well. -/
def set [Ord α] [Std.TransOrd α] (c : Codec α) : Codec (Dict α Unit) where
  store path as := (c.storeItems path 0 as.keys).map .set
  restore path v := (c.restoreSequence path v).map fun as => Dict.ofList (as.map fun a => (a, ()))

/-- Stores entries of a map, the first of which has number `i`. -/
def storeEntries (key : Codec κ) (c : Codec α) (path : String) (i : Nat) :
    List (κ × α) → Except SaveError (List (Value × Value))
  | [] => .ok []
  | (k, a) :: rest => do
    let k ← key.store (itemPath path i) k
    let v ← c.store (entryPath path k) a
    let rest ← storeEntries key c path (i + 1) rest
    return (k, v) :: rest

/-- Restores entries of a map. -/
def restoreEntries (key : Codec κ) (c : Codec α) (path : String) :
    List (Value × Value) → Except LoadError (List (κ × α))
  | [] => .ok []
  | (k, v) :: rest => do
    let path' := entryPath path k
    let k ← key.restore path' k
    let a ← c.restore path' v
    let rest ← restoreEntries key c path rest
    return (k, a) :: rest

/-- Dictionaries. Of two entries with one key the later is read. -/
def map [Ord κ] [Std.TransOrd κ] (key : Codec κ) (c : Codec α) : Codec (Dict κ α) where
  store path d := (storeEntries key c path 0 d.entries).map .map
  restore path v := do
    let entries ← restoreEntries key c path (← expecting path "a map" v.entries?)
    return Dict.ofList entries

/-- Pairs, as tuples of two items. -/
def pair (first : Codec α) (second : Codec β) : Codec (α × β) where
  store path p := do
    let a ← first.store (itemPath path 0) p.1
    let b ← second.store (itemPath path 1) p.2
    return .tuple [a, b]
  restore path v :=
    match v with
    | .tuple [a, b] => do
      let a ← first.restore (itemPath path 0) a
      let b ← second.restore (itemPath path 1) b
      return (a, b)
    | _ => .error (.typeMismatch path "a pair")

end Codec
end MinimalistGrammar
