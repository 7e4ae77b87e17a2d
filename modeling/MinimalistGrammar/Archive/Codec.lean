import MinimalistGrammar.Archive.ObjectKey
import MinimalistGrammar.Derivation.State
import MinimalistGrammar.Tree.Constituent

/-!
# Codecs for the parts of syntax trees

## Main definitions

* `Codec.sign`, `Codec.stateType`, `Codec.head` — signs by their symbols, types by their numbers,
  and heads as one reference or a pair of them.
* `Attribute.store`, `Attribute.restore`, `Codec.attribute` — annotations. What is computed on
  demand or foreign cannot be kept.
-/

namespace MinimalistGrammar

/-- Signs, by their symbols. -/
def Codec.sign : Codec Sign where
  store _ s := .ok (.str s.symbol)
  restore path v := expecting path "a feature sign" (v.str?.bind Sign.ofSymbol?)

/-- Types of states, by their numbers. -/
def Codec.stateType : Codec StateType where
  store _ t := .ok (.int t.code)
  restore path v :=
    expecting path "a state type"
      ((v.int?.filter IntRange.u8.contains).bind fun n => StateType.ofCode? n.toNat)

/-- Pairs of nodes. -/
def Codec.constituentPair : Codec (ConstituentId × ConstituentId) :=
  .pair (.ident .constituent) (.ident .constituent)

/-- Heads: a reference for one part, a pair of references for two. -/
def Codec.head : Codec Head where
  store path head :=
    match head with
    | .single a => (Codec.ident .constituent).store path a
    | .shared a b => Codec.constituentPair.store path (a, b)
  restore path v :=
    match v with
    | .ref _ => ((Codec.ident .constituent).restore path v).map .single
    | .tuple _ => (Codec.constituentPair.restore path v).map fun p => .shared p.1 p.2
    | _ => .error (.typeMismatch path "a head")

namespace Attribute

mutual

/-- The value of the annotation at a path. -/
def store (path : String) : Attribute → Except SaveError Value
  | null => .ok .null
  | bool b => .ok (.bool b)
  | int n => .ok (.int n)
  | float x => Codec.float.store path x
  | str s => .ok (.str s)
  | list items => (storeItems path 0 items).map .list
  | tuple items => (storeItems path 0 items).map .tuple
  | set items => (storeItems path 0 items).map .set
  | map entries => (storeEntries path entries).map .map
  | point p => Codec.point.store path p
  | rect r => Codec.rect.store path r
  | color c => .ok (.color c)
  | node id => (Codec.ident .constituent).store path id
  | computed _ => .error (.forbidden path)
  | foreign typeName _ => .error (.unknownType path typeName)

/-- The values of some items, the first of which has number `i`. -/
def storeItems (path : String) (i : Nat) : List Attribute → Except SaveError (List Value)
  | [] => .ok []
  | a :: as => do
    let v ← a.store (itemPath path i)
    let vs ← storeItems path (i + 1) as
    return v :: vs

/-- The entries of a map. -/
def storeEntries (path : String) :
    List (String × Attribute) → Except SaveError (List (Value × Value))
  | [] => .ok []
  | (key, a) :: rest => do
    let v ← a.store (entryPath path (.str key))
    let rest ← storeEntries path rest
    return (.str key, v) :: rest

end

mutual

/-- The annotation of the value at a path. -/
def restore (path : String) : Value → Except LoadError Attribute
  | .null => .ok null
  | .bool b => .ok (bool b)
  | .int n => .ok (int n)
  | .float x => .ok (float x)
  | .str s => .ok (str s)
  | .list items => (restoreItems path 0 items).map list
  | .tuple items => (restoreItems path 0 items).map tuple
  | .set items => (restoreItems path 0 items).map set
  | .map entries => (restoreEntries path entries).map ofEntries
  | .point p => .ok (point p)
  | .rect r => .ok (rect r)
  | .color c => .ok (color c)
  | .ref key => ((Codec.ident .constituent).restore path (.ref key)).map node

/-- The annotations of some items, the first of which has number `i`. -/
def restoreItems (path : String) (i : Nat) : List Value → Except LoadError (List Attribute)
  | [] => .ok []
  | v :: vs => do
    let a ← restore (itemPath path i) v
    let as ← restoreItems path (i + 1) vs
    return a :: as

/-- The entries of a map. -/
def restoreEntries (path : String) :
    List (Value × Value) → Except LoadError (List (String × Attribute))
  | [] => .ok []
  | (k, v) :: rest => do
    let key ← Codec.string.restore (entryPath path k) k
    let a ← restore (entryPath path k) v
    let rest ← restoreEntries path rest
    return (key, a) :: rest

end

end Attribute

/-- Annotations. -/
def Codec.attribute : Codec Attribute where
  store := Attribute.store
  restore := Attribute.restore

end MinimalistGrammar
