import MinimalistGrammar.Beam.NodeRecord

/-!
# Derivations as trees

The records of a parse, put together by their paths, are a tree in which a node has up to two parts.

## Main definitions

* `RecordTree` — a derivation as a tree of records.
* `preferred` — which of several records for one path counts.
* `RecordTree.ofRecords` — the tree of the records that hang together from the root.
-/

namespace MinimalistGrammar

/-- A derivation as a tree. -/
inductive RecordTree
  | leaf (r : NodeRecord)
  /-- The part is on one side or the other, and nothing is on the opposite side. -/
  | unary (r : NodeRecord) (side : Branch) (part : RecordTree)
  | binary (r : NodeRecord) (left right : RecordTree)
deriving DecidableEq, Repr

namespace RecordTree

/-- The record at the root. -/
def record : RecordTree → NodeRecord
  | leaf r => r
  | unary r _ _ => r
  | binary r _ _ => r

/-- How many nodes there are. -/
def size : RecordTree → Nat
  | leaf _ => 1
  | unary _ _ part => part.size + 1
  | binary _ left right => left.size + right.size + 1

end RecordTree

/-- Of several records for one path, the last one with a word counts, or the last one if none has a
word. -/
def preferred (rs : List NodeRecord) : Option NodeRecord :=
  (rs.reverse.find? (·.label.isSome)).or rs.getLast?

/-- A record, with the way that is left from some node down to it. -/
abbrev Placed := List Branch × NodeRecord

/-- The records below a node on one side, as seen from the part on that side. -/
def belowOn (side : Branch) (rs : List Placed) : List Placed :=
  rs.filterMap fun (way, r) =>
    match way with
    | [] => none
    | b :: rest => if b = side then some (rest, r) else none

/-- The records of the node itself. -/
def atNode (rs : List Placed) : List NodeRecord :=
  rs.filterMap fun (way, r) => if way.isEmpty then some r else none

/-- The number of steps down to all records, counting one for each record. -/
def totalWay : List Placed → Nat
  | [] => 0
  | (way, _) :: rs => way.length + 1 + totalWay rs

theorem totalWay_belowOn (side : Branch) (rs : List Placed) :
    totalWay (belowOn side rs) + rs.length ≤ totalWay rs := by
  induction rs with
  | nil => simp [totalWay, belowOn]
  | cons p rs ih =>
    obtain ⟨way, r⟩ := p
    simp only [belowOn] at ih
    cases way with
    | nil =>
      simp only [totalWay, belowOn, List.filterMap_cons, List.length_cons, List.length_nil]
      omega
    | cons b rest =>
      by_cases hb : b = side <;>
        simp only [totalWay, belowOn, List.filterMap_cons, hb, if_true, if_false,
          List.length_cons] <;> omega

theorem totalWay_belowOn_lt {side : Branch} {rs : List Placed} (h : preferred (atNode rs) ≠ none) :
    totalWay (belowOn side rs) < totalWay rs := by
  have hle := totalWay_belowOn side rs
  have hpos : 0 < rs.length := by
    cases rs with
    | nil => exact absurd rfl h
    | cons p rs => exact Nat.succ_pos _
  omega

namespace RecordTree

/-- The tree of the records that hang together from a node. -/
def ofPlaced (rs : List Placed) : Option RecordTree :=
  match _h : preferred (atNode rs) with
  | none => none
  | some r =>
    some <|
      match ofPlaced (belowOn .left rs), ofPlaced (belowOn .right rs) with
      | none, none => leaf r
      | some part, none => unary r .left part
      | none, some part => unary r .right part
      | some left, some right => binary r left right
termination_by totalWay rs
decreasing_by
  · exact totalWay_belowOn_lt (by simp [_h])
  · exact totalWay_belowOn_lt (by simp [_h])

/-- The tree of the records that hang together from the root, if there is a record for the root. -/
def ofRecords (records : List NodeRecord) : Option RecordTree :=
  ofPlaced (records.map fun r => (r.path.branches, r))

end RecordTree
end MinimalistGrammar
