import MinimalistGrammar.Words

/-!
# Bracketings

A bracketing is a tree given by its brackets and words, with a label on some of the brackets. Two
bracketings have the same shape if they differ only in labels, silent words and brackets around
nothing or around a single part.

## Main definitions

* `Bracketing` — words and labelled nodes.
* `Bracketing.yield` — the words that are not silent, left to right.
* `Bracketing.text` — a bracketing as written.
* `Shape`, `Bracketing.shape` — the tree without labels, silent words and needless brackets.
-/

namespace MinimalistGrammar

/-- A tree given by its brackets. -/
inductive Bracketing
  | word (w : String)
  | node (label : Option String) (parts : List Bracketing)
deriving Repr

namespace Bracketing

mutual

/-- The words that are not silent, left to right. -/
def yield : Bracketing → List String
  | word w => if isSilent w then [] else [w]
  | node _ parts => yieldParts parts

/-- The words of the parts of a node. -/
def yieldParts : List Bracketing → List String
  | [] => []
  | p :: ps => p.yield ++ yieldParts ps

end

/-- What stands between a bracket with a given label and the first part. -/
def opening (label : Option String) (parts : List Bracketing) : String :=
  match label with
  | none => "["
  | some l => if parts.isEmpty then "[." ++ l else "[." ++ l ++ " "

mutual

/-- A bracketing as written: a space between parts and after a label. -/
def text : Bracketing → String
  | word w => w
  | node label parts => opening label parts ++ textParts parts ++ "]"

/-- The parts of a node, with a space between them. -/
def textParts : List Bracketing → String
  | [] => ""
  | [p] => p.text
  | p :: q :: ps => p.text ++ " " ++ textParts (q :: ps)

end
end Bracketing

/-! ### Shapes -/

/-- A tree without labels, silent words and needless brackets. -/
inductive Shape
  | word (w : String)
  | node (parts : List Shape)
deriving Repr

namespace Shape

mutual

/-- Whether two shapes are the same. -/
def same : Shape → Shape → Bool
  | word v, word w => v == w
  | node ps, node qs => sameParts ps qs
  | _, _ => false

/-- Whether the shapes on two lists are the same, one by one. -/
def sameParts : List Shape → List Shape → Bool
  | [], [] => true
  | p :: ps, q :: qs => p.same q && sameParts ps qs
  | _, _ => false

end

mutual

theorem same_iff (p q : Shape) : p.same q = true ↔ p = q := by
  cases p with
  | word v => cases q <;> simp [same]
  | node ps =>
    cases q with
    | word w => simp [same]
    | node qs => rw [same, sameParts_iff, node.injEq]

theorem sameParts_iff (ps qs : List Shape) : sameParts ps qs = true ↔ ps = qs := by
  cases ps with
  | nil => cases qs <;> simp [sameParts]
  | cons p ps =>
    cases qs with
    | nil => simp [sameParts]
    | cons q qs => rw [sameParts, Bool.and_eq_true, same_iff, sameParts_iff, List.cons.injEq]

end

instance : DecidableEq Shape := fun p q => decidable_of_iff _ (same_iff p q)

/-- The shape around some parts: nothing around no part, and no bracket around a single one. -/
def around : List Shape → Option Shape
  | [] => none
  | [p] => some p
  | p :: q :: ps => some (node (p :: q :: ps))

/-- The shape of a word that is written with blanks: its tokens side by side. -/
def ofWord (w : String) : Option Shape := around ((tokens w).map word)

end Shape

namespace Bracketing

mutual

/-- The shape of a bracketing; a bracketing without words has none. -/
def shape : Bracketing → Option Shape
  | word w => Shape.ofWord w
  | node _ parts => Shape.around (shapes parts)

/-- The shapes of the parts that have one. -/
def shapes : List Bracketing → List Shape
  | [] => []
  | p :: ps => p.shape.toList ++ shapes ps

end
end Bracketing
end MinimalistGrammar
