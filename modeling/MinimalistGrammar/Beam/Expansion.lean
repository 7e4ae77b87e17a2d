import MinimalistGrammar.Beam.Category
import MinimalistGrammar.Beam.Rule

/-!
# Expansions

An expansion is one way in which a prediction can go on: a rule, read backwards, predicts the parts
of the phrase, or a word is read.

In the derivation the selecting part of a phrase is always on the left. The index, in contrast,
tells where a phrase is pronounced: a complement to the right of its head, a specifier and a mover
to the left.

## Main definitions

* `Expansion` — new predictions, or a word.
* `Category.merge1` to `Category.move2`, `Category.scan` — the expansions by one rule.
* `Category.expansions` — all expansions of a prediction.
-/

namespace MinimalistGrammar

/-- A way in which a prediction can go on. -/
inductive Expansion
  /-- A rule predicts the parts of the phrase. -/
  | predict (rule : Rule) (parts : List Category)
  /-- A leaf of the lexicon is read, and its tokens are consumed. -/
  | scan (leaf : Nat) (category : Category) (tokens : List String)
deriving DecidableEq

namespace Expansion

/-- The rule of an expansion. -/
def rule : Expansion → Rule
  | predict rule _ => rule
  | scan .. => .scan

/-- The message for an expansion. -/
def message (lex : Lexicon) : Expansion → String
  | predict rule parts =>
    rule.operation ++ " (" ++ rule.name ++ "): " ++
      " + ".intercalate (parts.map fun c => c.describe lex)
  | scan leaf category tokens =>
    let word := if tokens.isEmpty then epsilon else (lex.word? leaf).getD epsilon
    "scan '" ++ word ++ "' for " ++ category.describe lex

end Expansion

namespace Category

variable (lex : Lexicon) (c : Category) (target : Nat) (x : String)

/-- The part that projects, with its active feature `f` below the lexicon node `target`. -/
def projecting (frontier : Frontier) (index : Address) (f : Feature)
    (movers : Dict String Mover := ∅) (moving : Dict String (List Feature) := ∅) : Category :=
  { node := target, frontier, index, movers, moving, checked := c.checked ++ [f],
    path := c.path.left }

/-- The part that does not project. -/
def selected (node : Nat) (index : Address) (checked : List Feature)
    (movers : Dict String Mover := ∅) (moving : Dict String (List Feature) := ∅) : Category :=
  { node, frontier := .all, index, movers, moving, checked, path := c.path.right }

/-! ### Phrases that stay -/

/-- A lexical head selects a complement. All movers come out of the complement. -/
def merge1 : List Expansion :=
  (lex.category? x).toList.map fun root =>
    .predict .merge1
      [c.projecting target .leaves c.index.left (.selector x),
        c.selected root c.index.right [.categorial x] c.movers c.moving]

/-- A lexical adjunct joins a phrase, whose category stays open. -/
def merge1b : List Expansion :=
  (lex.category? x).toList.map fun root =>
    .predict .merge1b
      [c.projecting target .leaves c.index.left (.adjunct x),
        c.selected root c.index.right [] c.movers c.moving]

/-- A phrase selects a specifier. All movers come out of the phrase. -/
def merge2 : List Expansion :=
  (lex.category? x).toList.map fun root =>
    .predict .merge2
      [c.projecting target .branches c.index.right (.selector x) c.movers c.moving,
        c.selected root c.index.left [.categorial x]]

/-! ### Phrases that move away -/

/-- A lexical head selects a mover as its complement. The other movers come out of it. -/
def merge3 : List Expansion :=
  c.movers.entries.flatMap fun (z, mover) =>
    (lex.childWith? mover.node (.categorial x)).toList.map fun source =>
      let (movers, moving) := c.withoutMover z
      .predict .merge3
        [c.projecting target .leaves c.index (.selector x),
          c.selected source mover.index (c.movingFeatures z ++ [.categorial x]) movers moving]

/-- A phrase selects a mover as its specifier. The other movers come out of the phrase. -/
def merge4 : List Expansion :=
  c.movers.entries.flatMap fun (z, mover) =>
    (lex.childWith? mover.node (.categorial x)).toList.map fun source =>
      let (movers, moving) := c.withoutMover z
      .predict .merge4
        [c.projecting target .branches c.index (.selector x) movers moving,
          c.selected source mover.index (c.movingFeatures z ++ [.categorial x])]

/-! ### Movement -/

/-- A licensor attracts a mover for the last time. -/
def move1 : List Expansion :=
  (lex.root? (.licensee x)).toList.map fun root =>
    let movers := c.movers.insert x { node := root, index := c.index.left }
    let moving := c.moving.insert x [.licensee x]
    .predict .move1 [c.projecting target .all c.index.right (.licensor x) movers moving]

/-- A licensor attracts a mover that moves on. There is never more than one mover for `x`. -/
def move2 : List Expansion :=
  (c.movers.entries.filter fun (z, _) => z == x || !c.movers.contains x).flatMap
    fun (z, mover) =>
      (lex.childWith? mover.node (.licensee x)).toList.map fun source =>
        let (movers, moving) := c.withoutMover z
        let movers := movers.insert x { node := source, index := mover.index }
        let moving := moving.insert x (c.movingFeatures z ++ [.licensee x])
        .predict .move2 [c.projecting target .all c.index (.licensor x) movers moving]

/-! ### Words -/

/-- The word `target` is read if its tokens are next in the input. A word has no movers. -/
def scan (input : List String) : List Expansion :=
  let tokens := ((lex.word? target).elim [] tokens)
  if c.movers.isEmpty && tokens.isPrefixOf input then [.scan target c tokens] else []

/-! ### All expansions -/

/-- The expansions by a selector, which a word or a feature may follow. -/
def selections : List Expansion :=
  (if (lex.parts target).any lex.isLeaf then
      c.merge1 lex target x ++ c.merge3 lex target x
    else []) ++
  (if (lex.parts target).any (!lex.isLeaf ·) then
      c.merge2 lex target x ++ c.merge4 lex target x
    else [])

/-- The expansions by an adjunct, which has to be a word. -/
def adjunctions : List Expansion :=
  if (lex.parts target).any lex.isLeaf then c.merge1b lex target x else []

/-- The expansions by a licensor. -/
def movements : List Expansion :=
  (if c.movers.contains x then [] else c.move1 lex target x) ++ c.move2 lex target x

/-- The expansions with the lexicon node `target`. -/
def expansionsAt (input : List String) : List Expansion :=
  match lex.feature? target with
  | none => c.scan lex target input
  | some f =>
    match f.sign with
    | .selector => c.selections lex target f.name
    | .adjunct => c.adjunctions lex target f.name
    | .licensor => c.movements lex target f.name
    | .categorial | .licensee | .pair => []

/-- All expansions of a prediction when `input` is left to read. -/
def expansions (input : List String) : List Expansion :=
  (c.targets lex).flatMap fun target => c.expansionsAt lex target input

end Category
end MinimalistGrammar
