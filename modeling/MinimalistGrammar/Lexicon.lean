import MinimalistGrammar.Feature
import MinimalistGrammar.Words
import MinimalistGrammar.Decimal.Natural

/-!
# The lexicon as a trie

The entries of a lexicon form a trie over their features read backwards: the last feature, the
category of a phrase, is at a root, and a word hangs below the path of its features. So all the
entries that end alike share the nodes of that ending.

Nodes are numbered as they are made, so a node comes after its parent.

## Main definitions

* `Lexicon` — the nodes and the roots.
* `Lexicon.add` — adds an entry and gives the number of its word.
* `Lexicon.featuresOf` — the features from a node up to its root, as written in an entry.
* `Lexicon.entries` — all words with their features, in the order of the trie.
-/

namespace MinimalistGrammar

/-- What a node of the trie stands for. -/
inductive Content
  /-- An inner node: one feature of the entries below it. -/
  | feature (f : Feature)
  /-- A leaf: a word with the features above it. -/
  | word (w : String)
deriving DecidableEq, Repr

/-- A node of the trie. -/
structure LexicalNode where
  content : Content
  /-- The nodes right below, in the order they were made. -/
  parts : List Nat
  /-- The node right above. -/
  parent : Option Nat
deriving DecidableEq, Repr

namespace LexicalNode

/-- The feature of an inner node. -/
def feature? (n : LexicalNode) : Option Feature :=
  match n.content with
  | .feature f => some f
  | .word _ => none

/-- The word of a leaf. -/
def word? (n : LexicalNode) : Option String :=
  match n.content with
  | .feature _ => none
  | .word w => some w

/-- The input tokens that a leaf consumes. -/
def tokens (n : LexicalNode) : List String := n.word?.elim [] MinimalistGrammar.tokens

/-- Whether the node carries a feature that agrees with `f`. -/
def carries (n : LexicalNode) (f : Feature) : Bool := n.feature?.any f.agrees

end LexicalNode

/-- A lexicon: its nodes by number, and the numbers of the roots. -/
structure Lexicon where
  nodes : Array LexicalNode := #[]
  roots : List Nat := []
deriving DecidableEq, Repr

namespace Lexicon

/-- The node with number `i`. -/
def node? (lex : Lexicon) (i : Nat) : Option LexicalNode := lex.nodes[i]?

/-- How many nodes there are. -/
def size (lex : Lexicon) : Nat := lex.nodes.size

/-- The nodes right below node `i`. -/
def parts (lex : Lexicon) (i : Nat) : List Nat := (lex.node? i).elim [] (·.parts)

/-- The feature at node `i`. -/
def feature? (lex : Lexicon) (i : Nat) : Option Feature := (lex.node? i).bind (·.feature?)

/-- The word at node `i`. -/
def word? (lex : Lexicon) (i : Nat) : Option String := (lex.node? i).bind (·.word?)

/-- Whether node `i` is a word. -/
def isLeaf (lex : Lexicon) (i : Nat) : Bool := (lex.word? i).isSome

/-- Whether node `i` carries a feature that agrees with `f`. -/
def carries (lex : Lexicon) (i : Nat) (f : Feature) : Bool := (lex.node? i).any (·.carries f)

/-! ### Keys -/

/-- The key of node `i`: `n0`, `n1`, and so on. -/
def key (i : Nat) : String := "n" ++ toString i

/-- The node with a given key. -/
def byKey? (lex : Lexicon) (key : String) : Option Nat :=
  match key.toList with
  | 'n' :: digits => Decimal.readBelow? lex.size digits
  | _ => none

/-! ### Looking up features -/

/-- The root that carries `f`. -/
def root? (lex : Lexicon) (f : Feature) : Option Nat := lex.roots.find? (lex.carries · f)

/-- The root of the category `name`. -/
def category? (lex : Lexicon) (name : String) : Option Nat := lex.root? (.categorial name)

/-- The node right below `i` that carries `f`. -/
def childWith? (lex : Lexicon) (i : Nat) (f : Feature) : Option Nat :=
  (lex.parts i).find? (lex.carries · f)

/-- The leaf right below `i` with the word `w`. -/
def leafWith? (lex : Lexicon) (i : Nat) (w : String) : Option Nat :=
  (lex.parts i).find? fun p => lex.word? p == some w

/-! ### Adding entries -/

/-- A new node below `parent`, with its number. -/
def push (lex : Lexicon) (content : Content) (parent : Option Nat) : Lexicon × Nat :=
  let i := lex.nodes.size
  let nodes := lex.nodes.push { content, parts := [], parent }
  let nodes :=
    match parent with
    | none => nodes
    | some p => nodes.modify p fun n => { n with parts := n.parts ++ [i] }
  ({ lex with nodes }, i)

/-- The root that carries `f`, made if there is none. -/
def rootFor (lex : Lexicon) (f : Feature) : Lexicon × Nat :=
  match lex.root? f with
  | some r => (lex, r)
  | none =>
    let (lex, r) := lex.push (.feature f) none
    ({ lex with roots := lex.roots ++ [r] }, r)

/-- The node below `i` that carries `f`, made if there is none. -/
def childFor (lex : Lexicon) (i : Nat) (f : Feature) : Lexicon × Nat :=
  match lex.childWith? i f with
  | some c => (lex, c)
  | none => lex.push (.feature f) (some i)

/-- The leaf below `i` with the word `w`, made if there is none. -/
def leafFor (lex : Lexicon) (i : Nat) (w : String) : Lexicon × Nat :=
  match lex.leafWith? i w with
  | some c => (lex, c)
  | none => lex.push (.word w) (some i)

/-- The node below `i` at the end of a path of features, made where it is missing. -/
def pathFor (lex : Lexicon) (i : Nat) : List Feature → Lexicon × Nat
  | [] => (lex, i)
  | f :: fs =>
    let (lex, c) := lex.childFor i f
    lex.pathFor c fs

@[simp] theorem pathFor_nil (lex : Lexicon) (i : Nat) : lex.pathFor i [] = (lex, i) := rfl

/-- Adds the entry of word `w` with `features` and gives the number of its leaf. A word without
features hangs below no root. -/
def add (lex : Lexicon) (w : String) (features : List Feature) : Lexicon × Nat :=
  match features.reverse with
  | [] => lex.push (.word w) none
  | last :: others =>
    let (lex, root) := lex.rootFor last
    let (lex, branch) := lex.pathFor root others
    lex.leafFor branch w

/-- The lexicon with some entries added. -/
def ofEntries (entries : List (String × List Feature)) : Lexicon :=
  entries.foldl (fun lex e => (lex.add e.1 e.2).1) {}

@[simp] theorem ofEntries_nil : ofEntries [] = {} := rfl

/-! ### Reading entries off the trie -/

/-- The features from node `i` up to its root: the root's feature is the last. -/
def featuresOf (lex : Lexicon) (i : Nat) : List Feature :=
  match lex.node? i with
  | none => []
  | some n =>
    let above :=
      match n.parent with
      | none => []
      -- a parent comes before its parts, so the test holds in every trie made by `add`
      | some p => if p < i then lex.featuresOf p else []
    n.feature?.toList ++ above
termination_by i

/-- The entries at node `i` and below it, each leaf with its features. -/
def entriesFrom (lex : Lexicon) (i : Nat) : List (String × List Feature) :=
  let here := (lex.word? i).toList.map fun w => (w, lex.featuresOf i)
  let below := (lex.parts i).flatMap fun p =>
    -- a part comes after its parent, so the test holds in every trie made by `add`
    if i < p ∧ p < lex.size then lex.entriesFrom p else []
  here ++ below
termination_by lex.size - i

/-- All entries, in the order of the trie. -/
def entries (lex : Lexicon) : List (String × List Feature) :=
  lex.roots.flatMap lex.entriesFrom

end Lexicon
end MinimalistGrammar
