import MinimalistGrammar.Derivation.Tree
import MinimalistGrammar.Lexicon
import MinimalistGrammar.Monorail.Merge
import MinimalistGrammar.Report
import MinimalistGrammar.Tree.Linearize

/-!
# The monorail parser

The monorail parser reads a sentence word by word and builds one tree. A word is merged on top of
the tree so far. Then the node on the edge of the tree is raised, again and again, as long as it can
check a feature of the root. Every merge is logged as a state below the one before.

## Main definitions

* `MonorailParser` — the features of the words it knows.
* `MonorailParser.ofLexicon` — the words of a lexicon.
* `Sentence` — what has been built of a sentence.
* `MonorailParser.parse` — the tree of a sentence.
-/

namespace MinimalistGrammar

/-- The colour of the node that may be raised next. -/
def raisingColor : Color := .rgb 0x46 0x82 0xb4

/-- The category of the silent leaf below the first word. -/
def bottomCategory : String := "e"

/-- The words that a parser knows, and its report. -/
structure MonorailParser where
  words : Dict String (List Feature)
  report : Report := {}

/-- What has been built of a sentence. -/
structure Sentence where
  report : Report
  tree : DerivationTree
  /-- The features that are used up. -/
  used : IdentSet .feature := ∅
  /-- The nodes that have been on the edge. -/
  edges : IdentSet .constituent := ∅
  /-- The root of the tree of the words so far. -/
  root : Option ConstituentId := none
  /-- The last state. -/
  last : Option StateId := none

namespace Sentence

/-- The store of the trees. -/
def store (s : Sentence) : Store := s.tree.store

/-- The sentence with another store. -/
def withStore (s : Sentence) (store : Store) : Sentence := { s with tree := { s.tree with store } }

/-- Says something. -/
def log (s : Sentence) (level : Level) (text : String) : Sentence :=
  { s with report := s.report.log level text }

/-- The group of the node that may be raised next. -/
def raisingGroup (store : Store) (raising : Option ConstituentId) :
    Store × Dict String GroupId :=
  match raising with
  | none => (store, ∅)
  | some node =>
    let (store, id) :=
      store.addGroup { name := "raising", members := [node], color := some raisingColor }
    (store, Dict.empty.insert "raising" id)

/-- Makes a merged node the root, adds a state for it, and finds the node that may be raised
next. -/
def settle (s : Sentence) (root : ConstituentId) (message : String) (type : StateType) :
    Sentence × Option ConstituentId :=
  let (raising, edges) := s.store.nextEdge s.edges root
  let s := s.log .debug message
  let (store, groups) := raisingGroup s.store raising
  let (tree, id) := { s.tree with store }.addStep { roots := [root], message, type, groups } s.last
  ({ s with
      report := s.report.present tree
      tree
      edges
      root := some root
      last := some id }, raising)

/-- Merges two nodes, the first one on top. -/
def merge (s : Sentence) (left right : ConstituentId) : Sentence × ConstituentId :=
  let (store, used, root) := s.store.mergeOnTop s.used left right
  ({ s.withStore store with used }, root)

/-- The text of a feature in a message. -/
def featureText (store : Store) (id : FeatureId) : String :=
  (store.feature? id).elim "?" fun f => f.feature.text

/-- The message for a node that is raised. -/
def raiseMessage (store : Store) (pair : FeatureId × FeatureId) : String :=
  "internal merge, " ++ featureText store pair.1 ++ " checks " ++ featureText store pair.2

/-- Raises a node to the top of the tree, where it lands, and finds the next one. -/
def raiseOnce (s : Sentence) (node root : ConstituentId) (pair : FeatureId × FeatureId) :
    Sentence × Option ConstituentId :=
  let message := raiseMessage s.store pair
  let (s, top) := s.merge node root
  -- the node is pronounced where it lands, and no longer below
  let s := s.withStore (s.store.modifyConstituent node fun c => { c with landing := some top })
  s.settle top message .internalMerge

/-- How many features are not used up. -/
def openCount (s : Sentence) : Nat := s.store.openCount s.used

@[simp] theorem features_raisingGroup (store : Store) (raising : Option ConstituentId) :
    (raisingGroup store raising).1.features = store.features := by
  cases raising <;> rfl

/-- A state does not change the features. -/
theorem openCount_settle (s : Sentence) (root : ConstituentId) (message : String)
    (type : StateType) : (s.settle root message type).1.openCount = s.openCount := by
  have hfeatures : (s.settle root message type).1.store.features = s.store.features :=
    features_raisingGroup ..
  have hused : (s.settle root message type).1.used = s.used := rfl
  rw [openCount, openCount, Store.openCount, Store.openCount, hfeatures, hused]

/-- Raising uses up at least one feature. -/
theorem openCount_raiseOnce_lt {s : Sentence} {node root : ConstituentId}
    {pair : FeatureId × FeatureId} (h : s.store.checkingPair? s.used node root = some pair) :
    (s.raiseOnce node root pair).1.openCount < s.openCount := by
  have hlt := Store.openCount_mergeOnTop_lt h
  rw [raiseOnce, openCount_settle]
  simp only [openCount, merge, withStore, store, Store.openCount,
    Store.features_modifyConstituent] at hlt ⊢
  exact hlt

/-- Raises the node on the edge as long as it can check a feature of the root. -/
def raise (s : Sentence) (raising root : Option ConstituentId) : Sentence :=
  match raising, root with
  | some node, some root =>
    match _h : s.store.checkingPair? s.used node root with
    | none => s
    | some pair =>
      let next := s.raiseOnce node root pair
      next.1.raise next.2 next.1.root
  | _, _ => s
termination_by s.openCount
decreasing_by exact openCount_raiseOnce_lt _h

/-- The node below the next word: the root so far, or a silent leaf. -/
def below (s : Sentence) : Sentence × ConstituentId :=
  match s.root with
  | some root => (s, root)
  | none =>
    let (store, id) := s.store.addLeaf epsilon [.categorial bottomCategory]
    (s.withStore store, id)

/-- Merges a word on top, and raises what can be raised. -/
def addWord (s : Sentence) (word : String) (features : Option (List Feature)) : Sentence :=
  let s := if features.isNone then s.log .warn ("unknown word " ++ word) else s
  -- an unknown word is a leaf without features
  let (store, leaf) := s.store.addLeaf word (features.getD [])
  let (s, below) := (s.withStore store).below
  let (s, root) := s.merge leaf below
  let (s, raising) := s.settle root word .externalMerge
  s.raise raising s.root

end Sentence

namespace MonorailParser

/-- The words of a lexicon, with their features. If the trie has a word in several places, the
place that was made last counts. Silent words are left out. -/
def ofLexicon (lex : Lexicon) : MonorailParser :=
  { words := Dict.ofList <| (List.range lex.size).filterMap fun i =>
      ((lex.word? i).filter (!isSilent ·)).map fun word => (word, lex.featuresOf i) }

/-- Whether the parser knows a word. -/
def knows (p : MonorailParser) (word : String) : Bool := p.words.contains word

/-- Reads some words, `n` of the sentence having been read. -/
def readWords (p : MonorailParser) (s : Sentence) (n : Nat) : List String → Sentence
  | [] => s
  | word :: rest =>
    let (stop, report) := s.report.ask
    let s := { s with report }
    if stop then s.log .warn ("parse cancelled after " ++ toString n ++ " word" ++ plural n)
    else p.readWords (s.addWord word (p.words.get? word)) (n + 1) rest

/-- Says what has been built. -/
def announce (s : Sentence) : Sentence :=
  match s.root with
  | none => s
  | some root =>
    s.log .info ("monorail tree for '" ++ " ".intercalate (s.store.linearize root) ++ "'")

/-- The tree of a sentence, built into a derivation tree. There is none for no words. -/
def parse (p : MonorailParser) (words : List String) (t : DerivationTree) :
    MonorailParser × DerivationTree × Option ConstituentId :=
  let s := announce (p.readWords { report := p.report, tree := t } 0 words)
  ({ p with report := s.report }, s.tree, s.root)

end MonorailParser
end MinimalistGrammar
