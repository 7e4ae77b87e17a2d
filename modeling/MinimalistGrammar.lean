import MinimalistGrammar.Address
import MinimalistGrammar.Archive.Codec
import MinimalistGrammar.Archive.Log
import MinimalistGrammar.Archive.Object
import MinimalistGrammar.Archive.ObjectKey
import MinimalistGrammar.Archive.Tree
import MinimalistGrammar.Beam.Category
import MinimalistGrammar.Beam.Expansion
import MinimalistGrammar.Beam.NodeRecord
import MinimalistGrammar.Beam.Parse
import MinimalistGrammar.Beam.Parser
import MinimalistGrammar.Beam.RecordTree
import MinimalistGrammar.Beam.Rule
import MinimalistGrammar.Beam.SurfaceTree
import MinimalistGrammar.Bracketing
import MinimalistGrammar.Bracketing.Reader
import MinimalistGrammar.Command.Arguments
import MinimalistGrammar.Command.Demonstration
import MinimalistGrammar.Command.Folder
import MinimalistGrammar.Command.Run
import MinimalistGrammar.Command.Session
import MinimalistGrammar.Decimal.Layout
import MinimalistGrammar.Decimal.Natural
import MinimalistGrammar.Decimal.Nearest
import MinimalistGrammar.Decimal.Power
import MinimalistGrammar.Decimal.Reader
import MinimalistGrammar.Decimal.Shortest
import MinimalistGrammar.Derivation.Navigation
import MinimalistGrammar.Derivation.Pruning
import MinimalistGrammar.Derivation.State
import MinimalistGrammar.Derivation.Tree
import MinimalistGrammar.Dict
import MinimalistGrammar.Example
import MinimalistGrammar.Feature
import MinimalistGrammar.Feature.Reader
import MinimalistGrammar.File
import MinimalistGrammar.Geometry
import MinimalistGrammar.Ident
import MinimalistGrammar.Json
import MinimalistGrammar.Json.Decode
import MinimalistGrammar.Json.Number
import MinimalistGrammar.Json.Print
import MinimalistGrammar.Json.Raw
import MinimalistGrammar.Lexicon
import MinimalistGrammar.Lexicon.Text
import MinimalistGrammar.Main
import MinimalistGrammar.Monorail.Merge
import MinimalistGrammar.Monorail.Parser
import MinimalistGrammar.Probability
import MinimalistGrammar.Proofs.Archive.Codec
import MinimalistGrammar.Proofs.Archive.Installing
import MinimalistGrammar.Proofs.Archive.Loading
import MinimalistGrammar.Proofs.Archive.Logging
import MinimalistGrammar.Proofs.Archive.Object
import MinimalistGrammar.Proofs.Archive.References
import MinimalistGrammar.Proofs.Archive.Relinking
import MinimalistGrammar.Proofs.Archive.Reloading
import MinimalistGrammar.Proofs.Archive.Replacing
import MinimalistGrammar.Proofs.Archive.Restoring
import MinimalistGrammar.Proofs.Archive.Roundtrip
import MinimalistGrammar.Proofs.Archive.Wholeness
import MinimalistGrammar.Proofs.Beam.Apart
import MinimalistGrammar.Proofs.Beam.BestFirst
import MinimalistGrammar.Proofs.Beam.Checked
import MinimalistGrammar.Proofs.Beam.Completion
import MinimalistGrammar.Proofs.Beam.DeadEnds
import MinimalistGrammar.Proofs.Beam.Ending
import MinimalistGrammar.Proofs.Beam.Entries
import MinimalistGrammar.Proofs.Beam.Expansion
import MinimalistGrammar.Proofs.Beam.Following
import MinimalistGrammar.Proofs.Beam.Frontier
import MinimalistGrammar.Proofs.Beam.History
import MinimalistGrammar.Proofs.Beam.Logged
import MinimalistGrammar.Proofs.Beam.Matching
import MinimalistGrammar.Proofs.Beam.MergeRules
import MinimalistGrammar.Proofs.Beam.Ownership
import MinimalistGrammar.Proofs.Beam.Paths
import MinimalistGrammar.Proofs.Beam.Places
import MinimalistGrammar.Proofs.Beam.Projections
import MinimalistGrammar.Proofs.Beam.Pruning
import MinimalistGrammar.Proofs.Beam.Reading
import MinimalistGrammar.Proofs.Beam.Renaming
import MinimalistGrammar.Proofs.Beam.Results
import MinimalistGrammar.Proofs.Beam.Run
import MinimalistGrammar.Proofs.Beam.Sharing
import MinimalistGrammar.Proofs.Beam.Slots
import MinimalistGrammar.Proofs.Beam.Success
import MinimalistGrammar.Proofs.Beam.Ways
import MinimalistGrammar.Proofs.Derivation.Closed
import MinimalistGrammar.Proofs.Derivation.Consistency
import MinimalistGrammar.Proofs.Derivation.Copies
import MinimalistGrammar.Proofs.Derivation.Durability
import MinimalistGrammar.Proofs.Derivation.Edits
import MinimalistGrammar.Proofs.Derivation.Evolution
import MinimalistGrammar.Proofs.Derivation.Keeping
import MinimalistGrammar.Proofs.Derivation.Lineage
import MinimalistGrammar.Proofs.Derivation.Logged
import MinimalistGrammar.Proofs.Derivation.Ownership
import MinimalistGrammar.Proofs.Derivation.Remainder
import MinimalistGrammar.Proofs.Derivation.Removal
import MinimalistGrammar.Proofs.Derivation.Shown
import MinimalistGrammar.Proofs.Derivation.Walking
import MinimalistGrammar.Proofs.Grammar.ByRule
import MinimalistGrammar.Proofs.Grammar.Derivation
import MinimalistGrammar.Proofs.Grammar.Movers
import MinimalistGrammar.Proofs.Grammar.Prediction
import MinimalistGrammar.Proofs.Grammar.Rules
import MinimalistGrammar.Proofs.Grammar.Unambiguous
import MinimalistGrammar.Proofs.Grammar.Waiting
import MinimalistGrammar.Proofs.Lexicon.Trie
import MinimalistGrammar.Proofs.Monorail.Merge
import MinimalistGrammar.Proofs.Monorail.Pronunciation
import MinimalistGrammar.Proofs.Monorail.Run
import MinimalistGrammar.Proofs.Snapshot.Faithful
import MinimalistGrammar.Proofs.Snapshot.Loading
import MinimalistGrammar.Proofs.Snapshot.Walk
import MinimalistGrammar.Proofs.Tree.Accounting
import MinimalistGrammar.Proofs.Tree.Appearance
import MinimalistGrammar.Proofs.Tree.AtEnd
import MinimalistGrammar.Proofs.Tree.Building
import MinimalistGrammar.Proofs.Tree.Careful
import MinimalistGrammar.Proofs.Tree.Checking
import MinimalistGrammar.Proofs.Tree.Growth
import MinimalistGrammar.Proofs.Tree.Landing
import MinimalistGrammar.Proofs.Tree.Layout
import MinimalistGrammar.Proofs.Tree.Losing
import MinimalistGrammar.Proofs.Tree.Outline
import MinimalistGrammar.Proofs.Tree.Pending
import MinimalistGrammar.Proofs.Tree.Pronunciation
import MinimalistGrammar.Proofs.Tree.Reachable
import MinimalistGrammar.Proofs.Tree.Separation
import MinimalistGrammar.Proofs.Tree.Spelling
import MinimalistGrammar.Proofs.Tree.Spending
import MinimalistGrammar.Proofs.Tree.Standalone
import MinimalistGrammar.Report
import MinimalistGrammar.Snapshot.Codec
import MinimalistGrammar.Snapshot.Error
import MinimalistGrammar.Snapshot.Graph
import MinimalistGrammar.Snapshot.Record
import MinimalistGrammar.Snapshot.Text
import MinimalistGrammar.Snapshot.Value
import MinimalistGrammar.Snapshot.Value.Json
import MinimalistGrammar.StableQueue
import MinimalistGrammar.Text.Blank
import MinimalistGrammar.Text.Printable
import MinimalistGrammar.Text.WordChar
import MinimalistGrammar.Tree.Attribute
import MinimalistGrammar.Tree.Constituent
import MinimalistGrammar.Tree.Display
import MinimalistGrammar.Tree.Linearize
import MinimalistGrammar.Tree.Reachable
import MinimalistGrammar.Tree.Store
import MinimalistGrammar.Visited
import MinimalistGrammar.Words
import MinimalistGrammar.Proofs.Bracketing.Reading
import MinimalistGrammar.Proofs.Bracketing.Roundtrip
import MinimalistGrammar.Proofs.Bracketing.Squeezing
import MinimalistGrammar.Proofs.Lexicon.Forest
import MinimalistGrammar.Proofs.Tree.Covering
import MinimalistGrammar.Proofs.Lexicon.Planting
import MinimalistGrammar.Proofs.Lexicon.Reading
import MinimalistGrammar.Proofs.Lexicon.Storage
import MinimalistGrammar.Proofs.Lexicon.Roundtrip
import MinimalistGrammar.Proofs.Decimal.Natural
import MinimalistGrammar.Proofs.Decimal.Finite
import MinimalistGrammar.Proofs.Snapshot.Encoding
import MinimalistGrammar.Proofs.Archive.ObjectKey
import MinimalistGrammar.Proofs.Archive.Annotations
import MinimalistGrammar.Proofs.Archive.Saving
import MinimalistGrammar.Proofs.Monorail.Edges
import MinimalistGrammar.Proofs.Monorail.Vocabulary
import MinimalistGrammar.Proofs.Beam.Queues
import MinimalistGrammar.Proofs.Snapshot.BreadthFirst
import MinimalistGrammar.Proofs.Snapshot.Flat
import MinimalistGrammar.Proofs.Tree.Linking
import MinimalistGrammar.Proofs.Monorail.Symmetry
import MinimalistGrammar.Proofs.Monorail.Bounds
import MinimalistGrammar.Proofs.Tree.Circles
import MinimalistGrammar.Proofs.Tree.Search
import MinimalistGrammar.Proofs.Tree.Projecting
import MinimalistGrammar.Proofs.Tree.Stacking
import MinimalistGrammar.Proofs.Derivation.Unguarded
