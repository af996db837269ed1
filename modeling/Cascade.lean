import Cascade.Engine.Command
import Cascade.Engine.Queries
import Cascade.Sheet.Json
import Cascade.Value.Text
import Cascade.Proofs.Forest.Links
import Cascade.Proofs.Forest.Preorder
import Cascade.Proofs.Forest.Runs
import Cascade.Proofs.Ranking
import Cascade.Proofs.Scene.Groups
import Cascade.Proofs.Scene.Order
import Cascade.Proofs.Selector.Matching
import Cascade.Proofs.Scene.Agreement
import Cascade.Proofs.Selector.Lexicon
import Cascade.Proofs.Sheet.Catalogue
import Cascade.Proofs.Sheet.Shelf
import Cascade.Proofs.Scene.Memo
import Cascade.Proofs.Engine.Restyled
import Cascade.Proofs.Engine.Coherence
import Cascade.Proofs.Engine.Operations
import Cascade.Proofs.Engine.Memo
import Cascade.Proofs.Forest.Paths
import Cascade.Proofs.Engine.Runs
import Cascade.Proofs.Engine.Erasure
import Cascade.Proofs.Engine.Scratch
import Cascade.Proofs.Engine.Flush
import Cascade.Proofs.Engine.Incremental
import Cascade.Proofs.Engine.Exact
import Cascade.Proofs.Selector.Grammar
import Cascade.Proofs.Selector.Reading
import Cascade.Proofs.Selector.Printing
import Cascade.Proofs.Selector.Activation
import Cascade.Proofs.Selector.Meaning
import Cascade.Proofs.Selector.Subject
import Cascade.Proofs.Engine.Visits
import Cascade.Proofs.Engine.Propagation
import Cascade.Proofs.Resolution
import Cascade.Proofs.Scene.Correspondence
import Cascade.Proofs.Scene.Forcing
import Cascade.Proofs.Engine.RootPath
import Cascade.Proofs.Engine.Preview
import Cascade.Proofs.Forest.Handles
import Cascade.Proofs.Variables
import Cascade.Proofs.Overlay
import Cascade.Proofs.Kinds
import Cascade.Proofs.Engine.Kinds
import Cascade.Proofs.Engine.Reports
import Cascade.Proofs.Engine.SideTables
import Cascade.Proofs.Engine.Refusals
import Cascade.Proofs.Engine.Inheritance
import Cascade.Proofs.Engine.Provenance
import Cascade.Proofs.Json.Numerals
import Cascade.Proofs.Json.Texts
import Cascade.Proofs.Json.Reading
import Cascade.Proofs.Json.Records
import Cascade.Proofs.Number.Finite
import Cascade.Proofs.Value.Recovery
import Cascade.Proofs.Sheet.Persistence
import Cascade.Proofs.Forest.Attachment
import Cascade.Proofs.Forest.Destruction
import Cascade.Proofs.Sheet.Precedence
import Cascade.Proofs.Scene.Inert
import Cascade.Proofs.Forest.Traversal
import Cascade.Proofs.Selector.Tally
import Cascade.Proofs.Engine.Furnished
import Cascade.Proofs.Engine.Blending
import Cascade.Proofs.Engine.OverlayHistory
import Cascade.Proofs.Ranking.Stability
import Cascade.Proofs.Selector.Interning
