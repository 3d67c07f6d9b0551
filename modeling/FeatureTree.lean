import FeatureTree.Main
import FeatureTree.Feature.Shelf
import FeatureTree.Json.Records
import FeatureTree.Script.TextFeature
import FeatureTree.Script.TreeFeature
import FeatureTree.Tree.Checked
import FeatureTree.Proofs.Rebuilding.Control
import FeatureTree.Proofs.Rebuilding.Descent
import FeatureTree.Proofs.Rebuilding.Answers
import FeatureTree.Proofs.Rebuilding.Blocks
import FeatureTree.Proofs.Rebuilding.Halting
import FeatureTree.Proofs.Rebuilding.Traversals
import FeatureTree.Proofs.Rebuilding.Descending
import FeatureTree.Proofs.Calculator.Drafts
import FeatureTree.Proofs.Calculator.Following
import FeatureTree.Proofs.Calculator.Tokens
import FeatureTree.Proofs.Decimal.Spelling
import FeatureTree.Proofs.Calculator.Scaffold
import FeatureTree.Proofs.Calculator.Verdict
import FeatureTree.Proofs.Tree.Picture
import FeatureTree.Proofs.Calculator.Drawing
import FeatureTree.Proofs.Calculator.Sites
import FeatureTree.Proofs.Tree.Spine
import FeatureTree.Proofs.Calculator.Bench
import FeatureTree.Proofs.Calculator.Moves
import FeatureTree.Proofs.Calculator.Building
import FeatureTree.Proofs.Calculator.Regions
import FeatureTree.Proofs.Calculator.Grouped
import FeatureTree.Proofs.Calculator.Precedence
import FeatureTree.Proofs.Calculator.WellFormed
import FeatureTree.Proofs.Calculator.Traversing
import FeatureTree.Proofs.Calculator.Restoring
import FeatureTree.Proofs.Calculator.Faults
import FeatureTree.Proofs.Reading.Iterations
import FeatureTree.Proofs.Reading.Recursion
import FeatureTree.Proofs.Engines.Discipline
import FeatureTree.Proofs.Engines.Limits
import FeatureTree.Proofs.Calculator.ReadSpans
import FeatureTree.Proofs.Feature.Ledger
import FeatureTree.Proofs.Tree.Links
import FeatureTree.Proofs.Tree.Numbering
import FeatureTree.Proofs.Calculator.Arranged
import FeatureTree.Proofs.Calculator.ReadArena
import FeatureTree.Proofs.Calculator.GroupArena
import FeatureTree.Proofs.CommandLine.ExitCodes
import FeatureTree.Proofs.Feature.Bags
import FeatureTree.Proofs.Reading.Bags
import FeatureTree.Proofs.Engines.Isolation
import FeatureTree.Proofs.Calculator.Layers
import FeatureTree.Proofs.Calculator.Places
import FeatureTree.Proofs.Text.Lines
import FeatureTree.Proofs.Json.Grammar
import FeatureTree.Proofs.Json.Unique
import FeatureTree.Proofs.Tree.View
import FeatureTree.Proofs.Calculator.Skipping
import FeatureTree.Proofs.Calculator.Unplaced
import FeatureTree.Proofs.Tree.Laminar
import FeatureTree.Proofs.Tree.Editing
import FeatureTree.Proofs.Tree.OneLine
import FeatureTree.Proofs.Decimal.Display
import FeatureTree.Proofs.Calculator.Origins
import FeatureTree.Proofs.Calculator.Legible
import FeatureTree.Proofs.Calculator.Overflow
import FeatureTree.Proofs.Decimal.Rounding
import FeatureTree.Proofs.Feature.Shelf
