import CodeGroom.Checked
import CodeGroom.Main
import CodeGroom.Proofs.Annotate.Lossless
import CodeGroom.Proofs.Layout.Spelled
import CodeGroom.Proofs.Strand.Order
import CodeGroom.Proofs.Text.Encoding
import CodeGroom.Proofs.Format.RoundTrip
import CodeGroom.Proofs.Bracket.Forest
import CodeGroom.Proofs.Grouping.Runs
import CodeGroom.Proofs.Grouping.Enclose
import CodeGroom.Proofs.Grouping.Scanning
import CodeGroom.Proofs.Grouping.Regions
import CodeGroom.Proofs.Grouping.Conditions
import CodeGroom.Proofs.Annotate.Depth
import CodeGroom.Proofs.Grouping.Visits
import CodeGroom.Proofs.Bracket.Closed
import CodeGroom.Proofs.Grouping.Inside
import CodeGroom.Proofs.Expression.Reading
import CodeGroom.Proofs.Grouping.Trees
import CodeGroom.Proofs.Expression.Weight
import CodeGroom.Proofs.Grouping.Cuts
import CodeGroom.Proofs.Annotate.Symbols
import CodeGroom.Proofs.Annotate.Effects
import CodeGroom.Proofs.Annotate.Partners
import CodeGroom.Proofs.Annotate.Closers
import CodeGroom.Proofs.Annotate.Contents
import CodeGroom.Proofs.Layout.Written
import CodeGroom.Proofs.Strand.Rows
import CodeGroom.Proofs.Grouping.Growth
import CodeGroom.Proofs.Grouping.Forward
import CodeGroom.Proofs.Grouping.Inserted
import CodeGroom.Proofs.Grouping.Complete
import CodeGroom.Proofs.Format.LineEnds
import CodeGroom.Proofs.Layout.Visible
import CodeGroom.Proofs.Format.Code
import CodeGroom.Proofs.Layout.Laid
import CodeGroom.Proofs.Format.Parentheses
import CodeGroom.Proofs.Strand.Splices
import CodeGroom.Proofs.Annotate.Branches
import CodeGroom.Proofs.Strand.Lines
import CodeGroom.Proofs.Alignment.Rows
import CodeGroom.Proofs.Alignment.Moves
import CodeGroom.Proofs.Alignment.Rounds
import CodeGroom.Proofs.Alignment.Course
import CodeGroom.Proofs.Strand.Level
import CodeGroom.Proofs.Grouping.Depths
import CodeGroom.Proofs.Annotate.Level
import CodeGroom.Proofs.Alignment.Pushes
import CodeGroom.Proofs.Alignment.Overrides
import CodeGroom.Proofs.Grouping.Carried
import CodeGroom.Proofs.Annotate.Followers
import CodeGroom.Proofs.Layout.Spaced
import CodeGroom.Proofs.Format.Separated
import CodeGroom.Proofs.Grouping.Reference
import CodeGroom.Proofs.Diff.Matching
import CodeGroom.Proofs.Diff.Unified
import CodeGroom.Proofs.Diff.Printed
import CodeGroom.Proofs.Alignment.Finished
import CodeGroom.Proofs.Alignment.Ledger
import CodeGroom.Proofs.Alignment.Together
import CodeGroom.Proofs.Annotate.Angles
import CodeGroom.Proofs.Strand.Blocks
import CodeGroom.Proofs.Annotate.Blocks
import CodeGroom.Proofs.Annotate.LookAhead
import CodeGroom.Proofs.Annotate.Calm
import CodeGroom.Proofs.Annotate.Covers
import CodeGroom.Proofs.Annotate.Moves
import CodeGroom.Proofs.Annotate.Neighbours
import CodeGroom.Proofs.Annotate.Flags
import CodeGroom.Proofs.Layout.Typeset
import CodeGroom.Proofs.Bracket.Nesting
import CodeGroom.Proofs.Annotate.Questions
import CodeGroom.Proofs.Annotate.Colons
import CodeGroom.Proofs.Alignment.Arguments
import CodeGroom.Proofs.Strand.Walks
import CodeGroom.Proofs.Token.Pieces
