import Harvest.Command.Arguments
import Harvest.Command.Files
import Harvest.Command.Run
import Harvest.Decimal.Notation
import Harvest.Decimal.Shortest
import Harvest.Description.Declaration
import Harvest.Description.Rejection
import Harvest.Description.Tree
import Harvest.Filter
import Harvest.Json.Basic
import Harvest.Json.Characters
import Harvest.Json.Fault
import Harvest.Json.Numeral
import Harvest.Json.Printer
import Harvest.Json.Reader
import Harvest.Log
import Harvest.Main
import Harvest.Matching.Outcome
import Harvest.Matching.Record
import Harvest.Matching.Walk
import Harvest.NamedList
import Harvest.Nesting
import Harvest.Proofs.Absent
import Harvest.Proofs.Acceptance
import Harvest.Proofs.Branches
import Harvest.Proofs.Checks
import Harvest.Proofs.Directories
import Harvest.Proofs.Expressible
import Harvest.Proofs.Faults
import Harvest.Proofs.Fields
import Harvest.Proofs.Groups
import Harvest.Proofs.Keys
import Harvest.Proofs.Lines
import Harvest.Proofs.Marks
import Harvest.Proofs.Modes
import Harvest.Proofs.Naming
import Harvest.Proofs.Options
import Harvest.Proofs.Outline
import Harvest.Proofs.Outputs
import Harvest.Proofs.Pasting
import Harvest.Proofs.Paths
import Harvest.Proofs.Reach
import Harvest.Proofs.ReadBack
import Harvest.Proofs.Refreshing
import Harvest.Proofs.Reordering
import Harvest.Proofs.Reports
import Harvest.Proofs.Rewording
import Harvest.Proofs.Routes
import Harvest.Proofs.Shapes
import Harvest.Proofs.Shown
import Harvest.Proofs.Siblings
import Harvest.Proofs.Skips
import Harvest.Proofs.Stops
import Harvest.Proofs.Tightening
import Harvest.Proofs.Trace
import Harvest.Proofs.Trails
import Harvest.Proofs.Translation
import Harvest.Proofs.Unentered
import Harvest.Proofs.Unhalted
import Harvest.Proofs.Wrapping
import Harvest.Report.Basic
import Harvest.Report.Json
import Harvest.Report.Text
import Harvest.SortedSet
import Harvest.Spec.Basic
import Harvest.Spec.Listing
import Harvest.Spec.Rule
import Harvest.Text.Blank
import Harvest.Text.Column
import Harvest.Text.Printable
import Harvest.Text.Quoted
