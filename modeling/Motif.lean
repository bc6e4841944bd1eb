import Motif.Search.ProfileJson
import Motif.Main
import Motif.Proofs.Adjacency
import Motif.Proofs.Yields
import Motif.Proofs.Stored
import Motif.Proofs.Tables
import Motif.Proofs.Common
import Motif.Proofs.Sifting
import Motif.Proofs.Candidates
import Motif.Proofs.Blocks
import Motif.Proofs.Extension
import Motif.Proofs.Built
import Motif.Proofs.Matching
import Motif.Proofs.Holding
import Motif.Proofs.Steps
import Motif.Proofs.Runs
import Motif.Proofs.Exact
import Motif.Proofs.Safe
import Motif.Proofs.Transitions
import Motif.Proofs.Shared
import Motif.Proofs.SpanInvariance
import Motif.Proofs.Regular
import Motif.Proofs.ReadBack
import Motif.Proofs.Cells
import Motif.Proofs.SeedFaults
import Motif.Proofs.SeedChecks
import Motif.Proofs.Seeds
import Motif.Proofs.Counting
import Motif.Proofs.Fronts
import Motif.Proofs.Levels
import Motif.Proofs.Stages
import Motif.Proofs.Interleavings
import Motif.Proofs.Schedules
import Motif.Proofs.Uncovered
import Motif.Proofs.Disjoint
import Motif.Proofs.Encoding
import Motif.Proofs.EdgeSets
import Motif.Proofs.GraphParts
import Motif.Proofs.Cliques
import Motif.Proofs.Cycles
import Motif.Proofs.Paths
import Motif.Proofs.Stars
import Motif.Proofs.EdgeLines
import Motif.Proofs.Loading
import Motif.Proofs.SettingsTexts
import Motif.Proofs.Overriding
import Motif.Proofs.Feedback
import Motif.Proofs.PatternTexts
import Motif.Proofs.Closure
import Motif.Proofs.Pushes
import Motif.Proofs.Calls
import Motif.Proofs.Joining
import Motif.Proofs.PatternLists
import Motif.Proofs.Splitting
import Motif.Proofs.Outcomes
import Motif.Proofs.Views
