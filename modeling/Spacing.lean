import Spacing.Main
import Spacing.Proofs.Exact.Confluence
import Spacing.Proofs.Exact.Standstill
import Spacing.Proofs.Solver.Faithful
import Spacing.Proofs.Solver.Turn
import Spacing.Proofs.Exact.Trend
import Spacing.Proofs.Exact.Translation
import Spacing.Proofs.Exact.Reordering
import Spacing.Proofs.CommandLine.Document
import Spacing.Proofs.Solver.Tidy
import Spacing.Proofs.Solver.Renewal
import Spacing.Proofs.Exact.Parts
import Spacing.Proofs.Exact.Contentment
import Spacing.Proofs.Exact.Exchange
import Spacing.Proofs.Exact.Coalescing
import Spacing.Proofs.Solver.Cycle
import Spacing.Proofs.Separation.Ordering
