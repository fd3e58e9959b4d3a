import Inliner.Ledger.Script
import Inliner.Machine
import Inliner.Main
import Inliner.Proofs.Canonical
import Inliner.Proofs.Ledger
import Inliner.Proofs.Script
import Inliner.Proofs.Expansion
import Inliner.Proofs.Correspondence
import Inliner.Proofs.Steady
import Inliner.Proofs.Course
import Inliner.Proofs.Tracing
import Inliner.Proofs.IncludeGraph
import Inliner.Proofs.IncludeTree
import Inliner.Proofs.Breakdown
import Inliner.Proofs.Cycle
import Inliner.Proofs.Localisation
import Inliner.Proofs.Confinement
import Inliner.Proofs.DepthLimit
import Inliner.Proofs.Termination
import Inliner.Proofs.Waiting
import Inliner.Proofs.Straying.Realpath
import Inliner.Proofs.Disclosure
import Inliner.Proofs.Growth
import Inliner.Proofs.Climbing
import Inliner.Proofs.Scope
import Inliner.Proofs.Writing
import Inliner.Proofs.Snapshot
import Inliner.Proofs.Idempotence
import Inliner.Proofs.Preexpansion
import Inliner.Proofs.Markers
import Inliner.Proofs.Respelling
import Inliner.Proofs.TypedOptions
import Inliner.Proofs.Taxonomy
import Inliner.Proofs.Agreement
import Inliner.Proofs.Rerun
import Inliner.Proofs.Grammar
import Inliner.Proofs.Scanning
import Inliner.Proofs.Within
import Inliner.Proofs.Inquiry
import Inliner.Proofs.Rooting
import Inliner.Proofs.Uniqueness
import Inliner.Proofs.Loading
import Inliner.Proofs.Precedence
import Inliner.Proofs.Magnitude
import Inliner.Proofs.KnownKeys
import Inliner.Proofs.Shapes
import Inliner.Proofs.DepthOption
import Inliner.Proofs.Surroundings
import Inliner.Proofs.Watching
import Inliner.Proofs.Account
import Inliner.Proofs.Report
import Inliner.Proofs.Lines
import Inliner.Proofs.PassThrough
