import TapeCompiler.Compiler.Command
import TapeCompiler.Files.Library
import TapeCompiler.Machine.View
import TapeCompiler.Proofs.Growth
import TapeCompiler.Proofs.Stretch
import TapeCompiler.Proofs.Success
import TapeCompiler.Proofs.Reachable
import TapeCompiler.Proofs.Scan
import TapeCompiler.Proofs.Transfer
import TapeCompiler.Proofs.Progress
import TapeCompiler.Proofs.RoundTrip
import TapeCompiler.Proofs.Stored
import TapeCompiler.Proofs.Steps
import TapeCompiler.Proofs.Resume
import TapeCompiler.Proofs.Freshness
import TapeCompiler.Proofs.Locality
import TapeCompiler.Proofs.Spacing
import TapeCompiler.Proofs.Pieces
import TapeCompiler.Proofs.Language
import TapeCompiler.Proofs.Replay
import TapeCompiler.Proofs.NormalForm
import TapeCompiler.Proofs.CursorSymbols
import TapeCompiler.Proofs.Spelling
import TapeCompiler.Proofs.Confined
import TapeCompiler.Proofs.Writable
import TapeCompiler.Proofs.Paths
import TapeCompiler.Proofs.Conflict
import TapeCompiler.Proofs.Failure
import TapeCompiler.Proofs.Rounds
import TapeCompiler.Proofs.Enumeration
import TapeCompiler.Proofs.Numbering
import TapeCompiler.Proofs.Delivery
import TapeCompiler.Proofs.UnboundedArray
import TapeCompiler.Proofs.Consistency
import TapeCompiler.Proofs.Document
import TapeCompiler.Proofs.Scalars
import TapeCompiler.Proofs.Staleness
import TapeCompiler.Proofs.Branches
import TapeCompiler.Proofs.RuleLists
import TapeCompiler.Proofs.Saving
import TapeCompiler.Proofs.Directories
import TapeCompiler.Proofs.Rows
import TapeCompiler.Proofs.Ledgers
