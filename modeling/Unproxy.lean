import Unproxy.Main
import Unproxy.Proofs.Access.Names
import Unproxy.Proofs.Alias.Termination
import Unproxy.Proofs.CommandLine.Call
import Unproxy.Proofs.Coverage
import Unproxy.Proofs.Literal.Escapes
import Unproxy.Proofs.Literal.Strength
import Unproxy.Proofs.Number.Index
import Unproxy.Proofs.Number.Printing
import Unproxy.Proofs.Pipeline.Repetition
import Unproxy.Proofs.Placement
import Unproxy.Proofs.Resolution.Completeness
import Unproxy.Proofs.Resolution.Tally
import Unproxy.Proofs.Resolution.Tokens
import Unproxy.Proofs.Syntax.Traversal
import Unproxy.Proofs.Table.Extraction
import Unproxy.Proofs.Table.Key
import Unproxy.Proofs.Table.Selection
import Unproxy.Proofs.Table.Slots
