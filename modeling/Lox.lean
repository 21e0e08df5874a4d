import Lox.Command.Run
import Lox.Main
import Lox.Proofs.Command.Scripts
import Lox.Proofs.Cursor.Progress
import Lox.Proofs.Cursor.Range
import Lox.Proofs.Machine.FullSink
import Lox.Proofs.Machine.Grouping
import Lox.Proofs.Machine.Refinement
import Lox.Proofs.Machine.Supported
import Lox.Proofs.Number.ReadBack
import Lox.Proofs.Recovery.Accounting
import Lox.Proofs.Recovery.Pace
import Lox.Proofs.Scoping.Heap
import Lox.Proofs.Scoping.Lookup
import Lox.Proofs.Scoping.Renaming
import Lox.Proofs.Scoping.Restoration
import Lox.Proofs.Scoping.Transparency
import Lox.Proofs.Session.Concatenation
import Lox.Proofs.Session.Rejection
import Lox.Proofs.Session.Trimmed
import Lox.Proofs.Source.Lines
import Lox.Proofs.Tree.Form
import Lox.Proofs.Tree.Precedence
import Lox.Proofs.Tree.Printed
import Lox.Proofs.Tree.Tokens
import Lox.Text.Lossy
