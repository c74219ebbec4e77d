import Leftward.CommandLine
import Leftward.Expr.Inspect
import Leftward.Main
import Leftward.Session
import Leftward.Source.FileTree
import Leftward.Proofs.Grammar.RoundTrip
import Leftward.Proofs.Grammar.Rules
import Leftward.Proofs.Machine.BigStep
import Leftward.Proofs.Machine.Composition
import Leftward.Proofs.Primitive.Frame
import Leftward.Proofs.Primitive.Normal
import Leftward.Proofs.Grammar.Exact
import Leftward.Proofs.Grammar.Joining
import Leftward.Proofs.Program.Assembly
import Leftward.Proofs.Machine.Limit
import Leftward.Proofs.Expr.Written
import Leftward.Proofs.Machine.Watching
import Leftward.Proofs.Primitive.Blame
import Leftward.Proofs.Grammar.Failing
import Leftward.Proofs.Primitive.Faults
import Leftward.Proofs.Program.Reports
import Leftward.Proofs.Program.Tracing
import Leftward.Proofs.Expr.Comparison
import Leftward.Proofs.Primitive.Natives
import Leftward.Proofs.Expr.Renaming
import Leftward.Proofs.Primitive.Renaming
import Leftward.Proofs.Machine.Renaming
import Leftward.Proofs.Machine.Reading
import Leftward.Proofs.Prelude.Words
import Leftward.Proofs.Prelude.Quotations
import Leftward.Proofs.Prelude.Foundation
import Leftward.Proofs.Program.Answering
import Leftward.Proofs.Expr.Equality
import Leftward.Proofs.Machine.GoingOn
import Leftward.Proofs.Prelude.Conditionals
import Leftward.Proofs.Prelude.Sum
import Leftward.Proofs.Grammar.Cutting
import Leftward.Proofs.Grammar.Blocked
import Leftward.Proofs.Grammar.Unread
import Leftward.Proofs.Expr.Printing
import Leftward.Proofs.Primitive.Application
import Leftward.Proofs.Primitive.Inlining
import Leftward.Proofs.Primitive.Rereading
import Leftward.Proofs.Machine.Resting
import Leftward.Proofs.Primitive.Depths
import Leftward.Proofs.Primitive.Shuffling
import Leftward.Proofs.Prelude.Shufflers
import Leftward.Proofs.Primitive.Rejoining
import Leftward.Proofs.Primitive.Arithmetic
import Leftward.Proofs.Primitive.Materials
import Leftward.Proofs.Primitive.Promises
import Leftward.Proofs.Program.Files
import Leftward.Proofs.Expr.Comments
import Leftward.Proofs.Machine.Comments
