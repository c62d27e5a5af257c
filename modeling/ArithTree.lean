import ArithTree.Datum
import ArithTree.Elementary.Rounded
import ArithTree.Environment.Block
import ArithTree.Session
import ArithTree.Symbolic.Canonical
import ArithTree.Proofs.Command.Capacity
import ArithTree.Proofs.Command.Simplified
import ArithTree.Proofs.Environment.Blocks
import ArithTree.Proofs.Evaluate.Causes
import ArithTree.Proofs.Evaluate.Locality
import ArithTree.Proofs.Expr.Preorder
import ArithTree.Proofs.Expr.Scoping
import ArithTree.Proofs.Expr.Unambiguous
import ArithTree.Proofs.Log.Console
import ArithTree.Proofs.Session.Bindings
import ArithTree.Proofs.Session.Missing
import ArithTree.Proofs.Session.Observed
import ArithTree.Proofs.Simplify.Copying
import ArithTree.Proofs.Simplify.Slots
import ArithTree.Proofs.Simplify.Substitution
import ArithTree.Proofs.Store.Draining
import ArithTree.Proofs.Store.Listing
import ArithTree.Proofs.Sweep.Distinct
import ArithTree.Proofs.Sweep.Uniform
import ArithTree.Proofs.Symbolic.Order
import ArithTree.Proofs.Symbolic.Resolution
