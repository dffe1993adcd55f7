import Monotype.Constraint
import Monotype.Context
import Monotype.Distinct
import Monotype.Env
import Monotype.Expr.Basic
import Monotype.Expr.Names
import Monotype.Expr.Print
import Monotype.Fault
import Monotype.FinMap
import Monotype.Infer
import Monotype.Recording
import Monotype.Report
import Monotype.Subst.Apply
import Monotype.Subst.Basic
import Monotype.Subst.Print
import Monotype.Subst.Reach
import Monotype.Subst.Resolved
import Monotype.Supply
import Monotype.Ty.Basic
import Monotype.Ty.Instance
import Monotype.Ty.Print
import Monotype.Typing
import Monotype.Unify
import Monotype.Workspace
import Monotype.Proofs.Resolution
import Monotype.Proofs.Unification
import Monotype.Proofs.Generation
import Monotype.Proofs.Solving
import Monotype.Proofs.Agreement
import Monotype.Proofs.Inversion
import Monotype.Proofs.Soundness
import Monotype.Proofs.Annotation
import Monotype.Proofs.Principality
import Monotype.Proofs.Recording
import Monotype.Proofs.Reuse
import Monotype.Proofs.Allocation
import Monotype.Proofs.Scope
import Monotype.Proofs.Totality
import Monotype.Proofs.Renaming
import Monotype.Proofs.Lexical
import Monotype.Proofs.Correspondence
import Monotype.Proofs.Successive
import Monotype.Proofs.Reachability
import Monotype.Proofs.Trace
import Monotype.Proofs.Positions
import Monotype.Proofs.Sharing
import Monotype.Proofs.Faultless
import Monotype.Proofs.Composition
import Monotype.Proofs.Iteration
import Monotype.Proofs.Conflict
import Monotype.Proofs.Failure
import Monotype.Proofs.FirstFailure
import Monotype.Proofs.Symmetry
import Monotype.Proofs.Words
import Monotype.Proofs.PrintedTypes
import Monotype.Proofs.PrintedExprs
import Monotype.Proofs.PrintedSubsts
import Monotype.Proofs.Termination
import Monotype.Proofs.Threading
import Monotype.Proofs.Associativity
import Monotype.Proofs.Cells
import Monotype.Proofs.Rewriting
import Monotype.Proofs.Accounting
