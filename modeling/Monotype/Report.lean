import Monotype.Context
import Monotype.Expr.Print
import Monotype.Subst.Print

/-!
# Reports

What is shown of types, substitutions, environments and contexts. A report reads all that it shows,
so making one can fault.
-/

namespace Monotype

/-! ## Types and tables -/

/-- A type and its text. -/
structure Ty.Report where
  type : Ty
  text : String
deriving DecidableEq, Repr

/-- Shows a type. -/
def Ty.report (t : Ty) : Ty.Report := ⟨t, t.print⟩

/-- The entries of a substitution and its text. -/
structure Subst.Report where
  size : Nat
  entries : List (VarId × Ty)
  text : String
deriving DecidableEq, Repr

/-- Shows a substitution. -/
def Subst.report (s : Subst) : Except Fault Subst.Report := do
  return ⟨s.size, ← s.readAll, ← s.print⟩

/-- The next id of an environment and, unless they are left out, its declarations. -/
structure Env.Report where
  size : Nat
  next : VarId
  vars : Option (List (String × Ty))
deriving DecidableEq, Repr

/-- Shows an environment. A quiet report leaves the declarations out, unread. -/
def Env.report (quiet : Bool) (env : Env) : Except Fault Env.Report :=
  if quiet then .ok ⟨env.size, env.next, none⟩
  else do return ⟨env.size, env.next, some (← mapSndM Ty.read env.toList)⟩

/-- Reads entries in order until a limit is reached, and gives each with the text of its type. The
limit is tested after an entry, so one is read if there is any. -/
def readUpTo {κ : Type} (limit : Option Int) (entries : List (κ × Ty)) :
    Except Fault (List (κ × String)) := do
  let seen := match limit with
    | none => entries
    | some n => entries.take (max 1 n.toNat)
  return (← mapSndM Ty.read seen).map fun e => (e.1, e.2.print)

/-! ## Unification -/

/-- A unifier, and what it makes of the two types. -/
structure Unified where
  subst : Subst.Report
  left : Ty
  right : Ty
  identical : Bool
deriving DecidableEq, Repr

/-- Shows a unifier of two types. -/
def Unified.report (a b : Ty) (s : Subst) : Except Fault Unified := do
  let subst ← s.report
  let left ← s.apply a
  let right ← s.apply b
  return ⟨subst, left, right, left.identical right⟩

/-- Unifies two types and shows the result. -/
def unifyReport (a b : Ty) : Except Fault (Except UnifyError Unified) :=
  match unify a b with
  | .ok s => (Unified.report a b s).map .ok
  | .error (.error e) => .ok (.error e)
  | .error (.fault f) => .error f

/-! ## Contexts -/

/-- The expression that made an inference fail: its form, its text, and where it is first visited.
-/
structure Invalid where
  kind : String
  text : String
  index : Option Nat
deriving DecidableEq, Repr

/-- The state of a context. -/
structure Context.Report where
  error : Option InferError
  invalid : Option Invalid
  subst : String
  count : Nat
deriving DecidableEq, Repr

/-- Shows an offending expression of `root`. -/
def Invalid.report (root e : Expr Label) : Invalid :=
  ⟨e.kind?.getD "", e.print, root.visited.findIdx? (·.label? == e.label?)⟩

/-- Shows the state of a context. -/
def Context.report (c : Context) : Except Fault Context.Report := do
  return ⟨c.error, c.invalid.map (Invalid.report c.root), ← c.subst.print, c.count⟩

/-- The result of work in a context, and the state it leaves. -/
structure Run (β : Type) where
  result : Except InferError β
  state : Context.Report

/-- Shows how work in a context ended. -/
def Outcome.report {β γ : Type} (c : Context) (view : β → Except Fault γ) :
    Outcome β → Except Fault (Run γ)
  | .result b => do return ⟨.ok (← view b), ← c.report⟩
  | .error e => do return ⟨.error e, ← c.report⟩
  | .fault f => .error f

/-- Infers a type and shows the result. -/
def Context.inferReport (c : Context) (env : Option Env) (e : Expr Label) :
    Context × Except Fault (Run Ty.Report) :=
  let (c, r) := c.infer env e
  (c, r.report c (.ok ·.report))

/-- Infers a type and shows it alone. -/
def Context.typeReport (c : Context) (env : Option Env) (e : Expr Label) :
    Context × Except Fault (Except InferError Ty.Report) :=
  let (c, r) := c.infer env e
  (c, match r with
    | .result t => .ok (.ok t.report)
    | .error e => .ok (.error e)
    | .fault f => .error f)

/-- The nodes of an expression with their types, and the number of different nodes. -/
structure Annotated where
  nodes : List (String × Option Ty.Report)
  size : Nat
deriving DecidableEq, Repr

/-- Shows the annotations of an expression. -/
def Annotated.report (e : Expr Label) (m : Annotations) : Except Fault Annotated := do
  let nodes := (← e.walk).map fun node =>
    (node.kind?.getD "", (node.label?.bind (m[·]?)).map Ty.report)
  return ⟨nodes, m.size⟩

/-- Annotates an expression and shows the result. -/
def Context.annotateReport (c : Context) (env : Option Env) (e : Expr Label) :
    Context × Except Fault (Run Annotated) :=
  let (c, r) := c.annotate env e
  (c, r.report c (Annotated.report e))

end Monotype
