import Monotype.Recording

/-!
# Inference contexts

A `Context` is used for one inference after another. It shows how the last one ended: the error and
the offending expression, the substitution found, and the number of variables taken. It also keeps
the recorder from which annotations are read. Each inference first resets a used context. The table
of the recorder is emptied then, but whether types are recorded is not reset: an annotation that
faults leaves the recorder active.
-/

namespace Monotype

/-- A reusable context of inference. -/
structure Context where
  /-- The supply of fresh variables. -/
  supply : Supply := {}
  /-- The substitution that the last inference found. -/
  subst : Subst := ∅
  /-- The error that made the last inference fail. -/
  error : Option InferError := none
  /-- The expression that made the last inference fail. -/
  invalid : Option (Expr Label) := none
  /-- Whether there was an inference since the last reset. -/
  used : Bool := false
  /-- Where the types of nodes are recorded. -/
  recorder : Recorder := {}
  /-- The expression given last. -/
  root : Expr Label := .missing
deriving DecidableEq

/-- How work in a context ends. -/
inductive Outcome (β : Type) where
  /-- With a result. -/
  | result (b : β)
  /-- With an error. -/
  | error (e : InferError)
  /-- With a fault. -/
  | fault (f : Fault)
deriving DecidableEq

/-- The types in the table of the nodes that a traversal visits, resolved by a substitution. -/
def Annotations.collect (m : Annotations) (s : Subst) (e : Expr Label) :
    Except Fault Annotations := do
  let labels := (← e.walk).filterMap Expr.label?
  return .ofList (← mapSndM s.apply (labels.filterMap fun l => m[l]?.map (l, ·)))

namespace Context

/-- The number of variables that the last inference took. -/
def count (c : Context) : Nat := c.supply.count

/-- The expression at the position of an error, unless it is missing. -/
def offending (root : Expr Label) (site : Path) : Option (Expr Label) :=
  (root.at? site).filter (·.label?.isSome)

/-- Puts a used context back to its initial state. The next variable stays, and the recorder loses
its entries only. -/
def reset (c : Context) : Context :=
  if c.used then { supply := c.supply.reset, root := c.root, recorder := c.recorder.clear } else c

/-- Starts or stops recording. -/
def recording (c : Context) (active : Bool) : Context :=
  { c with recorder := { c.recorder with active := active } }

/-- The context after an inference, and what it answers. -/
def conclude (c : Context) (e : Expr Label) :
    Except Stop (Typed Label) → Context × Outcome (Typed Label)
  | .ok r =>
    ({ c with supply := r.supply, subst := r.subst },
      match r.subst.apply r.type with
      | .ok t => .result { r with type := t }
      | .error f => .fault f)
  | .error (.failed f n) =>
    ({ c with
        supply := n, subst := f.subst, error := some f.error, invalid := offending e f.site },
      .error f.error)
  | .error (.faulted f blame n) =>
    ({ c with
        supply := n
        error := blame.map (·.error)
        invalid := blame.bind fun b => offending e b.site },
      .fault f)

/-- Infers the type of an expression. Without an environment, no name is declared. -/
def run (c : Context) (env : Option Env) (e : Expr Label) : Context × Outcome (Typed Label) :=
  let c := { c.reset with used := true, root := e }
  match e with
  | .missing => ({ c with error := some .emptyExpr }, .error .emptyExpr)
  | e =>
    let env := env.getD ∅
    let (out, recorder) :=
      (inferRecording env (c.supply.startAt env.next) e).exec c.recorder.prepare
    { c with recorder := recorder }.conclude e out

/-- Infers the type of an expression. The substitution is left in the context. -/
def infer (c : Context) (env : Option Env) (e : Expr Label) : Context × Outcome Ty :=
  match c.run env e with
  | (c, .result r) => (c, .result r.type)
  | (c, .error e) => (c, .error e)
  | (c, .fault f) => (c, .fault f)

/-- Infers the type of an expression and of all its nodes, resolved by the substitution found. The
recorder stays active if inference faults. -/
def annotate (c : Context) (env : Option Env) (e : Expr Label) : Context × Outcome Annotations :=
  match (c.recording true).run env e with
  | (c, .result _) =>
    (c.recording false, match (c.recorder.table.getD ∅).collect c.subst e with
      | .ok m => .result m
      | .error f => .fault f)
  | (c, .error e) => (c.recording false, .error e)
  | (c, .fault f) => (c, .fault f)

end Context

end Monotype
