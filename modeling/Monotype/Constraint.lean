import Monotype.Infer

/-!
# Constraints

Inference in two phases. `generate` walks an expression once and collects the equations between
types that it requires, without solving any; `solve` works them off from first to last.
-/

namespace Monotype

/-- What an equation is for. -/
inductive Reason where
  /-- A function fits its argument. -/
  | call
  /-- A condition is a truth value. -/
  | condition
  /-- Two branches have one type. -/
  | branches
deriving DecidableEq, Repr

/-- The error for an equation that cannot be solved. -/
def Reason.error (left right : Ty) (cause : UnifyError) : Reason → InferError
  | .call => .unify cause
  | .condition => .conditionNotBool left cause
  | .branches => .branchMismatch left right cause

/-- An equation between two types, required at a position. -/
structure Constraint where
  left : Ty
  right : Ty
  reason : Reason
  site : Path
deriving DecidableEq, Repr

/-- The equations that an expression requires, up to a part that has no type at all. -/
structure Generated where
  constraints : List Constraint
  supply : Supply
  result : Except Blame Ty

namespace Generated

/-- The equations of a part, seen from the whole. -/
def inside (step : Step) (g : Generated) : Generated :=
  { g with
    constraints := g.constraints.map fun c => { c with site := step :: c.site }
    result := g.result.mapError fun b => { b with site := step :: b.site } }

/-- Goes on after a part that has a type. -/
def andThen (g : Generated) (k : Ty → Supply → Generated) : Generated :=
  match g.result with
  | .error _ => g
  | .ok t =>
    let h := k t g.supply
    { h with constraints := g.constraints ++ h.constraints }

/-- A type that requires nothing. -/
def done (t : Ty) (n : Supply) : Generated := ⟨[], n, .ok t⟩

/-- A part that has no type. -/
def stuck (e : InferError) (n : Supply) : Generated := ⟨[], n, .error ⟨e, []⟩⟩

/-- A type that requires one equation at the root. -/
def require (left right : Ty) (reason : Reason) (t : Ty) (n : Supply) : Generated :=
  ⟨[⟨left, right, reason, []⟩], n, .ok t⟩

end Generated

open Generated

variable {α : Type}

/-- The equations that an expression requires, in the order in which they arise. -/
def generate (env : Env) (n : Supply) : Expr α → Generated
  | .missing => stuck (.unhandled none) n
  | .foreign _ kind => stuck (.unhandled (some kind)) n
  | .int _ _ => done .int n
  | .bool _ _ => done .bool n
  | .var _ x =>
    match env.find? x with
    | none => stuck (.undeclared x) n
    | some t => done t n
  | .fn _ x body =>
    let (v, n) := n.fresh
    ((generate (env.declare x (.var v)) n body).inside .body).andThen fun t n =>
      done (.arrow (.var v) t) n
  | .call _ callee arg =>
    ((generate env n callee).inside .callee).andThen fun ft n =>
      ((generate env n arg).inside .arg).andThen fun t n =>
        let (v, n) := n.fresh
        require ft (.arrow t (.var v)) .call (.var v) n
  | .cond _ test yes no =>
    ((generate env n test).inside .test).andThen fun ct n =>
      (require ct .bool .condition ct n).andThen fun _ n =>
        ((generate env n yes).inside .yes).andThen fun yt n =>
          ((generate env n no).inside .no).andThen fun nt n =>
            require yt nt .branches nt n

/-- How solving ends without a solution. -/
inductive Unsolved where
  /-- An equation, or a part without a type, after the given substitution was found. -/
  | failed (failure : Failure)
  /-- A missing type was read. -/
  | faulted (fault : Fault)
deriving DecidableEq

/-- Solves equations in order, each under what the ones before it required. -/
def solve (s : Subst) : List Constraint → Except Unsolved Subst
  | [] => .ok s
  | c :: cs => do
    let l ← (s.apply c.left).mapError .faulted
    let r ← (s.apply c.right).mapError .faulted
    let u ← (unify l r).mapError fun
      | .error e => .failed ⟨⟨c.reason.error l r e, c.site⟩, s⟩
      | .fault f => .faulted f
    solve (← (s.compose u).mapError .faulted) cs

/-- Inference that first collects all equations and then solves them. -/
def inferBySolving (env : Env) (n : Supply) (e : Expr α) : Except Unsolved (Ty × Subst) := do
  let g := generate env n e
  let s ← solve ∅ g.constraints
  match g.result with
  | .error b => .error (.failed ⟨b, s⟩)
  | .ok t => return (← (s.apply t).mapError .faulted, s)

end Monotype
