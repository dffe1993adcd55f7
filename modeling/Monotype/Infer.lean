import Monotype.Env
import Monotype.Expr.Basic
import Monotype.Supply
import Monotype.Unify

/-!
# Inference

`infer env n e` finds the type of an expression in an environment, together with the substitution
that the constraints met on the way require. The result also has the expression with the type of
every node, and the supply of variables that is left.

The recursion is written once, as `Mode.infer`, over the steps that inference takes. A `Mode` says
what each step does in a monad: `infer` takes the steps and nothing else, and other modes record or
list what they do as well.

If inference fails, a `Failure` has the cause, the position of the offending expression, and the
substitution found up to there. The result of every part is composed with what was found before it,
also when the part failed.
-/

namespace Monotype

/-- Why an expression has no type. -/
inductive InferError where
  /-- A name that is not declared. -/
  | undeclared (name : String)
  /-- A call whose function and argument do not fit. -/
  | unify (cause : UnifyError)
  /-- A condition that is not a truth value. -/
  | conditionNotBool (actual : Ty) (cause : UnifyError)
  /-- Two branches of different types. -/
  | branchMismatch (yes no : Ty) (cause : UnifyError)
  /-- There is no expression at all. -/
  | emptyExpr
  /-- A part that is missing, or of the foreign kind given. -/
  | unhandled (kind : Option String)
deriving DecidableEq, Repr

namespace InferError

/-- The text of an error, with variable names shared by the types it shows. -/
def message : InferError → String
  | .undeclared name => "Variable " ++ name ++ " not found"
  | .unify cause => cause.message
  | .conditionNotBool actual _ => "Condition must be bool, found " ++ actual.print
  | .branchMismatch yes no _ =>
    match Ty.printAll [yes, no] with
    | [y, n] => "Branch types do not match: " ++ y ++ " and " ++ n
    | _ => ""
  | .emptyExpr => "Empty expression"
  | .unhandled kind => "Unhandled expression (" ++ kind.getD "nil" ++ ")"

/-- The error that an error is about. -/
def cause? : InferError → Option UnifyError
  | .conditionNotBool _ cause | .branchMismatch _ _ cause => some cause
  | _ => none

/-- The next error down a chain of errors. -/
def unwrap? : InferError → Option UnifyError
  | .conditionNotBool _ cause => some cause
  | .branchMismatch _ _ cause => some cause
  | .undeclared _ | .unify _ | .emptyExpr | .unhandled _ => none

end InferError

/-- An error and the position it is about. -/
structure Blame where
  /-- The cause. -/
  error : InferError
  /-- The position of the offending expression. -/
  site : Path
deriving DecidableEq, Repr

/-- A failed inference. -/
structure Failure extends Blame where
  /-- The substitution found before the failure. -/
  subst : Subst
deriving DecidableEq

/-- How inference ends without a type. -/
inductive Stop where
  /-- The expression has no type. -/
  | failed (failure : Failure) (supply : Supply)
  /-- A missing type was read, possibly after a part had failed. -/
  | faulted (fault : Fault) (blame : Option Blame) (supply : Supply)
deriving DecidableEq

namespace Stop

/-- The stop of a failure here. -/
def here (error : InferError) (subst : Subst) (supply : Supply) : Stop :=
  .failed ⟨⟨error, []⟩, subst⟩ supply

/-- The stop of a failed unification, described as an error here. -/
def ofUnify (describe : UnifyError → InferError) (subst : Subst) (supply : Supply) :
    UnifyStop → Stop
  | .error e => here (describe e) subst supply
  | .fault f => .faulted f none supply

/-- The stop of a part, seen from the whole. -/
def inside (step : Step) : Stop → Stop
  | .failed f n => .failed { f with site := step :: f.site } n
  | .faulted f blame n => .faulted f (blame.map fun b => { b with site := step :: b.site }) n

/-- The stop after an older substitution was found. -/
def after (older : Subst) : Stop → Stop
  | .failed f n =>
    match older.compose f.subst with
    | .ok s => .failed { f with subst := s } n
    | .error e => .faulted e (some f.toBlame) n
  | .faulted f blame n => .faulted f blame n

end Stop

/-- An inferred type, with what was found on the way. -/
structure Typed (α : Type) where
  /-- The type of the expression. -/
  type : Ty
  /-- The substitution that the constraints require. -/
  subst : Subst
  /-- The supply of variables that is left. -/
  supply : Supply
  /-- The expression with the type of every node. -/
  tree : Expr (α × Ty)
deriving DecidableEq

/-- A step that can only fault, at a point where the supply is `n`. -/
def guarded {β : Type} (n : Supply) (x : Except Fault β) : Except Stop β :=
  x.mapError (.faulted · none n)

variable {α : Type} {m : Type → Type}

/-! ## Modes -/

/-- How inference takes its steps in a monad `m`. A step that can fault is given the supply at that
point. -/
structure Mode (α : Type) (m : Type → Type) where
  /-- Ends without a type. -/
  stop : Stop → m (Typed α)
  /-- Looks up the type declared for a name. -/
  lookup : Supply → Env → String → m (Option Ty)
  /-- Applies a substitution to a type. -/
  apply : Supply → Subst → Ty → m Ty
  /-- Rewrites the types declared in an environment. -/
  rewrite : Supply → Env → Subst → m Env
  /-- Composes an older substitution with a newer one. -/
  compose : Supply → Subst → Subst → m Subst
  /-- Unifies two types. -/
  unify : Ty → Ty → (UnifyStop → Stop) → m Subst
  /-- Infers the first part of an expression. -/
  first : Step → m (Typed α) → m (Typed α)
  /-- Infers a later part, after an older substitution was found. -/
  later : Subst → Step → m (Typed α) → m (Typed α)
  /-- Leaves a node with its result. -/
  leave : α → Typed α → m (Typed α)

namespace Mode

variable [Monad m] (mode : Mode α m)

/-- A name. -/
def var (env : Env) (n : Supply) (l : α) (x : String) : m (Typed α) := do
  match ← mode.lookup n env x with
  | none => mode.stop (.here (.undeclared x) ∅ n)
  | some t => mode.leave l ⟨t, ∅, n, .var (l, t) x⟩

/-- A function, from the inference of its body. -/
def fn (env : Env) (n : Supply) (l : α) (x : String) (body : Env → Supply → m (Typed α)) :
    m (Typed α) := do
  let (v, n) := n.fresh
  let b ← mode.first .body (body (env.declare x (.var v)) n)
  let param ← mode.apply b.supply b.subst (.var v)
  let t := .arrow param b.type
  mode.leave l ⟨t, b.subst, b.supply, .fn (l, t) x b.tree⟩

/-- A call, from the inference of its parts. -/
def call (env : Env) (n : Supply) (l : α) (callee arg : Env → Supply → m (Typed α)) :
    m (Typed α) := do
  let f ← mode.first .callee (callee env n)
  let env ← mode.rewrite f.supply env f.subst
  let a ← mode.later f.subst .arg (arg env f.supply)
  let s ← mode.compose a.supply f.subst a.subst
  let (v, n) := a.supply.fresh
  let ft ← mode.apply n a.subst f.type
  let u ← mode.unify ft (.arrow a.type (.var v)) (.ofUnify .unify s n)
  let t ← mode.apply n u (.var v)
  let s ← mode.compose n s u
  mode.leave l ⟨t, s, n, .call (l, t) f.tree a.tree⟩

/-- A conditional, from the inference of its parts. -/
def cond (env : Env) (n : Supply) (l : α) (test yes no : Env → Supply → m (Typed α)) :
    m (Typed α) := do
  let c ← mode.first .test (test env n)
  let u ← mode.unify c.type .bool (.ofUnify (.conditionNotBool c.type) c.subst c.supply)
  let s₁ ← mode.compose c.supply c.subst u
  let env₁ ← mode.rewrite c.supply env s₁
  let y ← mode.later s₁ .yes (yes env₁ c.supply)
  let s₂ ← mode.compose y.supply s₁ y.subst
  let env₂ ← mode.rewrite y.supply env s₂
  let z ← mode.later s₂ .no (no env₂ y.supply)
  let s₃ ← mode.compose z.supply s₂ z.subst
  let yt ← mode.apply z.supply z.subst y.type
  let w ← mode.unify yt z.type (.ofUnify (.branchMismatch yt z.type) s₃ z.supply)
  let t ← mode.apply z.supply w z.type
  let s ← mode.compose z.supply s₃ w
  mode.leave l ⟨t, s, z.supply, .cond (l, t) c.tree y.tree z.tree⟩

/-- The type of an expression in an environment, with fresh variables from a supply. -/
def infer (env : Env) (n : Supply) : Expr α → m (Typed α)
  | .missing => mode.stop (.here (.unhandled none) ∅ n)
  | .foreign _ kind => mode.stop (.here (.unhandled (some kind)) ∅ n)
  | .int l i => mode.leave l ⟨.int, ∅, n, .int (l, .int) i⟩
  | .bool l b => mode.leave l ⟨.bool, ∅, n, .bool (l, .bool) b⟩
  | .var l x => mode.var env n l x
  | .fn l x body => mode.fn env n l x fun env n => infer env n body
  | .call l callee arg =>
    mode.call env n l (fun env n => infer env n callee) fun env n => infer env n arg
  | .cond l test yes no =>
    mode.cond env n l (fun env n => infer env n test) (fun env n => infer env n yes)
      fun env n => infer env n no

end Mode

/-! ## Inference -/

/-- Inference that does nothing else. -/
def Mode.plain : Mode α (Except Stop) where
  stop := .error
  lookup n env x := guarded n (env.lookup x)
  apply n s t := guarded n (s.apply t)
  rewrite n env s := guarded n (env.apply s)
  compose n older newer := guarded n (older.compose newer)
  unify a b describe := (Monotype.unify a b).mapError describe
  first step x := x.mapError (.inside step)
  later older step x := x.mapError fun e => (e.inside step).after older
  leave _ r := pure r

/-- The type of an expression in an environment, with fresh variables from a supply. -/
def infer (env : Env) (n : Supply) (e : Expr α) : Except Stop (Typed α) := Mode.plain.infer env n e

section

variable (env : Env) (n : Supply) (l : α)

theorem infer_var (x : String) : infer env n (.var l x) = Mode.plain.var env n l x := rfl

theorem infer_fn (x : String) (body : Expr α) :
    infer env n (.fn l x body) = Mode.plain.fn env n l x fun env n => infer env n body := rfl

theorem infer_call (callee arg : Expr α) :
    infer env n (.call l callee arg) =
      Mode.plain.call env n l (fun env n => infer env n callee) fun env n => infer env n arg := rfl

theorem infer_cond (test yes no : Expr α) :
    infer env n (.cond l test yes no) =
      Mode.plain.cond env n l (fun env n => infer env n test) (fun env n => infer env n yes)
        fun env n => infer env n no := rfl

end

end Monotype
