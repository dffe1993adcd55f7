import Monotype.Env
import Monotype.Expr.Basic
import Monotype.Ty.Instance

/-!
# Typing rules

`HasType env e t` says that an expression has a type in an environment. All types are monomorphic:
the uses of a name in one scope have one type.
-/

namespace Monotype

variable {α : Type}

/-- The expression has the type, given the types of the names declared. -/
inductive HasType : Env → Expr α → Ty → Prop where
  | int {env : Env} {l : α} {n : Int64} : HasType env (.int l n) .int
  | bool {env : Env} {l : α} {b : Bool} : HasType env (.bool l b) .bool
  | var {env : Env} {l : α} {x : String} {t : Ty} :
      env.find? x = some t → HasType env (.var l x) t
  | fn {env : Env} {l : α} {x : String} {e : Expr α} {a r : Ty} :
      HasType (env.declare x a) e r → HasType env (.fn l x e) (.arrow a r)
  | call {env : Env} {l : α} {f e : Expr α} {a r : Ty} :
      HasType env f (.arrow a r) → HasType env e a → HasType env (.call l f e) r
  | cond {env : Env} {l : α} {c y n : Expr α} {t : Ty} :
      HasType env c .bool → HasType env y t → HasType env n t → HasType env (.cond l c y n) t

namespace Env

/-- The environment with every declared type replaced by an instance. -/
def subst (θ : VarId → Ty) (env : Env) : Env :=
  { env with vars := env.vars.map fun _ t => t.subst θ }

/-- All declared types satisfy a predicate. -/
def Forall (p : Ty → Prop) (env : Env) : Prop := ∀ x t, env.find? x = some t → p t

/-- All declared types are plain, and their variables are below the next unused one. -/
def IsFresh (env : Env) : Prop := env.Forall fun t => t.IsPlain ∧ ∀ v ∈ t.vars, v < env.next

@[simp] theorem find?_subst (θ : VarId → Ty) (env : Env) (x : String) :
    (env.subst θ).find? x = (env.find? x).map (·.subst θ) :=
  Std.ExtTreeMap.getElem?_map

end Env

end Monotype
