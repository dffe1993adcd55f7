import Monotype.Subst.Basic
import Monotype.Ty.Instance

/-!
# Reachable variables

The variables that a substitution can bring into a type, directly or through the types it binds. A
substitution is acyclic if no variable is reachable from its own binding.
-/

namespace Monotype

namespace Subst

/-- The variable occurs in the type, or in a type bound to a reachable variable. -/
inductive Reaches (s : Subst) (t : Ty) : VarId → Prop where
  | here {v : VarId} : v ∈ t.vars → Reaches s t v
  | next {v w : VarId} {u : Ty} : Reaches s t v → s.find? v = some u → w ∈ u.vars → Reaches s t w

/-- No bound variable is reachable from its own binding. -/
def Acyclic (s : Subst) : Prop := ∀ v t, s.find? v = some t → ¬ s.Reaches t v

/-- Replaces every bound variable by its binding, once. -/
def once (s : Subst) (t : Ty) : Ty := t.subst fun v => (s.find? v).getD (.var v)

/-- What is reachable from a reachable binding is reachable. -/
theorem Reaches.trans {s : Subst} {t u : Ty} {v w : VarId} (hv : s.Reaches t v)
    (hu : s.find? v = some u) (hw : s.Reaches u w) : s.Reaches t w := by
  induction hw with
  | here h => exact .next hv hu h
  | next _ hx hmem ih => exact .next ih hx hmem

end Subst

end Monotype
