import Monotype.Ty.Basic

/-!
# Instances of types

`Ty.subst θ` replaces all variables of a type at once, and `Ty.rename ρ` renames them. A type is
plain if it is built from constants, variables and function types only, and complete if no part of
it is missing.
-/

namespace Monotype

namespace Ty

/-- Replaces every variable `v` by `θ v`, all at once. -/
def subst (θ : VarId → Ty) : Ty → Ty
  | .var v => θ v
  | .arrow a r => .arrow (a.subst θ) (r.subst θ)
  | .missing => .missing
  | .const c => .const c
  | .foreign k => .foreign k

/-- Renames every variable. -/
def rename (ρ : VarId → VarId) (t : Ty) : Ty := t.subst fun v => .var (ρ v)

/-- Built from constants, variables and function types only. -/
def IsPlain : Ty → Prop
  | .const _ | .var _ => True
  | .arrow a r => a.IsPlain ∧ r.IsPlain
  | .missing | .foreign _ => False

/-- Without a missing part. -/
def IsComplete : Ty → Prop
  | .missing => False
  | .arrow a r => a.IsComplete ∧ r.IsComplete
  | .const _ | .var _ | .foreign _ => True

theorem IsPlain.isComplete {t : Ty} (h : t.IsPlain) : t.IsComplete := by
  induction t with
  | arrow a r iha ihr => exact ⟨iha h.1, ihr h.2⟩
  | missing => exact h
  | const | var | foreign => trivial

theorem subst_congr {θ η : VarId → Ty} {t : Ty} (h : ∀ v ∈ t.vars, θ v = η v) :
    t.subst θ = t.subst η := by
  induction t with
  | var v => exact h v (by simp [vars])
  | arrow a r iha ihr =>
    rw [subst, subst, iha fun v hv => h v (List.mem_append_left _ hv),
      ihr fun v hv => h v (List.mem_append_right _ hv)]
  | missing | const | foreign => rfl

@[simp] theorem subst_var (t : Ty) : t.subst .var = t := by
  induction t with
  | arrow a r iha ihr => rw [subst, iha, ihr]
  | missing | const | var | foreign => rfl

theorem subst_subst (θ η : VarId → Ty) (t : Ty) :
    (t.subst θ).subst η = t.subst fun v => (θ v).subst η := by
  induction t with
  | arrow a r iha ihr => rw [subst, subst, subst, iha, ihr]
  | missing | const | var | foreign => rfl

end Ty

end Monotype
