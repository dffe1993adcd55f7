import Monotype.Expr.Basic

/-!
# Names in expressions

The names that occur free, expressions that differ in the names of parameters only, and the number
of variables that an expression needs.
-/

namespace Monotype

namespace Expr

variable {α β : Type}

/-- The names that occur free. -/
def freeNames : Expr α → List String
  | .var _ x => [x]
  | .fn _ x e => e.freeNames.filter (· ≠ x)
  | .call _ f a => f.freeNames ++ a.freeNames
  | .cond _ c t e => c.freeNames ++ t.freeNames ++ e.freeNames
  | .missing | .int _ _ | .bool _ _ | .foreign _ _ => []

/-- The number of functions and calls, each of which takes one variable. -/
def demand : Expr α → Nat
  | .fn _ _ e => e.demand + 1
  | .call _ f a => f.demand + a.demand + 1
  | .cond _ c t e => c.demand + t.demand + e.demand
  | .missing | .int _ _ | .bool _ _ | .var _ _ | .foreign _ _ => 0

/-- Two names denote the same parameter, or the same name outside. The pairs are the parameters
around them, innermost first. -/
def SameName : List (String × String) → String → String → Prop
  | [], x, y => x = y
  | (a, b) :: scope, x, y => (x = a ∧ y = b) ∨ (x ≠ a ∧ y ≠ b ∧ SameName scope x y)

/-- Equal up to the names of parameters, within the given ones. Labels are ignored. -/
def AlphaEq (scope : List (String × String)) : Expr α → Expr β → Prop
  | .missing, .missing => True
  | .int _ m, .int _ n => m = n
  | .bool _ a, .bool _ b => a = b
  | .var _ x, .var _ y => SameName scope x y
  | .fn _ x e, .fn _ y f => AlphaEq ((x, y) :: scope) e f
  | .call _ f a, .call _ g b => AlphaEq scope f g ∧ AlphaEq scope a b
  | .cond _ c t e, .cond _ d u f => AlphaEq scope c d ∧ AlphaEq scope t u ∧ AlphaEq scope e f
  | .foreign _ j, .foreign _ k => j = k
  | _, _ => False

end Expr

end Monotype
