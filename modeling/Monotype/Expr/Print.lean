import Monotype.Expr.Basic

/-!
# Printed expressions

A function or a conditional extends as far to the right as possible, so it is put in parentheses
where it is called. Arguments stand between the parentheses of their call.
-/

namespace Monotype

namespace Expr

variable {α : Type}

/-- The text of an expression. A function or conditional in a `called` position is put in
parentheses. An expression of a foreign kind has no text. -/
def render (called : Bool) : Expr α → String
  | .missing => "<nil>"
  | .int _ n => Int.repr n.toInt
  | .bool _ b => if b then "true" else "false"
  | .var _ x => x
  | .fn _ x e => enclose ("fun " ++ x ++ " -> " ++ e.render false)
  | .call _ f a => f.render true ++ "(" ++ a.render false ++ ")"
  | .cond _ c t e =>
    enclose ("if " ++ c.render false ++ " then " ++ t.render false ++ " else " ++ e.render false)
  | .foreign _ _ => ""
where
  /-- Puts a text in a called position in parentheses. -/
  enclose (text : String) : String := if called then "(" ++ text ++ ")" else text

/-- The text of an expression. -/
def print (e : Expr α) : String := e.render false

end Expr

end Monotype
