import Monotype.Ty.Basic

/-!
# Printed types

A function type is written with an arrow that associates to the right, so only an argument that is
itself a function type is put in parentheses. Variables are written either by id or by letters in
order of first appearance; types printed together share their letters.
-/

namespace Monotype

/-- The name of the `i`-th variable to appear: a letter, followed from the second round of the
alphabet on by the number of rounds completed. -/
def letterName (i : Nat) : String :=
  let letter := "'" ++ String.singleton (Char.ofNat ('a'.toNat + i % 26))
  if i < 26 then letter else letter ++ Nat.repr (i / 26)

/-- The name of a variable that shows its id. -/
def idName (v : VarId) : String := "'_" ++ Int.repr v.toInt

namespace Ty

/-- The text of a type under a naming of its variables. A function type in a `nested` position is
put in parentheses. A type of a foreign kind has no text. -/
def render (name : VarId → String) (nested : Bool) : Ty → String
  | .missing => "<nil>"
  | .const c => c
  | .var v => name v
  | .arrow a r =>
    let body := a.render name true ++ " -> " ++ r.render name false
    if nested then "(" ++ body ++ ")" else body
  | .foreign _ => ""

/-- The variables of a list of types in order of first appearance. -/
def varOrder (ts : List Ty) : List VarId := (ts.flatMap vars).eraseDups

/-- The texts of several types, with variable names shared across all of them. -/
def printAll (ts : List Ty) : List String :=
  let order := varOrder ts
  ts.map (render (fun v => letterName (order.idxOf v)) false)

/-- The text of a type, its variables named in order of first appearance. -/
def print (t : Ty) : String :=
  let order := varOrder [t]
  t.render (fun v => letterName (order.idxOf v)) false

/-- The text of a type, its variables named by id. -/
def printById (t : Ty) : String := t.render idName false

@[simp] theorem printAll_singleton (t : Ty) : printAll [t] = [t.print] := rfl

@[simp] theorem length_printAll (ts : List Ty) : (printAll ts).length = ts.length := by
  simp [printAll]

end Ty

end Monotype
