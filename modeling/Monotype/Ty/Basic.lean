import Std.Data.ExtTreeSet
import Monotype.Fault

/-!
# Types

A type is a constant, a type variable or a function type. Two more forms stand for what a client may
hand over besides: a missing type, and a type of a foreign kind, which only a variable can match.
Values of a foreign kind are taken to be comparable: to find out whether a type has changed is
never a fault.

Variables are named by 64-bit ids. `Ty.vars` lists their occurrences from left to right; printing,
the occurs check and the measures of the recursive functions all read a type through it.
-/

namespace Monotype

/-- The id of a type variable: a signed 64-bit word, so the greatest id is followed by the least. -/
abbrev VarId := Int64

/-- A type. -/
inductive Ty where
  /-- No type at all. -/
  | missing
  /-- A named constant, such as `int`. -/
  | const (name : String)
  /-- A type variable. -/
  | var (id : VarId)
  /-- The type of functions from `arg` to `ret`. -/
  | arrow (arg ret : Ty)
  /-- A type of a foreign kind, whose values can be compared. -/
  | foreign (kind : String)
deriving DecidableEq, Repr, Inhabited

namespace Ty

/-- The type of integer literals. -/
def int : Ty := .const "int"

/-- The type of Boolean literals. -/
def bool : Ty := .const "bool"

/-- The curried function type that takes `args` in order and returns `ret`. -/
def arrows (args : List Ty) (ret : Ty) : Ty := args.foldr .arrow ret

/-- The name of the outermost form, if the type is not missing. -/
def kind? : Ty → Option String
  | .missing => none
  | .const _ => some "Const"
  | .var _ => some "Var"
  | .arrow _ _ => some "Arrow"
  | .foreign kind => some kind

/-- The number of constructors. -/
def size : Ty → Nat
  | .arrow a r => a.size + r.size + 1
  | _ => 1

/-- The variables of a type in order of occurrence, with repetitions. -/
def vars : Ty → List VarId
  | .var v => [v]
  | .arrow a r => a.vars ++ r.vars
  | _ => []

/-- The set of variables of a type. -/
def freeVars (t : Ty) : Std.ExtTreeSet VarId := .ofList t.vars

/-- Structural identity: constants by name, variables by id. A type of a foreign kind is identical
to nothing, itself included. -/
def identical : Ty → Ty → Bool
  | .missing, .missing => true
  | .const m, .const n => m == n
  | .var v, .var w => v == w
  | .arrow a r, .arrow b q => a.identical b && r.identical q
  | _, _ => false

/-- The type as the value of a table entry: a missing one cannot be read. -/
def read : Ty → Except Fault Ty
  | .missing => .error .missingType
  | t => .ok t

@[simp] theorem mem_freeVars {t : Ty} {v : VarId} : v ∈ t.freeVars ↔ v ∈ t.vars := by
  simp [freeVars]

theorem read_eq_ok_iff {t u : Ty} : t.read = .ok u ↔ t ≠ .missing ∧ u = t := by
  cases t <;> simp [read, eq_comm]

end Ty

end Monotype
