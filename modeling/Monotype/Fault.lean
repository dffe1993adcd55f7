/-!
# Faults

A computation either answers, fails with an error of its own, or is abandoned by a `Fault`. Faults
come from data that no well-formed client builds: a table entry whose type is missing, or an
expression of a kind that the traversals do not know. One more would come from recording a type
without a table to record it in.

Comparing two types never faults. Types are compared by value, so this takes the values of every
foreign kind to be comparable. A client with a kind whose values cannot be compared is outside of
what is described here, and so is the fault that a comparison of such values would be.
-/

namespace Monotype

/-- Why a computation is abandoned without an answer. -/
inductive Fault where
  /-- A table entry was read whose type is missing. -/
  | missingType
  /-- A traversal reached an expression of an unknown kind. -/
  | unknownExpr (kind : String)
  /-- A type was recorded before there was a table for it. -/
  | noTable
deriving DecidableEq, Repr

/-- The text of a fault, for those that have one. -/
def Fault.message? : Fault → Option String
  | .missingType | .noTable => none
  | .unknownExpr kind => some ("unknown expression type: " ++ kind)

section

variable {ε ε' α β : Type}

@[simp] theorem ok_bind (a : α) (f : α → Except ε β) : Except.ok a >>= f = f a := rfl

@[simp] theorem error_bind (e : ε) (f : α → Except ε β) : Except.error e >>= f = .error e := rfl

@[simp] theorem mapError_ok (f : ε → ε') (a : α) : (Except.ok a).mapError f = .ok a := rfl

@[simp] theorem mapError_error (f : ε → ε') (e : ε) :
    (Except.error e : Except ε α).mapError f = .error (f e) := rfl

theorem mapError_eq_ok_iff {f : ε → ε'} {x : Except ε α} {a : α} :
    x.mapError f = .ok a ↔ x = .ok a := by
  cases x <;> simp

end

/-- A sequence of two computations answers when both do. -/
theorem bind_eq_ok_iff {ε α β : Type} {x : Except ε α} {f : α → Except ε β} {b : β} :
    x >>= f = .ok b ↔ ∃ a, x = .ok a ∧ f a = .ok b := by
  cases x <;> simp [bind, Except.bind]

end Monotype
