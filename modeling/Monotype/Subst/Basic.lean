import Std.Data.ExtTreeMap
import Monotype.Ty.Print

/-!
# Substitutions

A substitution is a finite map from variable ids to types, sorted by id. A missing type may be
stored under an id. It counts as an entry, and the entry cannot be read: `find?` shows what is
stored, while `lookup` and `readAll` read it and fault.
-/

namespace Monotype

/-- A finite map from type variables to types. -/
structure Subst where
  /-- The entries, sorted by id. -/
  entries : Std.ExtTreeMap VarId Ty
deriving DecidableEq

namespace Subst

/-- The substitution without entries. -/
def empty : Subst := ⟨∅⟩

instance : EmptyCollection Subst := ⟨empty⟩

instance : Inhabited Subst := ⟨∅⟩

/-- The type stored for a variable. -/
def find? (s : Subst) (v : VarId) : Option Ty := s.entries[v]?

/-- Binds a variable, replacing the entry it may have. -/
def insert (s : Subst) (v : VarId) (t : Ty) : Subst := ⟨s.entries.insert v t⟩

/-- The substitution with a single entry. -/
def singleton (v : VarId) (t : Ty) : Subst := empty.insert v t

/-- The substitution built by binding the given variables in order. -/
def ofList (l : List (VarId × Ty)) : Subst := l.foldl (fun s e => s.insert e.1 e.2) ∅

/-- The number of entries. -/
def size (s : Subst) : Nat := s.entries.size

/-- Whether there are no entries. -/
def isEmpty (s : Subst) : Bool := s.entries.isEmpty

/-- The entries in order of id. -/
def toList (s : Subst) : List (VarId × Ty) := s.entries.toList

/-- Reads the type bound to a variable. -/
def lookup (s : Subst) (v : VarId) : Except Fault (Option Ty) :=
  match s.find? v with
  | none => .ok none
  | some t => t.read.map some

/-! ## Entries -/

@[ext] theorem ext {s₁ s₂ : Subst} (h : ∀ v, s₁.find? v = s₂.find? v) : s₁ = s₂ := by
  cases s₁
  cases s₂
  exact congrArg Subst.mk (Std.ExtTreeMap.ext_getElem? fun {v} => h v)

@[simp] theorem find?_empty (v : VarId) : (∅ : Subst).find? v = none :=
  Std.ExtTreeMap.getElem?_empty

theorem find?_insert (s : Subst) (v w : VarId) (t : Ty) :
    (s.insert v t).find? w = if v = w then some t else s.find? w := by
  simp [find?, insert, Std.ExtTreeMap.getElem?_insert]

theorem find?_singleton (v w : VarId) (t : Ty) :
    (singleton v t).find? w = if v = w then some t else none := by
  have h : empty.find? w = none := find?_empty w
  rw [singleton, find?_insert, h]

theorem mem_toList {s : Subst} {v : VarId} {t : Ty} :
    (v, t) ∈ s.toList ↔ s.find? v = some t :=
  Std.ExtTreeMap.mem_toList_iff_getElem?_eq_some

theorem isEmpty_iff {s : Subst} : s.isEmpty ↔ s = ∅ := by
  cases s
  exact Std.ExtTreeMap.isEmpty_iff.trans ⟨fun h => congrArg Subst.mk h, fun h => Subst.mk.inj h⟩

/-- A substitution with entries binds some variable. -/
theorem exists_find?_of_ne_empty {s : Subst} (h : s ≠ ∅) : ∃ v t, s.find? v = some t := by
  refine Classical.byContradiction fun none => h (ext fun v => ?_)
  rw [find?_empty]
  cases hv : s.find? v with
  | none => rfl
  | some t => exact absurd ⟨v, t, hv⟩ none

end Subst

end Monotype
