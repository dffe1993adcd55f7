import Monotype.Subst.Apply

/-!
# Type environments

An environment declares types for names, sorted by name, and keeps the next unused variable id. As
in a substitution, a missing type may be declared, and its entry cannot be read.
-/

namespace Monotype

/-- Declared types of names. -/
structure Env where
  /-- The next unused variable id. -/
  next : VarId := 0
  /-- The declarations, sorted by name. -/
  vars : Std.ExtTreeMap String Ty := ∅
deriving DecidableEq

namespace Env

instance : EmptyCollection Env := ⟨⟨0, ∅⟩⟩

instance : Inhabited Env := ⟨∅⟩

/-- The type stored for a name. -/
def find? (env : Env) (name : String) : Option Ty := env.vars[name]?

/-- Declares a type for a name, replacing the declaration it may have. -/
def declare (env : Env) (name : String) (t : Ty) : Env :=
  { env with vars := env.vars.insert name t }

/-- Removes the declaration of a name. -/
def remove (env : Env) (name : String) : Env := { env with vars := env.vars.erase name }

/-- The environment that starts at an id and makes the given declarations in order. -/
def ofList (next : VarId) (l : List (String × Ty)) : Env :=
  l.foldl (fun env e => env.declare e.1 e.2) { next := next }

/-- An unused variable, and the environment after it is taken. -/
def fresh (env : Env) : VarId × Env := (env.next, { env with next := env.next + 1 })

/-- The number of declared names. -/
def size (env : Env) : Nat := env.vars.size

/-- The declarations in order of name. -/
def toList (env : Env) : List (String × Ty) := env.vars.toList

/-- Reads the type declared for a name. -/
def lookup (env : Env) (name : String) : Except Fault (Option Ty) :=
  match env.find? name with
  | none => .ok none
  | some t => t.read.map some

/-- Rewrites every declared type, in order of name. Only the types that change are declared anew,
and nothing is read if the substitution has no entries. -/
def apply (env : Env) (s : Subst) : Except Fault Env :=
  if s.isEmpty then .ok env
  else do
    return { env with vars := ← updateM (fun _ u t => u != t) s.applyRead env.toList env.vars }

/-! ## Declarations -/

theorem find?_declare (env : Env) (x y : String) (t : Ty) :
    (env.declare x t).find? y = if x = y then some t else env.find? y := by
  simp [find?, declare, Std.ExtTreeMap.getElem?_insert]

theorem find?_remove (env : Env) (x y : String) :
    (env.remove x).find? y = if x = y then none else env.find? y := by
  simp [find?, remove, Std.ExtTreeMap.getElem?_erase]

@[simp] theorem next_declare (env : Env) (x : String) (t : Ty) :
    (env.declare x t).next = env.next := rfl

@[simp] theorem apply_empty (env : Env) : env.apply ∅ = .ok env := by
  rw [apply, if_pos (Subst.isEmpty_iff.2 rfl)]

/-- Declarations that do not change need not be made anew. -/
theorem apply_eq_mapValuesM (env : Env) (s : Subst) :
    env.apply s = if s.isEmpty then .ok env
      else do return { env with vars := ← mapValuesM s.applyRead env.vars } := by
  rw [apply, toList, updateM_toList fun _ u t h => by simpa using h]

/-- Application keeps the next id, and rewrites each declaration in place. -/
theorem find?_of_apply {env env' : Env} {s : Subst} (h : env.apply s = .ok env') :
    env'.next = env.next ∧ ∀ x, (env.find? x = none ∧ env'.find? x = none) ∨
      ∃ t u, env.find? x = some t ∧ s.apply t = .ok u ∧ env'.find? x = some u := by
  rw [apply_eq_mapValuesM] at h
  split at h
  next he =>
    cases h
    obtain rfl := Subst.isEmpty_iff.1 he
    refine ⟨rfl, fun x => ?_⟩
    cases hx : env.find? x with
    | none => exact .inl ⟨rfl, rfl⟩
    | some t => exact .inr ⟨t, t, rfl, by simp, rfl⟩
  next =>
    obtain ⟨m, hmem, rfl⟩ : ∃ m, mapValuesM s.applyRead env.vars = .ok m ∧
        { env with vars := m } = env' := by
      simpa [bind_eq_ok_iff, pure, Except.pure] using h
    refine ⟨rfl, fun x => (getElem?_of_mapValuesM hmem x).imp_right ?_⟩
    rintro ⟨t, u, ht, hu, hx⟩
    exact ⟨t, u, ht, (Subst.applyRead_eq_ok_iff.1 hu).2, hx⟩

end Env

end Monotype
