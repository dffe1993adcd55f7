import Monotype.FinMap
import Monotype.Subst.Basic

/-!
# Applying and composing substitutions

`Subst.apply` rewrites a type and resolves bound variables transitively. A variable met again while
its own binding is being resolved is left in place, so application ends for cyclic substitutions as
well: at every step fewer bound variables are left to resolve, or the type gets smaller.

`Subst.compose` is the substitution that applies an older one and then a newer one.
`find?_of_compose` gives its entries.
-/

namespace Monotype

namespace Subst

/-! ## Application -/

/-- The number of bound variables that are not in `busy`. -/
def unresolved (s : Subst) (busy : List VarId) : Nat :=
  (s.entries.keys.filter (· ∉ busy)).length

theorem length_filter_lt {α : Type} {p q : α → Bool} {l : List α} (imp : ∀ x, p x → q x) {a : α}
    (mem : a ∈ l) (hq : q a) (hp : ¬ p a) : (l.filter p).length < (l.filter q).length := by
  have sub : l.filter p = (l.filter q).filter p := by
    rw [List.filter_filter]
    exact List.filter_congr fun x _ => by cases hx : p x <;> simp [hx, imp]
  rw [sub]
  exact List.length_filter_lt_length_iff_exists.2 ⟨a, List.mem_filter.2 ⟨mem, hq⟩, hp⟩

/-- Starting to resolve a bound variable leaves fewer to resolve. -/
theorem unresolved_cons_lt {s : Subst} {busy : List VarId} {v : VarId} {t : Ty}
    (bound : s.find? v = some t) (free : v ∉ busy) :
    s.unresolved (v :: busy) < s.unresolved busy := by
  refine length_filter_lt (a := v) ?_ ?_ ?_ ?_
  · simp_all
  · exact Std.ExtTreeMap.mem_keys.2
      (Std.ExtTreeMap.mem_iff_isSome_getElem?.2 (Option.isSome_of_eq_some bound))
  · simpa using free
  · simp

/-- Rewrites a type, leaving the variables in `busy` in place: their bindings are being resolved. -/
def resolve (s : Subst) (busy : List VarId) : Ty → Except Fault Ty
  | .var v =>
    if _free : v ∈ busy then .ok (.var v)
    else
      match _bound : s.find? v with
      | none => .ok (.var v)
      | some t => do s.resolve (v :: busy) (← t.read)
  | .arrow a r => do return .arrow (← s.resolve busy a) (← s.resolve busy r)
  | .missing => .ok .missing
  | .const c => .ok (.const c)
  | .foreign k => .ok (.foreign k)
termination_by t => (s.unresolved busy, t.size)
decreasing_by
  · exact Prod.Lex.left _ _ (unresolved_cons_lt _bound _free)
  · exact Prod.Lex.right _ (by simp only [Ty.size]; omega)
  · exact Prod.Lex.right _ (by simp only [Ty.size]; omega)

/-- Rewrites a type, resolving bound variables transitively. -/
def apply (s : Subst) (t : Ty) : Except Fault Ty := s.resolve [] t

/-- Reads the type of a table entry and rewrites it. -/
def applyRead (s : Subst) (t : Ty) : Except Fault Ty := do s.apply (← t.read)

/-! ## Composition -/

/-- The substitution that applies `older` and then `newer`. The types bound in `older` are
rewritten, and its bindings take precedence. Nothing is read if `newer` has no entries. -/
def compose (older newer : Subst) : Except Fault Subst :=
  if newer.isEmpty then .ok older
  else do
    let rewritten ← mapValuesM newer.applyRead older.entries
    return ⟨newer.entries ∪ rewritten⟩

/-! ## Equations -/

theorem resolve_arrow_eq_ok_iff {s : Subst} {busy : List VarId} {a r u : Ty} :
    s.resolve busy (.arrow a r) = .ok u ↔
      ∃ a' r', s.resolve busy a = .ok a' ∧ s.resolve busy r = .ok r' ∧ u = .arrow a' r' := by
  simp [resolve, bind_eq_ok_iff, pure, Except.pure, eq_comm (a := u)]

theorem resolve_var_busy {s : Subst} {busy : List VarId} {v : VarId} (h : v ∈ busy) :
    s.resolve busy (.var v) = .ok (.var v) := by
  rw [resolve, dif_pos h]

theorem resolve_var_unbound {s : Subst} {busy : List VarId} {v : VarId} (h : s.find? v = none) :
    s.resolve busy (.var v) = .ok (.var v) := by
  rw [resolve]
  split
  · rfl
  · split
    · rfl
    next ht => rw [h] at ht; cases ht

theorem resolve_var_bound {s : Subst} {busy : List VarId} {v : VarId} {t : Ty} (free : v ∉ busy)
    (h : s.find? v = some t) : s.resolve busy (.var v) = t.read >>= s.resolve (v :: busy) := by
  rw [resolve, dif_neg free]
  split
  next hn => rw [h] at hn; cases hn
  next ht => rw [h] at ht; cases ht; rfl

@[simp] theorem resolve_empty (busy : List VarId) (t : Ty) :
    (∅ : Subst).resolve busy t = .ok t := by
  induction t with
  | var v => exact resolve_var_unbound (find?_empty v)
  | arrow a r iha ihr => exact resolve_arrow_eq_ok_iff.2 ⟨a, r, iha, ihr, rfl⟩
  | missing | const | foreign => simp [resolve]

@[simp] theorem apply_empty (t : Ty) : (∅ : Subst).apply t = .ok t := resolve_empty [] t

theorem applyRead_eq_ok_iff {s : Subst} {t u : Ty} :
    s.applyRead t = .ok u ↔ t ≠ .missing ∧ s.apply t = .ok u := by
  simp [applyRead, bind_eq_ok_iff, Ty.read_eq_ok_iff, and_assoc]

/-- An entry of a composition is the rewritten older one, or else the newer one. -/
theorem find?_of_compose {older newer s : Subst} (h : older.compose newer = .ok s) (v : VarId) :
    (older.find? v = none ∧ s.find? v = newer.find? v) ∨
      ∃ t u, older.find? v = some t ∧ newer.apply t = .ok u ∧ s.find? v = some u := by
  unfold compose at h
  split at h
  next he =>
    cases h
    obtain rfl := isEmpty_iff.1 he
    cases hv : older.find? v with
    | none => exact .inl ⟨rfl, by simp⟩
    | some t => exact .inr ⟨t, t, rfl, by simp, rfl⟩
  next =>
    obtain ⟨m, hmem, rfl⟩ : ∃ m, mapValuesM newer.applyRead older.entries = .ok m ∧
        ⟨newer.entries ∪ m⟩ = s := by
      simpa [bind_eq_ok_iff, pure, Except.pure] using h
    rcases getElem?_of_mapValuesM hmem v with ⟨ho, hn⟩ | ⟨t, u, ho, hu, hn⟩
    · exact .inl ⟨ho, by simp [find?, Std.ExtTreeMap.getElem?_union, hn]⟩
    · exact .inr ⟨t, u, ho, (applyRead_eq_ok_iff.1 hu).2,
        by simp [find?, Std.ExtTreeMap.getElem?_union, hn]⟩

end Subst

end Monotype
