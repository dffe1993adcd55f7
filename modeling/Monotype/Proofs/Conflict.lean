import Monotype.Proofs.Unification

/-!
# Where unification fails

Unification compares two types from left to right, and rewrites what is left to compare by what it
has found. So an error is about types that need not occur in the given ones: they stand at a
position of what the given ones have become. `Conflict` says what an error stands for. There are a
substitution and a position such that the rewritten types agree to the left of the position, and
show the two types of the error at it. The substitution is what the part to the left requires: every
instance in which this part agrees solves it.

`exists_conflict` follows `unify_induction`. A conflict between the arguments of two function types
is one between the function types, and so is a conflict between the rewritten returns, after the
substitution was composed with what unified the arguments.
-/

namespace Monotype

/-! ## Positions in types -/

namespace Ty

/-- A way down from a function type to one of its parts. -/
inductive Side where
  /-- To the argument. -/
  | arg
  /-- To the return. -/
  | ret
deriving DecidableEq, Repr

/-- The part of a type at a position. -/
def at? : List Side → Ty → Option Ty
  | [], t => some t
  | .arg :: p, .arrow a _ => a.at? p
  | .ret :: p, .arrow _ r => r.at? p
  | _ :: _, _ => none

/-- The first position lies to the left of the second: it goes to an argument where the second goes
to the return. -/
inductive LeftOf : List Side → List Side → Prop where
  | here {q p : List Side} : LeftOf (.arg :: q) (.ret :: p)
  | inside {q p : List Side} (side : Side) : LeftOf q p → LeftOf (side :: q) (side :: p)

/-- The types have the same part at every position to the left of the given one. -/
def AgreeLeftOf (p : List Side) (t u : Ty) : Prop := ∀ q, LeftOf q p → t.at? q = u.at? q

variable {a r b q : Ty} {p : List Side}

theorem agreeLeftOf_nil (t u : Ty) : AgreeLeftOf [] t u := fun _ h => nomatch h

theorem agreeLeftOf_arg :
    AgreeLeftOf (.arg :: p) (.arrow a r) (.arrow b q) ↔ AgreeLeftOf p a b := by
  constructor
  · intro h s hs
    exact h (.arg :: s) (.inside .arg hs)
  · intro h s hs
    cases hs with
    | inside _ hs => exact h _ hs

theorem agreeLeftOf_ret :
    AgreeLeftOf (.ret :: p) (.arrow a r) (.arrow b q) ↔ a = b ∧ AgreeLeftOf p r q := by
  constructor
  · intro h
    have args : some a = some b := h [.arg] .here
    exact ⟨Option.some.inj args, fun s hs => h (.ret :: s) (.inside .ret hs)⟩
  · rintro ⟨rfl, h⟩ s hs
    cases hs with
    | here => rfl
    | inside _ hs => exact h _ hs

end Ty

open Ty

/-! ## Conflicts -/

/-- The error is about the two types: constants with different names, a constant and a function
type, or a variable and a function type that contains it. In a mismatch, the expected type is the
left one. -/
inductive UnifyError.Shows : UnifyError → Ty → Ty → Prop where
  | names {m n : String} : m ≠ n → Shows (.mismatch (.const m) (.const n)) (.const m) (.const n)
  | constArrow {m : String} {a r : Ty} :
      Shows (.mismatch (.const m) (.arrow a r)) (.const m) (.arrow a r)
  | arrowConst {a r : Ty} {n : String} :
      Shows (.mismatch (.arrow a r) (.const n)) (.arrow a r) (.const n)
  | occursLeft {v : VarId} {a r : Ty} :
      v ∈ (Ty.arrow a r).vars → Shows (.occurs v (.arrow a r)) (.var v) (.arrow a r)
  | occursRight {v : VarId} {a r : Ty} :
      v ∈ (Ty.arrow a r).vars → Shows (.occurs v (.arrow a r)) (.arrow a r) (.var v)

/-- Under the substitution, the types agree to the left of the position, and show what the error is
about at it. The substitution is required by what lies to the left. -/
structure Conflict (a b : Ty) (e : UnifyError) (σ : Subst) (p : List Side) : Prop where
  solved : σ.IsSolved (a.vars ++ b.vars)
  shows : ∃ x y, (σ.once a).at? p = some x ∧ (σ.once b).at? p = some y ∧ e.Shows x y
  agree : AgreeLeftOf p (σ.once a) (σ.once b)
  required : ∀ θ : VarId → Ty, AgreeLeftOf p (a.subst θ) (b.subst θ) → σ.Solves θ

namespace Conflict

variable {a r b q : Ty} {e : UnifyError} {σ s : Subst} {p : List Side}

/-- The types themselves. -/
theorem here (h : e.Shows a b) : Conflict a b e ∅ [] where
  solved := .empty _
  shows := ⟨a, b, by rw [Subst.once_empty]; rfl, by rw [Subst.once_empty]; rfl, h⟩
  agree := agreeLeftOf_nil _ _
  required θ _ := Subst.solves_empty θ

/-- The arguments. -/
theorem arg (h : Conflict a b e σ p) (r q : Ty) :
    Conflict (.arrow a r) (.arrow b q) e σ (.arg :: p) where
  solved := h.solved.mono fun _ => mem_vars_args r q
  shows := h.shows
  agree := agreeLeftOf_arg.2 h.agree
  required θ hθ := h.required θ (agreeLeftOf_arg.1 hθ)

/-- The returns, rewritten by what unified the arguments. -/
theorem ret (ha : a.IsPlain) (hb : b.IsPlain) (hs : unify a b = .ok s)
    (h : Conflict (s.once r) (s.once q) e σ p) :
    ∃ σ', s.compose σ = .ok σ' ∧ Conflict (.arrow a r) (.arrow b q) e σ' (.ret :: p) := by
  have solved := isSolved_of_unify ha hb hs
  have older : s.IsSolved ((Ty.arrow a r).vars ++ (Ty.arrow b q).vars) :=
    solved.mono fun _ => mem_vars_args r q
  -- the conflict is within the variables that are left after `s` was applied
  have left : ∀ w ∈ (s.once r).vars ++ (s.once q).vars,
      w ∈ (Ty.arrow a r).vars ++ (Ty.arrow b q).vars ∧ s.find? w = none := fun w hw =>
    mem_vars_returns solved.within (solved.apply_eq_once r) (solved.apply_eq_once q) hw
  obtain ⟨σ', hσ', solved'⟩ :=
    older.exists_compose h.solved (fun w hw => (left w hw).1) fun w hw => (left w hw).2
  have once_eq := h.solved.once_of_compose hσ'
  obtain ⟨x, y, hx, hy, shows⟩ := h.shows
  refine ⟨σ', hσ', solved', ⟨x, y, ?_, ?_, shows⟩, ?_, fun θ hθ => ?_⟩
  · show (σ'.once r).at? p = some x
    rw [once_eq, hx]
  · show (σ'.once q).at? p = some y
    rw [once_eq, hy]
  · refine agreeLeftOf_ret.2 ⟨?_, ?_⟩
    · show σ'.once a = σ'.once b
      rw [once_eq, once_eq, once_eq_of_unify ha hb hs]
    · show AgreeLeftOf p (σ'.once r) (σ'.once q)
      rw [once_eq, once_eq]
      exact h.agree
  · obtain ⟨args, returns⟩ := agreeLeftOf_ret.1 hθ
    obtain ⟨s', hs', sol⟩ := exists_unify_of_subst_eq ha hb args
    rw [hs] at hs'
    cases hs'
    have sol' : σ.Solves θ := h.required θ (by
      rw [sol.subst_apply (solved.apply_eq_once r), sol.subst_apply (solved.apply_eq_once q)]
      exact returns)
    exact sol.compose sol' hσ'

end Conflict

/-! ## Errors of unification -/

/-- A variable that cannot be bound to a plain type occurs in it, and the type is a function type.
-/
theorem bindVar_eq_error {v : VarId} {t : Ty} {e : UnifyError} (ht : t.IsPlain)
    (h : bindVar v t = .error (.error e)) :
    ∃ a r, t = .arrow a r ∧ v ∈ t.vars ∧ e = .occurs v t := by
  unfold bindVar at h
  split at h
  · cases h
  next ne =>
    split at h
    next hv =>
      cases h
      cases t with
      | var w =>
        obtain rfl : v = w := by simpa [Ty.vars] using hv
        exact absurd rfl ne
      | arrow a r => exact ⟨a, r, rfl, hv, rfl⟩
      | const => cases hv
      | missing | foreign => exact ht.elim
    · cases h

theorem Ty.Clash.shows {a b : Ty} (h : a.Clash b) (ha : a.IsPlain) (hb : b.IsPlain) :
    (UnifyError.mismatch a b).Shows a b := by
  cases a with
  | var v => exact absurd rfl (h.left v)
  | missing | foreign => exact ha.elim
  | const m =>
    cases b with
    | const n => exact absurd rfl (h.const m n rfl)
    | var v => exact absurd rfl (h.right v)
    | arrow => exact .constArrow
    | missing | foreign => exact hb.elim
  | arrow x y =>
    cases b with
    | arrow z w => exact absurd rfl (h.arrow x y z w rfl)
    | var v => exact absurd rfl (h.right v)
    | const => exact .arrowConst
    | missing | foreign => exact hb.elim

/-- **Errors are conflicts.** -/
theorem exists_conflict {a b : Ty} {e : UnifyError} (ha : a.IsPlain) (hb : b.IsPlain)
    (h : unify a b = .error (.error e)) : ∃ σ p, Conflict a b e σ p := by
  induction a, b using unify_induction with
  | const m n =>
    rw [unify_const] at h
    split at h
    · cases h
    next ne =>
      cases h
      exact ⟨∅, [], .here (.names ne)⟩
  | var v t =>
    rw [unify_var] at h
    obtain ⟨x, y, rfl, hv, rfl⟩ := bindVar_eq_error hb h
    exact ⟨∅, [], .here (.occursLeft hv)⟩
  | var' t v ht =>
    rw [unify_var_right ht] at h
    obtain ⟨x, y, rfl, hv, rfl⟩ := bindVar_eq_error ha h
    exact ⟨∅, [], .here (.occursRight hv)⟩
  | arrow a r b q ih ihr =>
    rcases unify_answers ha.1 hb.1 with ⟨s, hs, solved⟩ | ⟨e', he'⟩
    · have hr := solved.apply_eq_once r
      have hq := solved.apply_eq_once q
      have hr' := solved.isPlain_once ha.2
      have hq' := solved.isPlain_once hb.2
      rcases unify_answers hr' hq' with ⟨s₂, hs₂, solved₂⟩ | ⟨e', he'⟩
      · -- both unify, and so do the function types
        obtain ⟨s', hs'⟩ := Subst.exists_compose Ty.hereditary_isPlain solved.plain solved₂.plain
        rw [unify_arrow_eq_ok_iff.2 ⟨s, _, _, s₂, hs, hr, hq, hs₂, hs'.1⟩] at h
        cases h
      · rw [unify_arrow, hs, ok_bind, hr, hq, mapError_ok, mapError_ok, ok_bind, ok_bind, he',
          error_bind] at h
        cases h
        obtain ⟨σ, p, conflict⟩ := ihr s _ _ hs hr hq hr' hq' he'
        obtain ⟨σ', -, conflict'⟩ := conflict.ret ha.1 hb.1 hs
        exact ⟨σ', .ret :: p, conflict'⟩
    · rw [unify_arrow, he', error_bind] at h
      cases h
      obtain ⟨σ, p, conflict⟩ := ih ha.1 hb.1 he'
      exact ⟨σ, .arg :: p, conflict.arg r q⟩
  | clash a b hc =>
    rw [unify_clash hc] at h
    cases h
    exact ⟨∅, [], .here (hc.shows ha hb)⟩

/-- **Errors of unification.** If two plain types do not unify, the error is a mismatch of two
constants with different names or of a constant and a function type, or a variable and a function
type that contains it. There are a substitution and a position such that both types, after the
substitution was applied to them, have the same parts to the left of the position, and at it the two
types of the error, the expected one in the first type. Every instance of the types that agrees to
the left of the position solves the substitution. -/
theorem unify_error (a b : Ty) (ha : a.IsPlain) (hb : b.IsPlain) (stop : UnifyStop)
    (h : unify a b = .error stop) :
    ∃ (e : UnifyError) (σ : Subst) (p : List Side) (u w x y : Ty), stop = .error e ∧
      σ.apply a = .ok u ∧ σ.apply b = .ok w ∧ (∀ q, LeftOf q p → u.at? q = w.at? q) ∧
      u.at? p = some x ∧ w.at? p = some y ∧ e.Shows x y ∧
      ∀ θ : VarId → Ty, (∀ q, LeftOf q p → (a.subst θ).at? q = (b.subst θ).at? q) → σ.Solves θ := by
  rcases unify_answers ha hb with ⟨s, hs, -⟩ | ⟨e, he⟩
  · rw [hs] at h
    cases h
  · rw [he] at h
    cases h
    obtain ⟨σ, p, conflict⟩ := exists_conflict ha hb he
    obtain ⟨x, y, hx, hy, shows⟩ := conflict.shows
    exact ⟨e, σ, p, _, _, x, y, rfl, conflict.solved.apply_eq_once a,
      conflict.solved.apply_eq_once b, conflict.agree, hx, hy, shows, conflict.required⟩

/-- The types `a → a` and `(b → int) → b → bool` differ at a position that lies within the variable
`a` of the first. Of `a → a` and `b → b → int`, the returns are left as `b` and `b → int`. -/
theorem unify_error_returns :
    (unify (.arrow (.var 0) (.var 0)) (.arrow (.arrow (.var 1) .int) (.arrow (.var 1) .bool)) =
        .error (.error (.mismatch .int .bool)) ∧
      ∃ (σ : Subst) (p : List Side) (u w : Ty), σ.apply (.arrow (.var 0) (.var 0)) = .ok u ∧
        σ.apply (.arrow (.arrow (.var 1) .int) (.arrow (.var 1) .bool)) = .ok w ∧
        (∀ q, LeftOf q p → u.at? q = w.at? q) ∧ u.at? p = some .int ∧ w.at? p = some .bool) ∧
    unify (.arrow (.var 0) (.var 0)) (.arrow (.var 1) (.arrow (.var 1) .int)) =
        .error (.error (.occurs 1 (.arrow (.var 1) .int))) ∧
      ∃ (σ : Subst) (p : List Side) (u w x y : Ty), σ.apply (.arrow (.var 0) (.var 0)) = .ok u ∧
        σ.apply (.arrow (.var 1) (.arrow (.var 1) .int)) = .ok w ∧
        (∀ q, LeftOf q p → u.at? q = w.at? q) ∧ u.at? p = some x ∧ w.at? p = some y ∧
        (UnifyError.occurs 1 (.arrow (.var 1) .int)).Shows x y := by
  have args : unify (.var 0) (.arrow (.var 1) .int) =
      .ok (.singleton 0 (.arrow (.var 1) .int)) := by cbv
  have left : (Subst.singleton 0 (.arrow (.var 1) .int)).apply (.var 0) =
      .ok (.arrow (.var 1) .int) := by
    cbv
  have right : (Subst.singleton 0 (.arrow (.var 1) .int)).apply (.arrow (.var 1) .bool) =
      .ok (.arrow (.var 1) .bool) := by cbv
  have returns : unify (.arrow (.var 1) .int) (.arrow (.var 1) .bool) =
      .error (.error (.mismatch .int .bool)) := by
    rw [unify_arrow]
    cbv
  have mismatch :
      unify (.arrow (.var 0) (.var 0)) (.arrow (.arrow (.var 1) .int) (.arrow (.var 1) .bool)) =
      .error (.error (.mismatch .int .bool)) := by
    rw [unify_arrow, args, ok_bind, left, right, mapError_ok, mapError_ok, ok_bind, ok_bind,
      returns, error_bind]
  have occurs : unify (.arrow (.var 0) (.var 0)) (.arrow (.var 1) (.arrow (.var 1) .int)) =
      .error (.error (.occurs 1 (.arrow (.var 1) .int))) := by
    rw [unify_arrow]
    cbv
  have plain : (Ty.arrow (.var 0) (.var 0)).IsPlain := ⟨trivial, trivial⟩
  obtain ⟨e, σ, p, u, w, x, y, he, hu, hw, agree, hx, hy, shows, -⟩ :=
    unify_error (.arrow (.var 0) (.var 0)) (.arrow (.arrow (.var 1) .int) (.arrow (.var 1) .bool))
      plain ⟨⟨trivial, trivial⟩, trivial, trivial⟩ _
    mismatch
  obtain ⟨e', σ', p', u', w', x', y', he', hu', hw', agree', hx', hy', shows', -⟩ :=
    unify_error (.arrow (.var 0) (.var 0)) (.arrow (.var 1) (.arrow (.var 1) .int)) plain
      ⟨trivial, trivial, trivial⟩ _ occurs
  cases he
  cases he'
  cases shows
  exact ⟨⟨mismatch, σ, p, u, w, hu, hw, agree, hx, hy⟩, occurs, σ', p', u', w', x', y', hu', hw',
    agree', hx', hy', shows'⟩

end Monotype
