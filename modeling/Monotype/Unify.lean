import Monotype.Distinct
import Monotype.Subst.Resolved

/-!
# Unification

`unify a b` is the most general substitution that makes two types identical, or the reason why there
is none: two shapes that differ, or a variable that would have to contain itself.

The returns of two function types are unified under what their arguments required. These types are
no parts of the given ones, so the recursion ends by a measure: the number of distinct variables in
both types, and then the size of the first. That the count drops follows from the form of the
result, which `unifyWithin` carries along: it is resolved within the variables of the two types.
-/

namespace Monotype

/-- Why two types have no unifier. -/
inductive UnifyError where
  /-- Two types of different shapes, or two constants with different names. -/
  | mismatch (expected actual : Ty)
  /-- A variable would be bound to a type that contains it. -/
  | occurs (id : VarId) (type : Ty)
deriving DecidableEq, Repr

/-- How unification ends without a substitution. -/
inductive UnifyStop where
  /-- The types do not unify. -/
  | error (e : UnifyError)
  /-- A missing type was read. -/
  | fault (f : Fault)
deriving DecidableEq, Repr

namespace UnifyError

/-- The text of an error, with variable names shared by the types it shows. -/
def message : UnifyError → String
  | .mismatch expected actual =>
    match Ty.printAll [expected, actual] with
    | [e, a] => "Type mismatch: expected " ++ e ++ ", found " ++ a
    | _ => ""
  | .occurs id type =>
    match Ty.printAll [.var id, type] with
    | [v, t] => "Implicitly recursive types are not supported: " ++ v ++ " occurs in " ++ t
    | _ => ""

end UnifyError

/-- Binds a variable to a type that does not contain it. -/
def bindVar (v : VarId) (t : Ty) : Except UnifyStop Subst :=
  if t = .var v then .ok ∅
  else if v ∈ t.vars then .error (.error (.occurs v t))
  else .ok (.singleton v t)

theorem Subst.ResolvedWithin.of_bindVar {v : VarId} {t : Ty} {s : Subst} {vs : List VarId}
    (h : bindVar v t = .ok s) (hv : v ∈ vs) (ht : ∀ w ∈ t.vars, w ∈ vs) : s.ResolvedWithin vs := by
  unfold bindVar at h
  split at h
  · cases h
    exact .empty vs
  · split at h
    · cases h
    · cases h
      exact .singleton hv ht ‹_›

/-! ## The measure -/

theorem mem_vars_args (r q : Ty) {a b : Ty} {w : VarId} (hw : w ∈ a.vars ++ b.vars) :
    w ∈ (Ty.arrow a r).vars ++ (Ty.arrow b q).vars := by
  simp only [Ty.vars, List.mem_append] at hw ⊢
  grind

/-- The returns of two function types, rewritten by what unified their arguments, have only
variables of the function types that are not bound. -/
theorem mem_vars_returns {a b r q r' q' : Ty} {s : Subst} (hs : s.ResolvedWithin (a.vars ++ b.vars))
    (hr : s.apply r = .ok r') (hq : s.apply q = .ok q') {w : VarId} (hw : w ∈ r'.vars ++ q'.vars) :
    w ∈ (Ty.arrow a r).vars ++ (Ty.arrow b q).vars ∧ s.find? w = none := by
  rcases List.mem_append.1 hw with hw | hw
  · have := Subst.mem_vars_of_apply hs hr hw
    simp_all only [Ty.vars, List.mem_append]
    grind
  · have := Subst.mem_vars_of_apply hs hq hw
    simp_all only [Ty.vars, List.mem_append]
    grind

/-- The measure drops from two function types to their arguments. -/
theorem measure_args (a r b q : Ty) :
    Prod.Lex (· < ·) (· < ·) (distinct (a.vars ++ b.vars), a.size)
      (distinct ((Ty.arrow a r).vars ++ (Ty.arrow b q).vars), (Ty.arrow a r).size) := by
  have size : a.size < (Ty.arrow a r).size := by
    simp only [Ty.size]
    omega
  rcases Nat.lt_or_eq_of_le (distinct_le fun _ => mem_vars_args (a := a) (b := b) r q) with h | h
  · exact .left _ _ h
  · rw [h]
    exact .right _ size

/-- The rewritten returns of two function types have fewer distinct variables than the function
types, if something was bound to unify the arguments. -/
theorem distinct_returns_lt {a b r q r' q' : Ty} {s : Subst}
    (hs : s.ResolvedWithin (a.vars ++ b.vars)) (hr : s.apply r = .ok r') (hq : s.apply q = .ok q')
    (ne : s ≠ ∅) :
    distinct (r'.vars ++ q'.vars) < distinct ((Ty.arrow a r).vars ++ (Ty.arrow b q).vars) := by
  have sub := fun w (hw : w ∈ r'.vars ++ q'.vars) => mem_vars_returns hs hr hq hw
  obtain ⟨v, t, hv⟩ := Subst.exists_find?_of_ne_empty ne
  refine distinct_lt (fun w hw => (sub w hw).1) (mem_vars_args r q (hs v t hv).1) fun hmem => ?_
  exact absurd (sub v hmem).2 (by simp [hv])

/-- The measure drops from two function types to their rewritten returns. -/
theorem measure_returns {a b r q r' q' : Ty} {s : Subst} (hs : s.ResolvedWithin (a.vars ++ b.vars))
    (hr : s.apply r = .ok r') (hq : s.apply q = .ok q') :
    Prod.Lex (· < ·) (· < ·) (distinct (r'.vars ++ q'.vars), r'.size)
      (distinct ((Ty.arrow a r).vars ++ (Ty.arrow b q).vars), (Ty.arrow a r).size) := by
  by_cases he : s = ∅
  · subst he
    have size : r'.size < (Ty.arrow a r).size := by
      obtain rfl : r = r' := by simpa using hr
      simp only [Ty.size]
      omega
    rcases Nat.lt_or_eq_of_le (distinct_le fun w hw => (mem_vars_returns hs hr hq hw).1) with h | h
    · exact .left _ _ h
    · rw [h]
      exact .right _ size
  · exact .left _ _ (distinct_returns_lt hs hr hq he)

/-! ## Unification -/

/-- Unification, with the form of its result. -/
def unifyWithin (a b : Ty) :
    Except UnifyStop { s : Subst // s.ResolvedWithin (a.vars ++ b.vars) } :=
  match a, b with
  | .const m, .const n =>
    if m = n then .ok ⟨∅, .empty _⟩ else .error (.error (.mismatch (.const m) (.const n)))
  | .var v, t =>
    match h : bindVar v t with
    | .ok s => .ok ⟨s, Subst.ResolvedWithin.of_bindVar h (by simp [Ty.vars])
        fun w hw => List.mem_append_right _ hw⟩
    | .error e => .error e
  | .arrow a r, .arrow b q =>
    match unifyWithin a b with
    | .error e => .error e
    | .ok ⟨s₁, h₁⟩ =>
      match hr : s₁.apply r, hq : s₁.apply q with
      | .error f, _ => .error (.fault f)
      | .ok _, .error f => .error (.fault f)
      | .ok r', .ok q' =>
        match unifyWithin r' q' with
        | .error e => .error e
        | .ok ⟨s₂, h₂⟩ =>
          match h : s₁.compose s₂ with
          | .error f => .error (.fault f)
          | .ok s => .ok ⟨s, .compose (h₁.mono fun _ => mem_vars_args r q) h₂
              (fun w hw => (mem_vars_returns h₁ hr hq hw).1)
              (fun w hw => (mem_vars_returns h₁ hr hq hw).2) h⟩
  | t, .var v =>
    match h : bindVar v t with
    | .ok s => .ok ⟨s, Subst.ResolvedWithin.of_bindVar h (by simp [Ty.vars])
        fun w hw => List.mem_append_left _ hw⟩
    | .error e => .error e
  | a, b => .error (.error (.mismatch a b))
termination_by (distinct (a.vars ++ b.vars), a.size)
decreasing_by
  · exact measure_args a r b q
  · exact measure_returns h₁ hr hq

/-- The most general substitution that makes two types identical. -/
def unify (a b : Ty) : Except UnifyStop Subst := (unifyWithin a b).map Subtype.val

/-- The result of unification is resolved, and within the variables of the two types. -/
theorem Subst.ResolvedWithin.of_unify {a b : Ty} {s : Subst} (h : unify a b = .ok s) :
    s.ResolvedWithin (a.vars ++ b.vars) := by
  unfold unify at h
  cases hw : unifyWithin a b with
  | error e => simp [hw, Except.map] at h
  | ok r =>
    obtain rfl : r.val = s := by simpa [hw, Except.map] using h
    exact r.property

/-! ## Equations -/

@[simp] theorem unify_const (m n : String) :
    unify (.const m) (.const n) =
      if m = n then .ok ∅ else .error (.error (.mismatch (.const m) (.const n))) := by
  rw [unify, unifyWithin]
  split <;> rfl

@[simp] theorem unify_var (v : VarId) (t : Ty) : unify (.var v) t = bindVar v t := by
  rw [unify, unifyWithin]
  split <;> simp_all [Except.map]

/-- A variable on the right is bound if there is none on the left. -/
theorem unify_var_right {t : Ty} (h : ∀ w, t ≠ .var w) (v : VarId) :
    unify t (.var v) = bindVar v t := by
  cases t with
  | var w => exact absurd rfl (h w)
  | missing | const | arrow | foreign =>
    rw [unify, unifyWithin]
    · split <;> simp_all [Except.map]
    all_goals simp

/-- The returns of two function types are unified under what their arguments required. -/
theorem unify_arrow (a r b q : Ty) :
    unify (.arrow a r) (.arrow b q) = (do
      let s₁ ← unify a b
      let r' ← (s₁.apply r).mapError .fault
      let q' ← (s₁.apply q).mapError .fault
      let s₂ ← unify r' q'
      (s₁.compose s₂).mapError .fault) := by
  rw [unify, unifyWithin, unify]
  cases unifyWithin a b with
  | error e => rfl
  | ok s₁ =>
    obtain ⟨s₁, h₁⟩ := s₁
    dsimp only
    split
    next h => simp [h, Except.map, bind, Except.bind]
    next h h' => simp [h, h', Except.map, bind, Except.bind]
    next r' q' h h' =>
      cases hu : unifyWithin r' q' with
      | error e => simp [h, h', hu, unify, Except.map, bind, Except.bind]
      | ok s₂ =>
        dsimp only
        split <;> simp_all [unify, Except.map, bind, Except.bind]

/-- Two types of different shapes: neither variables, nor both constants, nor both function types.
-/
structure Ty.Clash (a b : Ty) : Prop where
  left : ∀ v, a ≠ .var v
  right : ∀ v, b ≠ .var v
  const : ∀ m n, a = .const m → b ≠ .const n
  arrow : ∀ x y z w, a = .arrow x y → b ≠ .arrow z w

theorem unify_clash {a b : Ty} (h : a.Clash b) :
    unify a b = .error (.error (.mismatch a b)) := by
  rw [unify, unifyWithin]
  · rfl
  · exact h.left
  · exact h.right
  · exact h.const
  · exact h.arrow

/-- Induction along unification: the returns of two function types are taken as rewritten by what
unified their arguments. -/
theorem unify_induction {P : Ty → Ty → Prop} (const : ∀ m n, P (.const m) (.const n))
    (var : ∀ v t, P (.var v) t) (var' : ∀ t v, (∀ w, t ≠ .var w) → P t (.var v))
    (arrow : ∀ a r b q, P a b →
      (∀ s r' q', unify a b = .ok s → s.apply r = .ok r' → s.apply q = .ok q' → P r' q') →
      P (.arrow a r) (.arrow b q))
    (clash : ∀ a b, a.Clash b → P a b) (a b : Ty) : P a b := by
  match a, b with
  | .var v, t => exact var v t
  | .const m, .const n => exact const m n
  | .arrow a r, .arrow b q =>
    exact arrow a r b q (unify_induction const var var' arrow clash a b) fun s r' q' _h _hr _hq =>
      unify_induction const var var' arrow clash r' q'
  | t, .var v =>
    by_cases h : ∃ w, t = .var w
    · obtain ⟨w, rfl⟩ := h
      exact var w (.var v)
    · exact var' t v fun w e => h ⟨w, e⟩
  | .const m, .arrow b q | .const m, .missing | .const m, .foreign k
  | .arrow a r, .const n | .arrow a r, .missing | .arrow a r, .foreign k
  | .missing, .const n | .missing, .arrow b q | .missing, .missing | .missing, .foreign k
  | .foreign j, .const n | .foreign j, .arrow b q | .foreign j, .missing
  | .foreign j, .foreign k => exact clash _ _ (by constructor <;> simp)
termination_by (distinct (a.vars ++ b.vars), a.size)
decreasing_by
  · exact measure_args a r b q
  · exact measure_returns (.of_unify _h) _hr _hq

end Monotype
