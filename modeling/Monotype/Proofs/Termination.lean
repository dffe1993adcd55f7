import Monotype.Proofs.Resolution
import Monotype.Unify

/-!
# Termination of unification

A recursive definition is given by its body: how an input is answered, if the recursive calls are
answered in a given way. `unrolled` runs a body to a given depth, and leaves the calls below without
an answer. Nothing is assumed about whether the recursion ends.

`Descends` has the reasons why it does. Each input is answered from the answers to finitely many
calls, and a measure with two components drops lexicographically at each of them. Then every input
is answered at some depth, and in the same way at all greater depths (`exists_depth`).

For unification the measure is the number of distinct variables in both types, and then the size of
the first. It drops at the call for the returns of two function types, although application may have
made them larger than the function types themselves (`distinct_returns_lt`).
-/

namespace Monotype

/-! ## Recursion to a given depth -/

section Recursion

variable {α β γ ε : Type}

/-- A computation that may come to no end. -/
abbrev Partial (ε β : Type) := ExceptT ε Option β

/-- The computation that ends in the given way. -/
def ended (x : Except ε β) : Partial ε β := ExceptT.mk (some x)

@[simp] theorem ended_ok_bind (b : β) (k : β → Partial ε γ) : ended (.ok b) >>= k = k b := rfl

@[simp] theorem ended_error_bind (e : ε) (k : β → Partial ε γ) :
    ended (.error e) >>= k = ended (.error e) := rfl

/-- Runs a body to a depth. Calls that lie deeper come to no end. -/
def unrolled (body : (α → Partial ε β) → α → Partial ε β) : Nat → α → Partial ε β
  | 0, _ => ExceptT.mk none
  | n + 1, x => body (unrolled body n) x

/-- The recursion computes `f`, and its measure drops at every call. No other calls are made than
those listed: the answer is the same if the others come to no end. -/
structure Descends (body : (α → Partial ε β) → α → Partial ε β) (f : α → Except ε β)
    (calls : α → List α) (measure : α → Nat × Nat) : Prop where
  answers : ∀ x g, (∀ y ∈ calls x, g y = ended (f y)) → body g x = ended (f x)
  drops : ∀ x, ∀ y ∈ calls x, Prod.Lex (· < ·) (· < ·) (measure y) (measure x)

/-- **Termination.** -/
theorem Descends.exists_depth {body : (α → Partial ε β) → α → Partial ε β} {f : α → Except ε β}
    {calls : α → List α} {measure : α → Nat × Nat} (h : Descends body f calls measure) (x : α) :
    ∃ n, ∀ m ≥ n, unrolled body m x = ended (f x) := by
  rw [← Filter.eventually_atTop]
  have wf : WellFounded fun y x => Prod.Lex (· < ·) (· < ·) (measure y) (measure x) :=
    InvImage.wf measure (Prod.lex Nat.lt_wfRel Nat.lt_wfRel).wf
  induction x using wf.induction with
  | _ x ih =>
    -- the calls are finitely many, so one depth is enough for all of them
    have calls_end : ∀ᶠ n in Filter.atTop, ∀ y ∈ calls x, unrolled body n y = ended (f y) :=
      (Filter.eventually_all_finite (calls x).finite_toSet).2 fun y hy => ih y (h.drops x y hy)
    obtain ⟨n, hn⟩ := Filter.eventually_atTop.1 calls_end
    refine Filter.eventually_atTop.2 ⟨n + 1, fun m hm => ?_⟩
    obtain ⟨k, rfl⟩ : ∃ k, m = k + 1 := ⟨m - 1, by omega⟩
    exact h.answers x _ (hn k (by omega))

end Recursion

/-! ## The recursion of unification -/

/-- The body of unification: it calls itself on the arguments of two function types, and on their
returns as rewritten by the answer. -/
def unifyBody (call : Ty × Ty → Partial UnifyStop Subst) : Ty × Ty → Partial UnifyStop Subst
  | (.const m, .const n) =>
    ended (if m = n then .ok ∅ else .error (.error (.mismatch (.const m) (.const n))))
  | (.var v, t) => ended (bindVar v t)
  | (.arrow a r, .arrow b q) => do
    let s₁ ← call (a, b)
    let r' ← ended ((s₁.apply r).mapError .fault)
    let q' ← ended ((s₁.apply q).mapError .fault)
    let s₂ ← call (r', q')
    ended ((s₁.compose s₂).mapError .fault)
  | (t, .var v) => ended (bindVar v t)
  | (a, b) => ended (.error (.error (.mismatch a b)))

/-- The calls that unification makes for two types. -/
def unifyCalls : Ty × Ty → List (Ty × Ty)
  | (.arrow a r, .arrow b q) =>
    (a, b) :: match unify a b with
      | .error _ => []
      | .ok s₁ =>
        match s₁.apply r, s₁.apply q with
        | .ok r', .ok q' => [(r', q')]
        | _, _ => []
  | _ => []

/-- The number of distinct variables, and the size of the first type. -/
def unifyMeasure (c : Ty × Ty) : Nat × Nat := (distinct (c.1.vars ++ c.2.vars), c.1.size)

variable {a r b q : Ty}

theorem mem_unifyCalls_arrow {c : Ty × Ty} :
    c ∈ unifyCalls (.arrow a r, .arrow b q) ↔ c = (a, b) ∨
      ∃ s₁ r' q', unify a b = .ok s₁ ∧ s₁.apply r = .ok r' ∧ s₁.apply q = .ok q' ∧
        c = (r', q') := by
  rw [unifyCalls, List.mem_cons]
  refine or_congr_right ?_
  cases unify a b with
  | error e => simp
  | ok s₁ => cases hr : s₁.apply r <;> cases hq : s₁.apply q <;> simp [hr, hq]

theorem unifyBody_arrow {g : Ty × Ty → Partial UnifyStop Subst}
    (hg : ∀ c ∈ unifyCalls (.arrow a r, .arrow b q), g c = ended (unify c.1 c.2)) :
    unifyBody g (.arrow a r, .arrow b q) = ended (unify (.arrow a r) (.arrow b q)) := by
  have args := hg (a, b) (mem_unifyCalls_arrow.2 (.inl rfl))
  rw [unifyBody, unify_arrow, args]
  cases h₁ : unify a b with
  | error e => rfl
  | ok s₁ =>
    rw [ended_ok_bind, ok_bind]
    cases hr : s₁.apply r with
    | error f => rfl
    | ok r' =>
      cases hq : s₁.apply q with
      | error f => rfl
      | ok q' =>
        have returns := hg (r', q') (mem_unifyCalls_arrow.2 (.inr ⟨s₁, r', q', h₁, hr, hq, rfl⟩))
        simp only [mapError_ok, ended_ok_bind, ok_bind, returns]
        cases unify r' q' <;> rfl

theorem unify_descends : Descends unifyBody (fun c => unify c.1 c.2) unifyCalls unifyMeasure where
  answers := by
    rintro ⟨a, b⟩ g hg
    show unifyBody g (a, b) = ended (unify a b)
    induction a, b using unify_induction with
    | const m n => rw [unify_const, unifyBody]
    | var v t => rw [unify_var, unifyBody]
    | var' t v ht =>
      rw [unify_var_right ht]
      cases t with
      | var w => exact absurd rfl (ht w)
      | missing | const | arrow | foreign => rfl
    | arrow a r b q => exact unifyBody_arrow hg
    | clash a b h =>
      rw [unify_clash h, unifyBody]
      · exact h.const
      · exact h.left
      · exact h.arrow
      · exact h.right
  drops := by
    rintro ⟨a, b⟩ c hc
    cases a with
    | arrow a r =>
      cases b with
      | arrow b q =>
        rcases mem_unifyCalls_arrow.1 hc with rfl | ⟨s₁, r', q', h₁, hr, hq, rfl⟩
        · exact measure_args a r b q
        · exact measure_returns (.of_unify h₁) hr hq
      | missing | const | var | foreign => cases hc
    | missing | const | var | foreign => cases hc

/-- **Unification terminates.** At every call that unification makes, the number of distinct
variables in both types and the size of the first one drop lexicographically. So for all types,
missing ones and those of a foreign kind included, unification ends at some depth of calls.

At the call for the returns of two function types, either nothing was bound to unify the arguments,
and the returns are as they were, and smaller; or something was bound, and the rewritten returns
have fewer distinct variables than the function types. -/
theorem unify_terminates :
    Descends unifyBody (fun c => unify c.1 c.2) unifyCalls unifyMeasure ∧
    (∀ a b : Ty, ∃ n, ∀ m ≥ n, unrolled unifyBody m (a, b) = ended (unify a b)) ∧
    ∀ (a r b q : Ty) (s₁ : Subst), unify a b = .ok s₁ →
      (s₁ = ∅ ∧ s₁.apply r = .ok r ∧ s₁.apply q = .ok q ∧
        r.size < (Ty.arrow a r).size ∧ q.size < (Ty.arrow b q).size) ∨
      (s₁ ≠ ∅ ∧ ∀ r' q', s₁.apply r = .ok r' → s₁.apply q = .ok q' →
        distinct (r'.vars ++ q'.vars) < distinct ((Ty.arrow a r).vars ++ (Ty.arrow b q).vars)) := by
  refine ⟨unify_descends, fun a b => unify_descends.exists_depth (a, b), fun a r b q s₁ h₁ => ?_⟩
  by_cases he : s₁ = ∅
  · subst he
    refine .inl ⟨rfl, Subst.apply_empty r, Subst.apply_empty q, ?_, ?_⟩
    · simp only [Ty.size]
      omega
    · simp only [Ty.size]
      omega
  · exact .inr ⟨he, fun r' q' hr hq => distinct_returns_lt (.of_unify h₁) hr hq he⟩

/-- To unify `a → a → a` with `(b → b) → c`, the variable `a` is bound to `b → b`. The first return
then is larger than the whole first type, but of the three variables only two are left. -/
theorem unify_terminates_growing :
    unify (.var 0) (.arrow (.var 1) (.var 1)) = .ok (.singleton 0 (.arrow (.var 1) (.var 1))) ∧
    ∃ r', (Subst.singleton 0 (.arrow (.var 1) (.var 1))).apply (.arrow (.var 0) (.var 0)) = .ok r' ∧
      (Ty.arrow (.var 0) (.arrow (.var 0) (.var 0))).size < r'.size ∧
        distinct (r'.vars ++ (Ty.var 2).vars) < 3 := by
  obtain ⟨-, -, returns⟩ := unify_terminates
  have args : unify (.var 0) (.arrow (.var 1) (.var 1)) =
      .ok (.singleton 0 (.arrow (.var 1) (.var 1))) := by cbv
  have grown : (Subst.singleton 0 (.arrow (.var 1) (.var 1))).apply (.arrow (.var 0) (.var 0)) =
      .ok (.arrow (.arrow (.var 1) (.var 1)) (.arrow (.var 1) (.var 1))) := by cbv
  refine ⟨args, _, grown, by decide, ?_⟩
  rcases returns (.var 0) (.arrow (.var 0) (.var 0)) (.arrow (.var 1) (.var 1)) (.var 2) _ args with
    ⟨-, same, -⟩ | ⟨-, fewer⟩
  · rw [grown] at same
    cases same
  · exact fewer _ _ grown (by cbv)

end Monotype
