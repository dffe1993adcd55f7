import Monotype.Constraint
import Monotype.Expr.Names
import Monotype.Proofs.Resolution

/-!
# Generated equations

What `generate` collects from an expression, as long as the ids do not run out.

* `generate_spans`: the supply grows by at most the demand of the expression, and all variables of
the equations and of the type occur in the environment or were handed out on the way. *
`generate_subst`: collecting equations in an instance of the environment gives the instances of the
equations, if the variables still to be handed out are left alone.

Both go through `andThen`, the only way in which parts are put together.
-/

namespace Monotype

variable {α : Type}

/-! ## Equations by form -/

theorem generate_fn (env : Env) (n : Supply) (l : α) (x : String) (body : Expr α) :
    generate env n (.fn l x body) =
      ((generate (env.declare x (.var n.next)) n.fresh.2 body).inside .body).andThen fun t n' =>
        .done (.arrow (.var n.next) t) n' := rfl

theorem generate_call (env : Env) (n : Supply) (l : α) (callee arg : Expr α) :
    generate env n (.call l callee arg) =
      ((generate env n callee).inside .callee).andThen fun ft n =>
        ((generate env n arg).inside .arg).andThen fun t n =>
          .require ft (.arrow t (.var n.next)) .call (.var n.next) n.fresh.2 := rfl

theorem generate_cond (env : Env) (n : Supply) (l : α) (test yes no : Expr α) :
    generate env n (.cond l test yes no) =
      ((generate env n test).inside .test).andThen fun ct n =>
        (Generated.require ct .bool .condition ct n).andThen fun _ n =>
          ((generate env n yes).inside .yes).andThen fun yt n =>
            ((generate env n no).inside .no).andThen fun nt n =>
              .require yt nt .branches nt n := rfl

/-! ## Room in the supply -/

/-- The supply can hand out `k` more ids before the least follows the greatest. -/
def Supply.Room (n : Supply) (k : Nat) : Prop := n.next.toInt + k < 2 ^ 63

theorem Supply.room_of_le {n : Supply} {k : Nat} (h : n.next.toInt + k ≤ 2 ^ 63 - 1) :
    n.Room k := by
  unfold Supply.Room
  omega

theorem Supply.Room.mono {n : Supply} {j k : Nat} (h : n.Room k) (le : j ≤ k) : n.Room j := by
  unfold Supply.Room at *
  omega

theorem Supply.Room.toInt_next_fresh {n : Supply} {k : Nat} (h : n.Room (k + 1)) :
    n.fresh.2.next.toInt = n.next.toInt + 1 := by
  unfold Supply.Room at h
  have low := n.next.le_toInt
  show (n.next + 1).toInt = _
  rw [Int64.toInt_add, Int64.toInt_one, Int.bmod_eq_of_le]
  · omega
  · omega

theorem Supply.Room.fresh {n : Supply} {k : Nat} (h : n.Room (k + 1)) : n.fresh.2.Room k := by
  have := h.toInt_next_fresh
  unfold Supply.Room at *
  omega

/-! ## Scope -/

namespace Env

/-- The variable occurs in a declared type. -/
def Mentions (env : Env) (v : VarId) : Prop := ∃ x t, env.find? x = some t ∧ v ∈ t.vars

/-- All declared types are plain, and their variables are below `n`. -/
def FreshFor (n : VarId) (env : Env) : Prop :=
  env.Forall fun t => t.IsPlain ∧ ∀ v ∈ t.vars, v < n

variable {env : Env} {n : VarId}

theorem FreshFor.plain (h : env.FreshFor n) : env.Forall Ty.IsPlain := fun x t ht => (h x t ht).1

theorem IsFresh.isComplete (h : env.IsFresh) : env.Forall Ty.IsComplete := fun x t ht =>
  (h x t ht).1.isComplete

theorem FreshFor.lt (h : env.FreshFor n) {v : VarId} (hv : env.Mentions v) :
    v.toInt < n.toInt := by
  obtain ⟨x, t, ht, hv⟩ := hv
  exact Int64.lt_iff_toInt_lt.1 ((h x t ht).2 v hv)

theorem FreshFor.mono (h : env.FreshFor n) {m : VarId} (le : n.toInt ≤ m.toInt) :
    env.FreshFor m := by
  refine fun x t ht => ⟨(h x t ht).1, fun v hv => Int64.lt_iff_toInt_lt.2 ?_⟩
  have := h.lt ⟨x, t, ht, hv⟩
  omega

theorem forall_declare {p : Ty → Prop} (h : env.Forall p) {x : String} {t : Ty} (ht : p t) :
    (env.declare x t).Forall p := by
  intro y u hu
  rw [find?_declare] at hu
  split at hu
  · cases hu
    exact ht
  · exact h y u hu

/-- After a parameter was declared with the next variable, the one after it is the next. -/
theorem FreshFor.declare {n : Supply} (h : env.FreshFor n.next) {k : Nat} (room : n.Room (k + 1))
    (x : String) : (env.declare x (.var n.next)).FreshFor n.fresh.2.next := by
  have hnext := room.toInt_next_fresh
  refine forall_declare (h.mono (by omega)) ⟨trivial, fun v hv => ?_⟩
  obtain rfl : v = n.next := by simpa [Ty.vars] using hv
  exact Int64.lt_iff_toInt_lt.2 (by omega)

theorem mentions_declare {x : String} {v w : VarId} (h : (env.declare x (.var v)).Mentions w) :
    w = v ∨ env.Mentions w := by
  obtain ⟨y, t, ht, hw⟩ := h
  rw [find?_declare] at ht
  split at ht
  · cases ht
    exact .inl (by simpa [Ty.vars] using hw)
  · exact .inr ⟨y, t, ht, hw⟩

/-- The scope with a parameter lies in a scope in whose range the parameter is. -/
theorem scope_of_declare {x : String} {v w : VarId} {lo lo' hi : Int}
    (h : (env.declare x (.var v)).Mentions w ∨ (lo ≤ w.toInt ∧ w.toInt < hi)) (hlo : lo' ≤ lo)
    (hv : lo' ≤ v.toInt) (hv' : v.toInt < hi) :
    env.Mentions w ∨ (lo' ≤ w.toInt ∧ w.toInt < hi) := by
  rcases h with hm | hr
  · rcases mentions_declare hm with rfl | hm
    · exact .inr ⟨hv, hv'⟩
    · exact .inl hm
  · exact .inr ⟨by omega, hr.2⟩

end Env

/-- The type is plain, and each of its variables occurs in the environment or lies in a range. -/
structure Ty.InScope (env : Env) (lo hi : Int) (t : Ty) : Prop where
  plain : t.IsPlain
  vars : ∀ v ∈ t.vars, env.Mentions v ∨ (lo ≤ v.toInt ∧ v.toInt < hi)

namespace Ty.InScope

variable {env : Env} {lo hi lo' hi' : Int} {t a r : Ty}

theorem mono (h : t.InScope env lo hi) (hlo : lo' ≤ lo) (hhi : hi ≤ hi') :
    t.InScope env lo' hi' := by
  refine ⟨h.plain, fun v hv => (h.vars v hv).imp_right fun hv => ?_⟩
  omega

theorem const (c : String) : (Ty.const c).InScope env lo hi :=
  ⟨trivial, fun v hv => by cases hv⟩

theorem var {v : VarId} (hlo : lo ≤ v.toInt) (hhi : v.toInt < hi) :
    (Ty.var v).InScope env lo hi := by
  refine ⟨trivial, fun w hw => .inr ?_⟩
  obtain rfl : w = v := by simpa [Ty.vars] using hw
  exact ⟨hlo, hhi⟩

theorem arrow (ha : a.InScope env lo hi) (hr : r.InScope env lo hi) :
    (Ty.arrow a r).InScope env lo hi := by
  refine ⟨⟨ha.plain, hr.plain⟩, fun v hv => ?_⟩
  exact (List.mem_append.1 hv).elim (ha.vars v) (hr.vars v)

theorem of_declare {x : String} {v : VarId} (h : t.InScope (env.declare x (.var v)) lo hi)
    (hlo : lo' ≤ lo) (hv : lo' ≤ v.toInt) (hv' : v.toInt < hi) : t.InScope env lo' hi :=
  ⟨h.plain, fun w hw => Env.scope_of_declare (h.vars w hw) hlo hv hv'⟩

theorem lt {n : VarId} (h : t.InScope env lo hi) (hf : env.FreshFor n) (hn : n.toInt ≤ hi)
    {v : VarId} (hv : v ∈ t.vars) : v.toInt < hi := by
  rcases h.vars v hv with hm | hr
  · have := hf.lt hm
    omega
  · exact hr.2

end Ty.InScope

namespace Generated

/-- The supply starts at `n` and hands out at most `k` ids, and all types are in the scope of the
environment and the range from `lo` to the supply that is left. -/
structure Spans (env : Env) (lo : Int) (n : Supply) (k : Nat) (g : Generated) : Prop where
  le : n.next.toInt ≤ g.supply.next.toInt
  le_add : g.supply.next.toInt ≤ n.next.toInt + k
  constraints : ∀ c ∈ g.constraints, c.left.InScope env lo g.supply.next.toInt ∧
    c.right.InScope env lo g.supply.next.toInt
  result : ∀ t, g.result = .ok t → t.InScope env lo g.supply.next.toInt

variable {env : Env} {lo lo' : Int} {n : Supply} {j k : Nat} {g : Generated}

@[simp] theorem supply_inside (step : Step) (g : Generated) : (g.inside step).supply = g.supply :=
  rfl

theorem Spans.mono (h : g.Spans env lo n j) (hlo : lo' ≤ lo) (hk : j ≤ k) :
    g.Spans env lo' n k := by
  have le_add := h.le_add
  refine ⟨h.le, by omega, fun c hc => ⟨?_, ?_⟩, fun t ht => ?_⟩
  · exact (h.constraints c hc).1.mono hlo (Int.le_refl _)
  · exact (h.constraints c hc).2.mono hlo (Int.le_refl _)
  · exact (h.result t ht).mono hlo (Int.le_refl _)

theorem Spans.inside (h : g.Spans env lo n k) (step : Step) :
    (g.inside step).Spans env lo n k := by
  refine ⟨h.le, h.le_add, fun c hc => ?_, fun t ht => h.result t (mapError_eq_ok_iff.1 ht)⟩
  obtain ⟨c', hc', rfl⟩ := List.mem_map.1 hc
  exact h.constraints c' hc'

theorem Spans.andThen {f : Ty → Supply → Generated} (h : g.Spans env lo n j)
    (hf : ∀ t, g.result = .ok t → (f t g.supply).Spans env lo g.supply k) :
    (g.andThen f).Spans env lo n (j + k) := by
  unfold Generated.andThen
  have le_add := h.le_add
  split
  next b hb => exact ⟨h.le, by omega, h.constraints, h.result⟩
  next t ht =>
    have hk := hf t ht
    have le := h.le
    have le' := hk.le
    have le_add' := hk.le_add
    refine ⟨by dsimp only; omega, by dsimp only; omega, fun c hc => ?_, hk.result⟩
    rcases List.mem_append.1 hc with hc | hc
    · exact ⟨(h.constraints c hc).1.mono (Int.le_refl _) le',
        (h.constraints c hc).2.mono (Int.le_refl _) le'⟩
    · exact hk.constraints c hc

theorem Spans.room (h : g.Spans env lo n j) (room : n.Room (j + k)) : g.supply.Room k := by
  have le_add := h.le_add
  unfold Supply.Room at *
  omega

theorem spans_done {t : Ty} (ht : t.InScope env lo n.next.toInt) : (done t n).Spans env lo n 0 :=
  ⟨Int.le_refl _, by simp [done], fun _ hc => (nomatch hc), fun u hu => by cases hu; exact ht⟩

theorem spans_stuck (e : InferError) (n : Supply) : (stuck e n).Spans env lo n 0 :=
  ⟨Int.le_refl _, by simp [stuck], fun _ hc => (nomatch hc), fun _ hu => (nomatch hu)⟩

theorem spans_require {l r t : Ty} (reason : Reason) (hl : l.InScope env lo n.next.toInt)
    (hr : r.InScope env lo n.next.toInt) (ht : t.InScope env lo n.next.toInt) :
    (require l r reason t n).Spans env lo n 0 := by
  refine ⟨Int.le_refl _, by simp [require], fun c hc => ?_, fun u hu => by cases hu; exact ht⟩
  obtain rfl := List.mem_singleton.1 hc
  exact ⟨hl, hr⟩

/-- The equation of a call takes one more variable, for the type that is returned. -/
theorem spans_require_fresh {l t : Ty} (room : n.Room 1) (hlo : lo ≤ n.next.toInt)
    (hl : l.InScope env lo n.next.toInt) (ht : t.InScope env lo n.next.toInt) :
    (require l (.arrow t (.var n.next)) .call (.var n.next) n.fresh.2).Spans env lo n 1 := by
  have hnext := room.toInt_next_fresh (k := 0)
  have hv : (Ty.var n.next).InScope env lo n.fresh.2.next.toInt := .var hlo (by omega)
  have h := spans_require .call (hl.mono (Int.le_refl _) (by omega))
    (.arrow (ht.mono (Int.le_refl _) (by omega)) hv) hv
  exact ⟨by show n.next.toInt ≤ n.fresh.2.next.toInt; omega,
    by show n.fresh.2.next.toInt ≤ _; omega, h.constraints, h.result⟩

end Generated

open Generated

/-- **Scope of the equations.** -/
theorem generate_spans {env : Env} {n : Supply} {e : Expr α} (plain : env.Forall Ty.IsPlain)
    (room : n.Room e.demand) :
    (generate env n e).Spans env n.next.toInt n e.demand := by
  induction e generalizing env n with
  | missing | foreign => exact spans_stuck _ n
  | int | bool => exact spans_done (.const _)
  | var l x =>
    unfold generate
    split
    · exact spans_stuck _ n
    next t ht => exact spans_done ⟨plain x t ht, fun v hv => .inl ⟨x, t, ht, hv⟩⟩
  | fn l x body ih =>
    have hnext := room.toInt_next_fresh
    have plain' : (env.declare x (.var n.next)).Forall Ty.IsPlain :=
      Env.forall_declare plain trivial
    have hb := ih plain' room.fresh
    have le := hb.le
    have le_add := hb.le_add
    -- the variable of the parameter leaves the environment and joins the range
    have hb' : (generate (env.declare x (.var n.next)) n.fresh.2 body).Spans env n.next.toInt n
        (body.demand + 1) := by
      refine ⟨by omega, by omega, fun c hc => ⟨?_, ?_⟩, fun t ht => ?_⟩
      · exact (hb.constraints c hc).1.of_declare (by omega) (Int.le_refl _) (by omega)
      · exact (hb.constraints c hc).2.of_declare (by omega) (Int.le_refl _) (by omega)
      · exact (hb.result t ht).of_declare (by omega) (Int.le_refl _) (by omega)
    refine (hb'.inside .body).andThen (k := 0) fun t ht => spans_done (.arrow ?_ ?_)
    · exact .var (Int.le_refl _) (by rw [supply_inside]; omega)
    · exact (hb'.inside .body).result t ht
  | call l callee arg ihf iha =>
    simp only [Expr.demand, Nat.add_assoc] at room ⊢
    have hf := (ihf plain (room.mono (by omega))).inside .callee
    refine hf.andThen fun ft hft => ?_
    have room := hf.room room
    have ha := ((iha plain (room.mono (by omega))).mono hf.le (Nat.le_refl _)).inside .arg
    refine ha.andThen fun t ht => spans_require_fresh (ha.room room) ?_ ?_ (ha.result t ht)
    · exact Int.le_trans hf.le ha.le
    · exact (hf.result ft hft).mono (Int.le_refl _) ha.le
  | cond l test yes no ihc ihy ihn =>
    simp only [Expr.demand, Nat.add_assoc] at room ⊢
    have hc := (ihc plain (room.mono (by omega))).inside .test
    refine hc.andThen fun ct hct => ?_
    have hb := spans_require .condition (hc.result ct hct) (.const "bool")
      (hc.result ct hct)
    refine Spans.mono (hb.andThen fun _ _ => ?_) (Int.le_refl _) (Nat.le_of_eq (Nat.zero_add _))
    have room := hc.room room
    have hy := ((ihy plain (room.mono (by omega))).mono hc.le (Nat.le_refl _)).inside .yes
    refine hy.andThen fun yt hyt => ?_
    have room := hy.room room
    have hn := ((ihn plain room).mono (Int.le_trans hc.le hy.le) (Nat.le_refl _)).inside .no
    refine hn.andThen (k := 0) fun nt hnt => ?_
    exact spans_require .branches ((hy.result yt hyt).mono (Int.le_refl _) hn.le) (hn.result nt hnt)
      (hn.result nt hnt)

/-- The two parts of a call, each with room for what it needs. One id is left for the call. -/
theorem spans_call {env : Env} {n : Supply} {l : α} {callee arg : Expr α}
    (plain : env.Forall Ty.IsPlain) (room : n.Room (Expr.call l callee arg).demand) :
    n.Room callee.demand ∧ (generate env n callee).Spans env n.next.toInt n callee.demand ∧
      (generate env n callee).supply.Room arg.demand ∧
      (generate env (generate env n callee).supply arg).Spans env
        (generate env n callee).supply.next.toInt (generate env n callee).supply arg.demand ∧
      (generate env (generate env n callee).supply arg).supply.Room 1 := by
  simp only [Expr.demand, Nat.add_assoc] at room
  have roomf := room.mono (Nat.le_add_right callee.demand _)
  have spansf := generate_spans plain roomf
  have room₁ := spansf.room room
  have rooma := room₁.mono (Nat.le_add_right arg.demand _)
  have spansa := generate_spans plain rooma
  exact ⟨roomf, spansf, rooma, spansa, spansa.room room₁⟩

/-- The three parts of a conditional, each with room for what it needs. -/
theorem spans_cond {env : Env} {n : Supply} {l : α} {test yes no : Expr α}
    (plain : env.Forall Ty.IsPlain) (room : n.Room (Expr.cond l test yes no).demand) :
    n.Room test.demand ∧ (generate env n test).Spans env n.next.toInt n test.demand ∧
      (generate env n test).supply.Room yes.demand ∧
      (generate env (generate env n test).supply yes).Spans env
        (generate env n test).supply.next.toInt (generate env n test).supply yes.demand ∧
      (generate env (generate env n test).supply yes).supply.Room no.demand := by
  simp only [Expr.demand, Nat.add_assoc] at room
  have roomc := room.mono (Nat.le_add_right test.demand _)
  have spansc := generate_spans plain roomc
  have room₁ := spansc.room room
  have roomy := room₁.mono (Nat.le_add_right yes.demand _)
  have spansy := generate_spans plain roomy
  exact ⟨roomc, spansc, roomy, spansy, spansy.room room₁⟩

/-! ## Instances -/

/-- The instance of an equation. -/
def Constraint.subst (θ : VarId → Ty) (c : Constraint) : Constraint :=
  { c with left := c.left.subst θ, right := c.right.subst θ }

namespace Generated

/-- The instances of all equations, and of the type. -/
def subst (θ : VarId → Ty) (g : Generated) : Generated :=
  ⟨g.constraints.map (·.subst θ), g.supply, g.result.map (·.subst θ)⟩

theorem subst_inside (θ : VarId → Ty) (step : Step) (g : Generated) :
    (g.subst θ).inside step = (g.inside step).subst θ := by
  unfold subst inside
  rw [List.map_map, List.map_map]
  cases g.result <;> rfl

theorem subst_andThen {θ : VarId → Ty} {g : Generated} {f f' : Ty → Supply → Generated}
    (h : ∀ t, g.result = .ok t → f' (t.subst θ) g.supply = (f t g.supply).subst θ) :
    (g.subst θ).andThen f' = (g.andThen f).subst θ := by
  unfold andThen
  cases hr : g.result with
  | error b => simp only [subst, hr, Except.map]
  | ok t =>
    have hres : (g.subst θ).result = .ok (t.subst θ) := by simp only [subst, hr, Except.map]
    rw [hres]
    dsimp only
    rw [show (g.subst θ).supply = g.supply from rfl, h t hr]
    simp only [subst, List.map_append]

end Generated

/-- **Equations of an instance.** -/
theorem generate_subst {env : Env} {n : Supply} {e : Expr α} {θ : VarId → Ty}
    (plain : env.Forall Ty.IsPlain) (room : n.Room e.demand)
    (fixed : ∀ v : VarId, n.next.toInt ≤ v.toInt → θ v = .var v) :
    generate (env.subst θ) n e = (generate env n e).subst θ := by
  induction e generalizing env n with
  | missing | foreign | int | bool => rfl
  | var l x =>
    simp only [generate, Env.find?_subst]
    cases env.find? x with
    | none => rfl
    | some t => rfl
  | fn l x body ih =>
    have hnext := room.toInt_next_fresh
    have hv := fixed n.next (Int.le_refl _)
    have plain' : (env.declare x (.var n.next)).Forall Ty.IsPlain :=
      Env.forall_declare plain trivial
    have hb := ih plain' room.fresh fun v hv => fixed v (by omega)
    rw [Env.subst_declare, Ty.subst, hv] at hb
    rw [generate_fn, generate_fn, hb, subst_inside]
    refine subst_andThen fun t _ => ?_
    show _ = done (.arrow (θ n.next) (t.subst θ)) _
    rw [hv]
    rfl
  | call l callee arg ihf iha =>
    obtain ⟨roomf, hf, rooma, ha, -⟩ := spans_call plain room
    rw [generate_call, generate_call, ihf plain roomf fixed, subst_inside]
    refine subst_andThen fun ft _ => ?_
    rw [supply_inside, iha plain rooma fun v hv => fixed v (Int.le_trans hf.le hv), subst_inside]
    refine subst_andThen fun t _ => ?_
    have hv := fixed (generate env (generate env n callee).supply arg).supply.next
      (Int.le_trans hf.le ha.le)
    show _ = Generated.subst θ (require ft _ .call (.var _) _)
    simp only [Generated.subst, require, Constraint.subst, Ty.subst, List.map, Except.map, hv,
      supply_inside]
  | cond l test yes no ihc ihy ihn =>
    obtain ⟨roomc, hc, roomy, hy, roomn⟩ := spans_cond plain room
    rw [generate_cond, generate_cond, ihc plain roomc fixed, subst_inside]
    refine subst_andThen fun ct _ => ?_
    show (Generated.subst θ (require ct .bool .condition ct _)).andThen _ = _
    refine subst_andThen fun _ _ => ?_
    show ((generate _ (generate env n test).supply yes).inside .yes).andThen _ = _
    rw [ihy plain roomy fun v hv => fixed v (Int.le_trans hc.le hv), subst_inside]
    refine subst_andThen fun yt _ => ?_
    have le := Int.le_trans hc.le hy.le
    rw [supply_inside, ihn plain roomn fun v hv => fixed v (Int.le_trans le hv), subst_inside]
    exact subst_andThen fun nt _ => rfl

end Monotype
