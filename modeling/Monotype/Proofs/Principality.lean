import Monotype.Proofs.Agreement

/-!
# Principal types

Inference finds a type whenever there is one, and the type it finds has all others as instances.

The equations that are collected from an expression are complete: if the expression has a type in an
instance of the environment, that instance can be continued, by values for the variables handed out
on the way, to one that satisfies all equations (`completeOn`). An instance that satisfies all
equations solves the substitution that comes from solving them (`exists_inferBySolving`), so it is
an instance of that substitution.
-/

namespace Monotype

variable {α : Type} {env : Env} {n : Supply} {θ η : VarId → Ty} {σ τ : Ty}

/-! ## Continued instances -/

/-- The instance `η` has the values of `θ` below the variable `n`. -/
def Continues (n : VarId) (θ η : VarId → Ty) : Prop := ∀ v : VarId, v.toInt < n.toInt → η v = θ v

theorem Continues.trans {n m : VarId} {ζ : VarId → Ty} (h : Continues n θ η) (h' : Continues m η ζ)
    (le : n.toInt ≤ m.toInt) : Continues n θ ζ := by
  intro v hv
  rw [h' v (by omega), h v hv]

/-- The instance with another value for one variable. -/
def assign (θ : VarId → Ty) (v : VarId) (t : Ty) : VarId → Ty := fun w => if w = v then t else θ w

@[simp] theorem assign_self (θ : VarId → Ty) (v : VarId) (t : Ty) : assign θ v t v = t := if_pos rfl

theorem continues_assign (θ : VarId → Ty) (v : VarId) (t : Ty) : Continues v θ (assign θ v t) := by
  intro w hw
  refine if_neg fun e => ?_
  rw [e] at hw
  omega

theorem Env.FreshFor.subst_eq {o : VarId} (fresh : env.FreshFor o) (h : Continues o θ η) :
    env.subst η = env.subst θ :=
  Env.subst_congr fun x t ht => Ty.subst_congr fun v hv => h v (fresh.lt ⟨x, t, ht, hv⟩)

/-! ## Completeness of the equations -/

namespace Generated

/-- The instance satisfies all equations and makes the type `τ`. -/
structure Admits (θ : VarId → Ty) (τ : Ty) (g : Generated) : Prop where
  result : ∃ t, g.result = .ok t ∧ t.subst θ = τ
  equations : ∀ c ∈ g.constraints, c.left.subst θ = c.right.subst θ

variable {g : Generated} {k : Nat}

theorem admits_done {t : Ty} (ht : t.subst θ = τ) : (done t n).Admits θ τ :=
  ⟨⟨t, rfl, ht⟩, fun _ hc => nomatch hc⟩

theorem admits_require {l r t : Ty} {reason : Reason} (h : l.subst θ = r.subst θ)
    (ht : t.subst θ = τ) : (require l r reason t n).Admits θ τ := by
  refine ⟨⟨t, rfl, ht⟩, fun c hc => ?_⟩
  obtain rfl := List.mem_singleton.1 hc
  exact h

theorem Admits.inside (h : g.Admits θ τ) (step : Step) : (g.inside step).Admits θ τ := by
  obtain ⟨t, hr, ht⟩ := h.result
  refine ⟨⟨t, mapError_eq_ok_iff.2 hr, ht⟩, fun c hc => ?_⟩
  obtain ⟨c', hc', rfl⟩ := List.mem_map.1 hc
  exact h.equations c' hc'

theorem Admits.andThen {f : Ty → Supply → Generated} (h : g.Admits θ σ)
    (hf : ∀ t, t.subst θ = σ → (f t g.supply).Admits θ τ) : (g.andThen f).Admits θ τ := by
  obtain ⟨t, hr, ht⟩ := h.result
  obtain ⟨result, equations⟩ := hf t ht
  unfold Generated.andThen
  rw [hr]
  refine ⟨result, fun c hc => ?_⟩
  exact (List.mem_append.1 hc).elim (h.equations c) (equations c)

/-- Only the variables handed out so far matter. -/
theorem Admits.congr (h : g.Admits θ τ) (spans : g.Spans env n.next.toInt n k)
    (fresh : env.FreshFor n.next) (agree : Continues g.supply.next θ η) : g.Admits η τ := by
  have same : ∀ {t : Ty}, t.InScope env n.next.toInt g.supply.next.toInt → t.subst η = t.subst θ :=
    fun ht => Ty.subst_congr fun v hv => agree v (ht.lt fresh spans.le hv)
  obtain ⟨t, hr, ht⟩ := h.result
  refine ⟨⟨t, hr, by rw [same (spans.result t hr), ht]⟩, fun c hc => ?_⟩
  rw [same (spans.constraints c hc).1, same (spans.constraints c hc).2, h.equations c hc]

end Generated

open Generated

/-- If the expression has a type in an instance of the environment, the instance can be continued to
one that satisfies all its equations. -/
def CompleteOn (e : Expr α) : Prop :=
  ∀ {env : Env} {n : Supply} {θ : VarId → Ty} {τ : Ty}, env.FreshFor n.next → n.Room e.demand →
    HasType (env.subst θ) e τ → ∃ η, Continues n.next θ η ∧ (generate env n e).Admits η τ

theorem completeOn_var (l : α) (x : String) : CompleteOn (.var l x) := by
  intro env n θ τ _ _ h
  cases h with
  | var hx =>
    rw [Env.find?_subst] at hx
    obtain ⟨t, ht, rfl⟩ := Option.map_eq_some_iff.1 hx
    refine ⟨θ, fun _ _ => rfl, ?_⟩
    simp only [generate, ht]
    exact admits_done rfl

theorem completeOn_fn {body : Expr α} (ih : CompleteOn body) (l : α) (x : String) :
    CompleteOn (.fn l x body) := by
  intro env n θ τ fresh room h
  cases h with
  | @fn _ _ _ _ a r hb =>
    have hnext := room.toInt_next_fresh
    have agree := continues_assign θ n.next a
    have henv : (env.declare x (.var n.next)).subst (assign θ n.next a) =
        (env.subst θ).declare x a := by
      rw [Env.subst_declare, fresh.subst_eq agree, Ty.subst, assign_self]
    rw [← henv] at hb
    obtain ⟨η, hη, admits⟩ := ih (fresh.declare room x) room.fresh hb
    refine ⟨η, agree.trans hη (by omega), ?_⟩
    rw [generate_fn]
    refine (admits.inside .body).andThen fun t ht => admits_done ?_
    rw [Ty.subst, Ty.subst, ht, hη n.next (by omega), assign_self]

theorem completeOn_call {callee arg : Expr α} (ihf : CompleteOn callee) (iha : CompleteOn arg)
    (l : α) : CompleteOn (.call l callee arg) := by
  intro env n θ τ fresh room h
  cases h with
  | @call _ _ _ _ a _ hf ha =>
    obtain ⟨roomf, spansf, rooma, spansa, -⟩ := spans_call fresh.plain room
    have fresh' := fresh.mono spansf.le
    obtain ⟨η₁, h₁, admitsf⟩ := ihf fresh roomf hf
    rw [← fresh.subst_eq h₁] at ha
    obtain ⟨η₂, h₂, admitsa⟩ := iha fresh' rooma ha
    -- the variable of the call gets the type that the call has
    have h₃ := continues_assign η₂ (generate env (generate env n callee).supply arg).supply.next τ
    refine ⟨_, (h₁.trans h₂ spansf.le).trans h₃ (Int.le_trans spansf.le spansa.le), ?_⟩
    rw [generate_call]
    refine ((admitsf.congr spansf fresh (h₂.trans h₃ spansa.le)).inside .callee).andThen
      fun ft hft => ?_
    refine ((admitsa.congr spansa fresh' h₃).inside .arg).andThen fun t ht => ?_
    have hv : (Ty.var (generate env (generate env n callee).supply arg).supply.next).subst
        (assign η₂ _ τ) = τ := assign_self ..
    refine admits_require ?_ hv
    rw [hft, Ty.subst, ht]
    exact congrArg (Ty.arrow a) hv.symm

theorem completeOn_cond {test yes no : Expr α} (ihc : CompleteOn test) (ihy : CompleteOn yes)
    (ihn : CompleteOn no) (l : α) : CompleteOn (.cond l test yes no) := by
  intro env n θ τ fresh room h
  cases h with
  | cond hc hy hn =>
    obtain ⟨roomc, spansc, roomy, spansy, roomn⟩ := spans_cond fresh.plain room
    have freshy := fresh.mono spansc.le
    have freshn := freshy.mono spansy.le
    obtain ⟨η₁, h₁, admitsc⟩ := ihc fresh roomc hc
    rw [← fresh.subst_eq h₁] at hy hn
    obtain ⟨η₂, h₂, admitsy⟩ := ihy freshy roomy hy
    rw [← freshy.subst_eq h₂] at hn
    obtain ⟨η₃, h₃, admitsn⟩ := ihn freshn roomn hn
    refine ⟨η₃, (h₁.trans h₂ spansc.le).trans h₃ (Int.le_trans spansc.le spansy.le), ?_⟩
    rw [generate_cond]
    refine ((admitsc.congr spansc fresh (h₂.trans h₃ spansy.le)).inside .test).andThen
      fun ct hct => ?_
    refine (admits_require hct rfl).andThen fun _ _ => ?_
    refine ((admitsy.congr spansy freshy h₃).inside .yes).andThen fun yt hyt => ?_
    refine (admitsn.inside .no).andThen fun nt hnt => ?_
    exact admits_require (hyt.trans hnt.symm) hnt

/-- **Completeness of the equations.** -/
theorem completeOn (e : Expr α) : CompleteOn e := by
  induction e with
  | missing | foreign =>
    intro env n θ τ fresh room h
    cases h
  | int | bool =>
    intro env n θ τ fresh room h
    cases h
    exact ⟨θ, fun _ _ => rfl, admits_done rfl⟩
  | var l x => exact completeOn_var l x
  | fn l x body ih => exact completeOn_fn ih l x
  | call l callee arg ihf iha => exact completeOn_call ihf iha l
  | cond l test yes no ihc ihy ihn => exact completeOn_cond ihc ihy ihn l

/-- **Completeness of solving.** -/
theorem exists_inferBySolving {e : Expr α} (fresh : env.FreshFor n.next) (room : n.Room e.demand)
    (h : HasType (env.subst θ) e τ) :
    ∃ t s η, inferBySolving env n e = .ok (t, s) ∧ (∃ vs, s.IsSolved vs) ∧ t.IsPlain ∧
      s.Solves η ∧ t.subst η = τ ∧ Continues n.next θ η := by
  obtain ⟨η, hη, ⟨t, hresult, ht⟩, equations⟩ := completeOn e fresh room h
  have spans := generate_spans fresh.plain room
  obtain ⟨vs, hempty, within, -⟩ := spans.within (.empty env _ _)
  obtain ⟨s, hsolve, sol⟩ := exists_solve hempty within (Subst.solves_empty η) equations
  have hrun := Generated.run_eq_ok_iff.2 ⟨hresult, hsolve⟩
  obtain ⟨ws, hws⟩ := (spans.solvedIn_of_run (.empty env _ _) hrun).isSolved
  have happly := hws.apply_eq_once t
  refine ⟨s.once t, s, η, ?_, ⟨ws, hws⟩,
    hws.isPlain_once (spans.result t hresult).plain, sol, ?_, hη⟩
  · rw [inferBySolving_eq, hrun, ok_bind, happly]
    rfl
  · rw [sol.subst_apply happly, ht]

/-! ## Plain instances -/

/-- The type with `int` for every part that is missing or foreign. -/
def Ty.toPlain : Ty → Ty
  | .missing | .foreign _ => .int
  | .const c => .const c
  | .var v => .var v
  | .arrow a r => .arrow a.toPlain r.toPlain

theorem Ty.isPlain_toPlain (t : Ty) : t.toPlain.IsPlain := by
  induction t with
  | arrow a r iha ihr => exact ⟨iha, ihr⟩
  | missing | const | var | foreign => trivial

theorem Ty.IsPlain.toPlain_eq {t : Ty} (h : t.IsPlain) : t.toPlain = t := by
  induction t with
  | arrow a r iha ihr => rw [toPlain, iha h.1, ihr h.2]
  | missing | foreign => exact h.elim
  | const | var => rfl

theorem Ty.IsPlain.toPlain_subst {t : Ty} (h : t.IsPlain) (θ : VarId → Ty) :
    (t.subst θ).toPlain = t.subst fun v => (θ v).toPlain := by
  induction t with
  | arrow a r iha ihr => rw [subst, toPlain, subst, iha h.1, ihr h.2]
  | missing | foreign => exact h.elim
  | const | var => rfl

/-! ## Contexts -/

/-- A context infers a type if there is one, and the instance can be continued to one that solves
the substitution found and makes the types the same. -/
theorem Context.exists_infer_of_hasType (c : Context) {env : Option Env} {e : Expr Label}
    (fresh : (env.getD ∅).IsFresh) (room : (env.getD ∅).next.toInt + e.demand ≤ 2 ^ 63 - 1)
    (h : HasType ((env.getD ∅).subst θ) e τ) :
    ∃ c' t η, c.infer env e = (c', .result t) ∧ (∃ vs, c'.subst.IsSolved vs) ∧ t.IsPlain ∧
      c'.subst.Solves η ∧ t.subst η = τ ∧ Continues (env.getD ∅).next θ η := by
  have he : e ≠ .missing := by
    rintro rfl
    cases h
  have fresh' : (env.getD ∅).FreshFor (c.start env).next := fresh
  obtain ⟨t, s, η, hsol, solved, plain, sol, ht, hη⟩ :=
    exists_inferBySolving (n := { next := (env.getD ∅).next }) fresh' (Supply.room_of_le room) h
  rcases c.run_cases he fresh room with ⟨r, c', -, hrun, hs, hr⟩ | ⟨f, c', -, -, -, -, hf⟩
  · rw [hsol] at hr
    cases hr
    rw [← hs] at solved sol
    refine ⟨c', r.type, η, ?_, solved, plain, sol, ht, hη⟩
    unfold Context.infer
    rw [hrun]
  · rw [hsol] at hf
    cases hf

/-- **Principality.** If an expression has a type in an instance of the environment, a context
infers one, and the given type and instance are instances of what it finds. So an error means that
there is no type in any instance. -/
theorem infer_principal (c : Context) (env : Option Env) (e : Expr Label)
    (fresh : (env.getD ∅).IsFresh) (room : (env.getD ∅).next.toInt + e.demand ≤ 2 ^ 63 - 1) :
    (∀ (θ : VarId → Ty) (τ : Ty), (∀ v, (θ v).IsPlain) → τ.IsPlain →
      HasType ((env.getD ∅).subst θ) e τ →
        ∃ c' t, c.infer env e = (c', .result t) ∧
          ∃ R : VarId → Ty, (∀ v, (R v).IsPlain) ∧ t.subst R = τ ∧
            ∀ v, (env.getD ∅).Mentions v →
              ∃ u, c'.subst.apply (.var v) = .ok u ∧ u.subst R = θ v) ∧
    ∀ c' err, c.infer env e = (c', .error err) →
      ∀ (θ : VarId → Ty) (τ : Ty), ¬ HasType ((env.getD ∅).subst θ) e τ := by
  constructor
  · intro θ τ hθ hτ h
    obtain ⟨c', t, η, hinfer, ⟨vs, hvs⟩, plain, sol, ht, hη⟩ :=
      c.exists_infer_of_hasType fresh room h
    refine ⟨c', t, hinfer, fun v => (η v).toPlain, fun v => Ty.isPlain_toPlain _, ?_,
      fun v hv => ?_⟩
    · rw [← plain.toPlain_subst, ht, hτ.toPlain_eq]
    · have happly := hvs.apply_eq_once (.var v)
      have hplain : (c'.subst.once (.var v)).IsPlain := hvs.isPlain_once trivial
      refine ⟨_, happly, ?_⟩
      rw [← hplain.toPlain_subst, sol.subst_apply happly, Ty.subst,
        hη v (Env.FreshFor.lt fresh hv), (hθ v).toPlain_eq]
  · intro c' err herr θ τ h
    obtain ⟨c'', t, η, hinfer, -⟩ := c.exists_infer_of_hasType fresh room h
    rw [herr] at hinfer
    cases hinfer

/-- The function has its type when the declared name is an integer. A function that calls its
parameter with itself has none. -/
theorem infer_principal_choice :
    (∃ c' t, ({} : Context).infer (some openEnv) choice = (c', .result t) ∧
      ∃ R : VarId → Ty, (∀ v, (R v).IsPlain) ∧ t.subst R = .arrow (.arrow .int .bool) .int ∧
        ∀ v, openEnv.Mentions v → ∃ u, c'.subst.apply (.var v) = .ok u ∧ u.subst R = .int) ∧
    ∀ (θ : VarId → Ty) (τ : Ty),
      ¬ HasType (openEnv.subst θ)
        (.fn 0 "x" (.call 1 (.var 2 "x") (.var 3 "x")) : Expr Label) τ := by
  have typed : HasType (openEnv.subst fun _ => .int) choice (.arrow (.arrow .int .bool) .int) := by
    have hk :
        ((openEnv.subst fun _ => .int).declare "x" (.arrow .int .bool)).find? "k" = some .int :=
      by decide
    exact .fn (.cond (.call (.var (by decide)) (.var hk)) (.var hk) .int)
  have herr : ({} : Context).infer (some openEnv) (.fn 0 "x" (.call 1 (.var 2 "x") (.var 3 "x"))) =
      ((({} : Context).infer (some openEnv) (.fn 0 "x" (.call 1 (.var 2 "x") (.var 3 "x")))).1,
        .error (.unify (.occurs 1 (.arrow (.var 1) (.var 2))))) := by
    cbv
  exact ⟨(infer_principal {} (some openEnv) choice isFresh_openEnv (by decide)).1 _ _
      (fun _ => trivial) ⟨⟨trivial, trivial⟩, trivial⟩ typed,
    (infer_principal {} (some openEnv) _ isFresh_openEnv (by decide)).2 _ _ herr⟩

end Monotype
