import Monotype.Proofs.Allocation
import Monotype.Proofs.Reuse

/-!
# One inference after another

What an inference finds about the variables of an environment is carried over to the next inference
by rewriting the environment. Rewriting keeps the next variable of the environment, while the
substitution may bring variables into it that were taken on the way. The environment is then no
longer fresh: the next inference takes such a variable again.

`apply_isFresh_iff` says when this happens, and that the number of variables which the context
counted is what has to be added to the next variable. `exists_apply_not_isFresh` is an environment
in which it happens, with a type that comes out too special.
-/

namespace Monotype

variable {env : Env} {θ : VarId → Ty} {w : VarId}

/-! ## Variables of an instance -/

theorem Ty.mem_vars_subst {t : Ty} : w ∈ (t.subst θ).vars ↔ ∃ v ∈ t.vars, w ∈ (θ v).vars := by
  induction t with
  | var v =>
    show w ∈ (θ v).vars ↔ _
    simp [vars]
  | arrow a r iha ihr =>
    show w ∈ (a.subst θ).vars ++ (r.subst θ).vars ↔ ∃ v ∈ a.vars ++ r.vars, w ∈ (θ v).vars
    simp only [List.mem_append, iha, ihr, or_and_right, exists_or]
  | missing | const | foreign => exact ⟨nofun, nofun⟩

theorem Env.mentions_subst : (env.subst θ).Mentions w ↔ ∃ v, env.Mentions v ∧ w ∈ (θ v).vars := by
  constructor
  · rintro ⟨x, u, hu, hw⟩
    rw [find?_subst] at hu
    obtain ⟨t, ht, rfl⟩ := Option.map_eq_some_iff.1 hu
    obtain ⟨v, hv, hw⟩ := Ty.mem_vars_subst.1 hw
    exact ⟨v, ⟨x, t, ht, hv⟩, hw⟩
  · rintro ⟨v, ⟨x, t, ht, hv⟩, hw⟩
    refine ⟨x, t.subst θ, ?_, Ty.mem_vars_subst.2 ⟨v, hv, hw⟩⟩
    rw [find?_subst, ht]
    rfl

theorem Env.isFresh_iff :
    env.IsFresh ↔ env.Forall Ty.IsPlain ∧ ∀ v, env.Mentions v → v < env.next := by
  constructor
  · intro h
    refine ⟨fun x t ht => (h x t ht).1, ?_⟩
    rintro v ⟨x, t, ht, hv⟩
    exact (h x t ht).2 v hv
  · rintro ⟨plain, below⟩ x t ht
    exact ⟨plain x t ht, fun v hv => below v ⟨x, t, ht, hv⟩⟩

/-! ## Contexts -/

/-- A type that a clean context answers was found by inference, with the substitution and the
variables that the context shows. -/
theorem Context.Clean.exists_typed {c c' : Context} {env : Option Env} {e : Expr Label} {t : Ty}
    (hc : c.Clean) (h : c.infer env e = (c', .result t)) :
    ∃ r, Monotype.infer (env.getD ∅) ⟨(env.getD ∅).next, 0⟩ e = .ok r ∧ c'.subst = r.subst ∧
      c'.count = r.supply.count := by
  obtain ⟨r, hr, -⟩ := Context.exists_run_of_infer h
  have he : e ≠ .missing := by
    rintro rfl
    cases hr
  obtain ⟨l, hrun, -⟩ := c.exists_run_eq env he
  rw [hr, hc.start_eq] at hrun
  match ho : Monotype.infer (env.getD ∅) ⟨(env.getD ∅).next, 0⟩ e with
  | .ok o =>
    rw [ho, conclude] at hrun
    obtain ⟨rfl, -⟩ := Prod.mk.inj hrun
    exact ⟨o, rfl, rfl, rfl⟩
  | .error (.failed f n) | .error (.faulted f blame n) =>
    rw [ho] at hrun
    cases hrun

/-- **Going on after an inference.** The environment can be rewritten by the substitution found, and
keeps its next variable. It mentions variables that it mentioned before and variables that were
taken. It is fresh again if and only if no variable taken is left in what its own variables became.
With the variables taken counted into its next variable, it is always fresh. -/
theorem apply_isFresh_iff (history : List Context.Action) (c : Context) (env : Env) (e : Expr Label)
    (t : Ty) (fresh : env.IsFresh) (room : env.next.toInt + e.demand ≤ 2 ^ 63 - 1)
    (h : (Context.after history).infer (some env) e = (c, .result t)) :
    ∃ env', env.apply c.subst = .ok env' ∧ env'.next = env.next ∧
      (∀ w, env'.Mentions w →
        env.Mentions w ∨ (env.next.toInt ≤ w.toInt ∧ w.toInt < env.next.toInt + c.count)) ∧
      (env'.IsFresh ↔ ∀ v u, env.Mentions v → c.subst.apply (.var v) = .ok u →
        ∀ w ∈ u.vars, w < env.next) ∧
      ({ env' with next := env.next + .ofNat c.count } : Env).IsFresh := by
  obtain ⟨r, hr, hsubst, hcount⟩ := (Context.clean_after history).exists_typed h
  have fresh' : env.FreshFor (⟨env.next, 0⟩ : Supply).next := fresh
  have room' : Supply.Room ⟨env.next, 0⟩ e.demand := Supply.room_of_le room
  have sc := infer_scoped fresh' room' hr
  have demand : c.count = e.demand := by
    rw [hcount, supply_of_infer hr]
    exact Nat.zero_add _
  have supply : r.supply = (⟨env.next, 0⟩ : Supply).skip c.count := by
    rw [demand]
    exact supply_of_infer hr
  have next : r.supply.next.toInt = env.next.toInt + c.count := by
    rw [supply]
    exact Supply.Room.toInt_next_skip (demand ▸ room')
  obtain ⟨vs, solved⟩ := sc.subst.isSolved
  have apply_eq := solved.apply_env fresh'.plain
  obtain ⟨-, later⟩ := sc.subst.freshFor_apply fresh' sc.le apply_eq
  rw [hsubst]
  refine ⟨env.subst r.subst.image, apply_eq, rfl, fun w hw => ?_, ?_, ?_⟩
  · have inScope := sc.subst.scope_subst fresh' sc.le (Int.le_refl _) (.inl hw)
    rw [next] at inScope
    exact inScope.2
  · rw [Env.isFresh_iff, and_iff_right later.plain]
    constructor
    · intro below v u hv hu w hw
      obtain rfl := solved.once_of_apply hu
      exact below w (Env.mentions_subst.2 ⟨v, hv, hw⟩)
    · intro below w hw
      obtain ⟨v, hv, hw⟩ := Env.mentions_subst.1 hw
      exact below v _ hv (solved.apply_eq_once (.var v)) w hw
  · rw [supply] at later
    exact later

/-- A function of unknown type is called with a number. The environment goes on with 2 as its next
variable. -/
theorem apply_isFresh_iff_call :
    ∃ c env', (Context.after [.annotate none choice]).infer (some openEnv)
        (.call 0 (.var 1 "k") (.int 2 7)) = (c, .result (.var 1)) ∧
      c.count = 1 ∧ openEnv.apply c.subst = .ok env' ∧ ({ env' with next := 2 } : Env).IsFresh := by
  obtain ⟨c, run, count⟩ : ∃ c, (Context.after [.annotate none choice]).infer (some openEnv)
      (.call 0 (.var 1 "k") (.int 2 7)) = (c, .result (.var 1)) ∧ c.count = 1 :=
    ⟨((Context.after [.annotate none choice]).infer (some openEnv)
      (.call 0 (.var 1 "k") (.int 2 7))).1, by cbv, by cbv⟩
  obtain ⟨env', apply_eq, -, -, -, fresh⟩ := apply_isFresh_iff [.annotate none choice] c openEnv _ _
    isFresh_openEnv (by decide) run
  rw [count] at fresh
  exact ⟨c, env', run, count, apply_eq, fresh⟩

/-- After this call, the type declared for the function has the variable 1. It was taken for the
result of the call, and is still the next variable of the environment. A parameter then takes the
variable 1 again, and its type comes out tied to the result of the function. -/
theorem exists_apply_not_isFresh :
    openEnv.IsFresh ∧ ∃ c env',
      ({} : Context).infer (some openEnv) (.call 0 (.var 1 "k") (.int 2 7)) =
        (c, .result (.var 1)) ∧
      openEnv.apply c.subst = .ok env' ∧ env'.Mentions env'.next ∧ ¬ env'.IsFresh ∧
      (c.infer (some env') (.fn 0 "x" (.var 1 "k"))).2 =
        .result (.arrow (.var 1) (.arrow .int (.var 1))) ∧
      (c.infer (some { env' with next := 2 }) (.fn 0 "x" (.var 1 "k"))).2 =
        .result (.arrow (.var 2) (.arrow .int (.var 1))) := by
  have mentions : (openEnv.declare "k" (.arrow .int (.var 1))).Mentions 1 :=
    ⟨"k", .arrow .int (.var 1), by cbv, List.mem_singleton.2 rfl⟩
  refine ⟨isFresh_openEnv,
    (({} : Context).infer (some openEnv) (.call 0 (.var 1 "k") (.int 2 7))).1,
    openEnv.declare "k" (.arrow .int (.var 1)), by cbv, by cbv, mentions,
    fun fresh => ?_, by cbv, by cbv⟩
  exact absurd ((Env.isFresh_iff.1 fresh).2 1 mentions) (by decide)

end Monotype
