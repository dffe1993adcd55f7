import Monotype.Proofs.Agreement
import Monotype.Proofs.Inversion

/-!
# Soundness of inference

What inference finds is a derivation in the typing rules. The tree it returns has a type at every
node, and `derivesOn` says that every instance of the tree which solves the substitution found is
a derivation in that instance of the environment. The substitution solves itself, and this instance
is the one that contexts show (`Context.derives_of_run`).

A derivation of the whole needs the instance to solve what each part required. The parts are found
one after the other and joined by composition, so the substitution of a later part must bind no
variable that an earlier one bound. That is a fact about scope: `Typed.Scoped` says where the
variables of a result come from, and the section on joining results draws the consequences.
-/

namespace Monotype

variable {α : Type} {env : Env} {n m : Supply} {r : Typed α} {s s' : Subst}

/-! ## Scope of a result -/

/-- The variables of the type and of the substitution occur in the environment or were handed out on
the way, and those of the type are unbound. -/
structure Typed.Scoped (env : Env) (n : Supply) (k : Nat) (r : Typed α) : Prop where
  le : n.next.toInt ≤ r.supply.next.toInt
  le_add : r.supply.next.toInt ≤ n.next.toInt + k
  subst : r.subst.SolvedIn env n.next.toInt r.supply.next.toInt
  type : r.type.InScope env n.next.toInt r.supply.next.toInt
  free : ∀ v ∈ r.type.vars, r.subst.find? v = none

theorem Typed.Scoped.room {j k : Nat} (h : r.Scoped env n j) (room : n.Room (j + k)) :
    r.supply.Room k := by
  have le_add := h.le_add
  unfold Supply.Room at *
  omega

theorem infer_scoped {e : Expr α} (fresh : env.FreshFor n.next) (room : n.Room e.demand)
    (h : infer env n e = .ok r) : r.Scoped env n e.demand := by
  have agrees := agreesOn e rfl fresh room
  rw [h] at agrees
  obtain ⟨t, hrun, ⟨ws, hws⟩, htype, hnext⟩ := agrees
  have spans := generate_spans fresh.plain room
  have scope := spans.result t (Generated.run_eq_ok_iff.1 hrun).1
  have hs := spans.solvedIn_of_run (.empty env _ _) hrun
  rw [← hnext] at scope hs
  refine ⟨by rw [hnext]; exact spans.le, by rw [hnext]; exact spans.le_add, hs, ?_, ?_⟩
  · obtain ⟨vs, hvs, hscope⟩ := hs
    rw [htype]
    refine ⟨hvs.isPlain_once scope.plain, fun v hv => ?_⟩
    exact (hvs.mem_vars_once hv).2.elim (scope.vars v) (hscope v)
  · intro v hv
    rw [htype] at hv
    exact (hws.mem_vars_once hv).1

/-! ## Joining results -/

/-- A type in scope none of whose variables is bound. -/
structure Ty.Settled (s : Subst) (env : Env) (lo hi : Int) (t : Ty) : Prop where
  scope : t.InScope env lo hi
  free : ∀ v ∈ t.vars, s.find? v = none

namespace Ty.Settled

variable {lo hi hi' : Int} {t a b : Ty}

theorem mono (h : t.Settled s env lo hi) (hhi : hi ≤ hi') : t.Settled s env lo hi' :=
  ⟨h.scope.mono (Int.le_refl _) hhi, h.free⟩

theorem const (c : String) : (Ty.const c).Settled s env lo hi :=
  ⟨.const c, fun _ hv => nomatch hv⟩

theorem arrow (ha : a.Settled s env lo hi) (hb : b.Settled s env lo hi) :
    (Ty.arrow a b).Settled s env lo hi :=
  ⟨ha.scope.arrow hb.scope, fun v hv => (List.mem_append.1 hv).elim (ha.free v) (hb.free v)⟩

/-- A variable that was not handed out yet. -/
theorem fresh {o : VarId} (hs : s.SolvedIn env o.toInt m.next.toInt) (hf : env.FreshFor o)
    (ho : o.toInt ≤ m.next.toInt) (hhi : m.next.toInt < hi) :
    (Ty.var m.next).Settled s env o.toInt hi := by
  refine ⟨.var ho hhi, fun v hv => ?_⟩
  obtain rfl : v = m.next := by simpa [Ty.vars] using hv
  exact hs.unbound hf ho (Int.le_refl _)

end Ty.Settled

section Joining

variable {k : Nat} {o : VarId}

/-- The scope of the rewritten environment lies in that of the environment, and nothing in it is
bound. -/
theorem Subst.SolvedIn.scope_subst (hs : s.SolvedIn env o.toInt m.next.toInt)
    (fresh : env.FreshFor o) (ho : o.toInt ≤ m.next.toInt) {hi : Int} (hhi : m.next.toInt ≤ hi)
    {v : VarId} (hv : (env.subst s.image).Mentions v ∨ (m.next.toInt ≤ v.toInt ∧ v.toInt < hi)) :
    s.find? v = none ∧ (env.Mentions v ∨ (o.toInt ≤ v.toInt ∧ v.toInt < hi)) := by
  rcases hv with ⟨x, u, hu, hv⟩ | hv
  · obtain ⟨vs, hvs, scope⟩ := hs
    rw [Env.find?_subst] at hu
    obtain ⟨t, ht, rfl⟩ := Option.map_eq_some_iff.1 hu
    obtain ⟨hn, hmem⟩ := hvs.mem_vars_once hv
    refine ⟨hn, hmem.elim (fun h => .inl ⟨x, t, ht, h⟩) fun h => (scope v h).imp_right ?_⟩
    omega
  · exact ⟨hs.unbound fresh ho hv.1, .inr (by omega)⟩

/-- What a part finds in the rewritten environment joins what was found before. -/
theorem Subst.SolvedIn.compose {w : Subst} {hi : Int} (hs : s.SolvedIn env o.toInt m.next.toInt)
    (fresh : env.FreshFor o) (ho : o.toInt ≤ m.next.toInt)
    (hw : w.SolvedIn (env.subst s.image) m.next.toInt hi) (hhi : m.next.toInt ≤ hi)
    (h : s.compose w = .ok s') : s'.SolvedIn env o.toInt hi := by
  obtain ⟨ws, hws, hscope⟩ := hw
  have free := fun v hv => hs.scope_subst fresh ho hhi (hscope v hv)
  obtain ⟨vs, hvs, sub, scope⟩ := (hs.mono (Int.le_refl _) hhi).extend fun v hv => (free v hv).2
  exact ⟨vs, hvs.of_compose hws sub (fun v hv => (free v hv).1) h, scope⟩

theorem Subst.SolvedIn.freshFor_apply {env' : Env} (hs : s.SolvedIn env o.toInt m.next.toInt)
    (fresh : env.FreshFor o) (ho : o.toInt ≤ m.next.toInt) (henv : env.apply s = .ok env') :
    env' = env.subst s.image ∧ env'.FreshFor m.next := by
  obtain ⟨vs, hvs⟩ := hs.isSolved
  rw [hvs.apply_env fresh.plain] at henv
  cases henv
  exact ⟨rfl, hs.freshFor_subst fresh ho (Int.le_refl _)⟩

/-- A part that is inferred in the rewritten environment. -/
theorem infer_part {e : Expr α} {env' : Env} (hs : s.SolvedIn env o.toInt m.next.toInt)
    (fresh : env.FreshFor o) (ho : o.toInt ≤ m.next.toInt) (room : m.Room e.demand)
    (henv : env.apply s = .ok env') (h : infer env' m e = .ok r) :
    env' = env.subst s.image ∧ env'.FreshFor m.next ∧ r.Scoped env' m e.demand := by
  obtain ⟨rfl, fresh'⟩ := hs.freshFor_apply fresh ho henv
  exact ⟨rfl, fresh', infer_scoped fresh' room h⟩

section Part

variable (hs : s.SolvedIn env o.toInt m.next.toInt) (fresh : env.FreshFor o)
  (ho : o.toInt ≤ m.next.toInt) (hr : r.Scoped (env.subst s.image) m k)
  (h : s.compose r.subst = .ok s')

include hs fresh ho hr h

theorem Typed.Scoped.solvedIn_compose : s'.SolvedIn env o.toInt r.supply.next.toInt :=
  hs.compose fresh ho hr.subst hr.le h

theorem Typed.Scoped.solves_of_compose {θ : VarId → Ty} (sol : s'.Solves θ) :
    s.Solves θ ∧ r.subst.Solves θ := by
  obtain ⟨ws, hws, hscope⟩ := hr.subst
  refine sol.of_compose h fun v t ht => ?_
  exact (hs.scope_subst fresh ho hr.le (hscope v (hws.within v t ht).1)).1

theorem Typed.Scoped.settled_type : r.type.Settled s' env o.toInt r.supply.next.toInt := by
  have free := fun v hv => hs.scope_subst fresh ho hr.le (hr.type.vars v hv)
  obtain ⟨ws, hws⟩ := hr.subst.isSolved
  refine ⟨⟨hr.type.plain, fun v hv => (free v hv).2⟩, fun v hv => ?_⟩
  rw [hws.find?_compose h, (free v hv).1, hr.free v hv]
  rfl

/-- A type that was settled before is settled again after it is rewritten. -/
theorem Typed.Scoped.settled_once {t : Ty} (ht : t.Settled s env o.toInt m.next.toInt) :
    (r.subst.once t).Settled s' env o.toInt r.supply.next.toInt := by
  obtain ⟨ws, hws, hscope⟩ := hr.subst
  have le := hr.le
  have left : ∀ v ∈ (r.subst.once t).vars, r.subst.find? v = none ∧ s.find? v = none ∧
      (env.Mentions v ∨ (o.toInt ≤ v.toInt ∧ v.toInt < r.supply.next.toInt)) := by
    intro v hv
    obtain ⟨hn, hv | hv⟩ := hws.mem_vars_once hv
    · refine ⟨hn, ht.free v hv, (ht.scope.vars v hv).imp_right fun hv => ?_⟩
      omega
    · exact ⟨hn, hs.scope_subst fresh ho le (hscope v hv)⟩
  refine ⟨⟨hws.isPlain_once ht.scope.plain, fun v hv => (left v hv).2.2⟩, fun v hv => ?_⟩
  rw [hws.find?_compose h, (left v hv).2.1, (left v hv).1]
  rfl

end Part

/-- An equation between two settled types. Whatever solves the substitution after it makes them
identical. -/
theorem Subst.SolvedIn.equation {lo hi : Int} {a b : Ty} {u : Subst} (hs : s.SolvedIn env lo hi)
    (ha : a.Settled s env lo hi) (hb : b.Settled s env lo hi) (hu : unify a b = .ok u)
    (h : s.compose u = .ok s') :
    s'.SolvedIn env lo hi ∧ ∀ θ, s'.Solves θ → s.Solves θ ∧ u.Solves θ ∧ a.subst θ = b.subst θ := by
  have hus := isSolved_of_unify ha.scope.plain hb.scope.plain hu
  have free : ∀ v ∈ a.vars ++ b.vars, s.find? v = none :=
    fun v hv => (List.mem_append.1 hv).elim (ha.free v) (hb.free v)
  constructor
  · obtain ⟨vs, hvs, sub, scope⟩ := hs.extend fun v (hv : v ∈ a.vars ++ b.vars) =>
      (List.mem_append.1 hv).elim (ha.scope.vars v) (hb.scope.vars v)
    exact ⟨vs, hvs.of_compose hus sub free h, scope⟩
  · intro θ sol
    obtain ⟨sols, solu⟩ := sol.of_compose h fun v t ht => free v (hus.within v t ht).1
    refine ⟨sols, solu, ?_⟩
    rw [← solu.subst_apply (hus.apply_eq_once a), ← solu.subst_apply (hus.apply_eq_once b),
      once_eq_of_unify ha.scope.plain hb.scope.plain hu]

end Joining

/-! ## Derivations -/

/-- A tree with the type of every node, as the typing rules require them. -/
inductive Derives : Env → Expr (α × Ty) → Ty → Prop where
  | int {env : Env} {l : α} {n : Int64} : Derives env (.int (l, .int) n) .int
  | bool {env : Env} {l : α} {b : Bool} : Derives env (.bool (l, .bool) b) .bool
  | var {env : Env} {l : α} {x : String} {t : Ty} :
      env.find? x = some t → Derives env (.var (l, t) x) t
  | fn {env : Env} {l : α} {x : String} {e : Expr (α × Ty)} {a r : Ty} :
      Derives (env.declare x a) e r → Derives env (.fn (l, .arrow a r) x e) (.arrow a r)
  | call {env : Env} {l : α} {f e : Expr (α × Ty)} {a r : Ty} :
      Derives env f (.arrow a r) → Derives env e a → Derives env (.call (l, r) f e) r
  | cond {env : Env} {l : α} {c y n : Expr (α × Ty)} {t : Ty} :
      Derives env c .bool → Derives env y t → Derives env n t → Derives env (.cond (l, t) c y n) t

/-- Without its types, a derivation is an expression that has the type. -/
theorem Derives.hasType {d : Expr (α × Ty)} {t : Ty} (h : Derives env d t) :
    HasType env (d.map Prod.fst) t := by
  induction h with
  | int => exact .int
  | bool => exact .bool
  | var hx => exact .var hx
  | fn _ ih => exact .fn ih
  | call _ _ ihf iha => exact .call ihf iha
  | cond _ _ _ ihc ihy ihn => exact .cond ihc ihy ihn

/-- The tree with every type replaced by an instance. -/
def Expr.instantiate (θ : VarId → Ty) (d : Expr (α × Ty)) : Expr (α × Ty) :=
  d.map fun l => (l.1, l.2.subst θ)

theorem Expr.map_fst_instantiate (θ : VarId → Ty) (d : Expr (α × Ty)) :
    (d.instantiate θ).map Prod.fst = d.map Prod.fst := by
  unfold instantiate
  induction d with
  | missing | int | bool | var | foreign => rfl
  | fn l x e ih => simp only [map, ih]
  | call l f a ihf iha => simp only [map, ihf, iha]
  | cond l c y n ihc ihy ihn => simp only [map, ihc, ihy, ihn]

/-- The tree of a result is the expression, with types. -/
theorem map_fst_tree {e : Expr α} (h : infer env n e = .ok r) : r.tree.map Prod.fst = e := by
  induction e generalizing env n r with
  | missing | foreign => cases h
  | int | bool => cases h; rfl
  | var l x =>
    obtain ⟨t, -, rfl⟩ := infer_var_ok h
    rfl
  | fn l x body ih =>
    obtain ⟨run, rfl⟩ := infer_fn_ok h
    simp only [FnRun.result, Expr.map, ih run.b_eq]
  | call l callee arg ihf iha =>
    obtain ⟨run, rfl⟩ := infer_call_ok h
    simp only [CallRun.result, Expr.map, ihf run.f_eq, iha run.a_eq]
  | cond l test yes no ihc ihy ihn =>
    obtain ⟨run, rfl⟩ := infer_cond_ok h
    simp only [CondRun.result, Expr.map, ihc run.c_eq, ihy run.y_eq, ihn run.z_eq]

/-- A solution does not see that an environment was rewritten. -/
theorem Subst.Solves.subst_env {θ : VarId → Ty} {vs : List VarId} (sol : s.Solves θ)
    (hs : s.IsSolved vs) (env : Env) : (env.subst s.image).subst θ = env.subst θ := by
  rw [Env.subst_subst]
  exact Env.subst_congr fun x t _ => Ty.subst_congr fun v _ =>
    sol.subst_apply (hs.apply_eq_once (.var v))

/-- Every instance that solves the substitution found makes the tree of the expression a derivation.
-/
def DerivesOn (e : Expr α) : Prop :=
  ∀ {env : Env} {n : Supply} {r : Typed α} {θ : VarId → Ty}, env.FreshFor n.next → n.Room e.demand →
    infer env n e = .ok r → r.subst.Solves θ →
      Derives (env.subst θ) (r.tree.instantiate θ) (r.type.subst θ)

theorem derivesOn_var (l : α) (x : String) : DerivesOn (.var l x) := by
  intro env n r θ fresh _ h _
  obtain ⟨t, ht, rfl⟩ := infer_var_ok h
  rw [Env.lookup_eq Ty.hereditary_isPlain fresh.plain] at ht
  exact .var (by rw [Env.find?_subst, Except.ok.inj ht]; rfl)

theorem derivesOn_fn {body : Expr α} (ih : DerivesOn body) (l : α) (x : String) :
    DerivesOn (.fn l x body) := by
  intro env n r θ fresh room h sol
  obtain ⟨run, rfl⟩ := infer_fn_ok h
  have d := ih (fresh.declare room x) room.fresh run.b_eq sol
  rw [Env.subst_declare, ← Subst.Solves.subst_apply sol run.param_eq] at d
  exact .fn d

theorem derivesOn_call {callee arg : Expr α} (ihf : DerivesOn callee) (iha : DerivesOn arg)
    (l : α) : DerivesOn (.call l callee arg) := by
  intro env n r θ fresh room h sol
  obtain ⟨run, rfl⟩ := infer_call_ok h
  simp only [Expr.demand, Nat.add_assoc] at room
  have roomf := room.mono (Nat.le_add_right callee.demand _)
  have scf := infer_scoped fresh roomf run.f_eq
  have rooma := scf.room room
  have rooma' := rooma.mono (Nat.le_add_right arg.demand _)
  obtain ⟨henv₁, fresh', sca⟩ := infer_part scf.subst fresh scf.le rooma' run.env₁_eq run.a_eq
  obtain ⟨vs, hvs⟩ := scf.subst.isSolved
  obtain ⟨ws, hws⟩ := sca.subst.isSolved
  have hft := hws.once_of_apply run.ft_eq
  have le := Int.le_trans scf.le sca.le
  have lt : run.a.supply.next.toInt < run.a.supply.fresh.2.next.toInt := by
    have := (sca.room rooma).toInt_next_fresh (k := 0)
    omega
  rw [henv₁] at sca
  have solved := sca.solvedIn_compose scf.subst fresh scf.le run.s₁_eq
  have left := sca.settled_once scf.subst fresh scf.le run.s₁_eq ⟨scf.type, scf.free⟩
  have right := sca.settled_type scf.subst fresh scf.le run.s₁_eq
  have le' := Int.le_of_lt lt
  obtain ⟨-, split⟩ := (solved.mono (Int.le_refl _) le').equation (hft ▸ left.mono le')
    ((right.mono le').arrow (.fresh solved fresh le lt)) run.u_eq run.s_eq
  obtain ⟨sols, solu, eq⟩ := split θ sol
  obtain ⟨solf, sola⟩ := sca.solves_of_compose scf.subst fresh scf.le run.s₁_eq sols
  have df := ihf fresh roomf run.f_eq solf
  have da := iha fresh' rooma' run.a_eq sola
  rw [sola.subst_apply run.ft_eq, Ty.subst, ← solu.subst_apply run.t_eq] at eq
  rw [eq] at df
  rw [henv₁, solf.subst_env hvs] at da
  exact .call df da

theorem derivesOn_cond {test yes no : Expr α} (ihc : DerivesOn test) (ihy : DerivesOn yes)
    (ihn : DerivesOn no) (l : α) : DerivesOn (.cond l test yes no) := by
  intro env n r θ fresh room h sol
  obtain ⟨run, rfl⟩ := infer_cond_ok h
  simp only [Expr.demand, Nat.add_assoc] at room
  have roomc := room.mono (Nat.le_add_right test.demand _)
  have scc := infer_scoped fresh roomc run.c_eq
  obtain ⟨solved₁, split₁⟩ :=
    scc.subst.equation ⟨scc.type, scc.free⟩ (.const "bool") run.u_eq run.s₁_eq
  have roomy := scc.room room
  have roomy' := roomy.mono (Nat.le_add_right yes.demand _)
  obtain ⟨henv₁, freshy, scy⟩ := infer_part solved₁ fresh scc.le roomy' run.env₁_eq run.y_eq
  rw [henv₁] at scy
  have solved₂ := scy.solvedIn_compose solved₁ fresh scc.le run.s₂_eq
  have typey := scy.settled_type solved₁ fresh scc.le run.s₂_eq
  have roomn := scy.room roomy
  have le := Int.le_trans scc.le scy.le
  obtain ⟨henv₂, freshn, scz⟩ := infer_part solved₂ fresh le roomn run.env₂_eq run.z_eq
  rw [henv₂] at scz
  have solved₃ := scz.solvedIn_compose solved₂ fresh le run.s₃_eq
  obtain ⟨vs₁, hvs₁⟩ := solved₁.isSolved
  obtain ⟨vs₂, hvs₂⟩ := solved₂.isSolved
  obtain ⟨ws, hws⟩ := scz.subst.isSolved
  have left := scz.settled_once solved₂ fresh le run.s₃_eq typey
  rw [← hws.once_of_apply run.yt_eq] at left
  obtain ⟨-, split⟩ :=
    solved₃.equation left (scz.settled_type solved₂ fresh le run.s₃_eq) run.w_eq run.s_eq
  -- the solution of the whole solves each part, from last to first
  obtain ⟨sol₃, solw, eq⟩ := split θ sol
  obtain ⟨sol₂, solz⟩ := scz.solves_of_compose solved₂ fresh le run.s₃_eq sol₃
  obtain ⟨sol₁, soly⟩ := scy.solves_of_compose solved₁ fresh scc.le run.s₂_eq sol₂
  obtain ⟨solc, -, eqc⟩ := split₁ θ sol₁
  have dc := ihc fresh roomc run.c_eq solc
  have dy := ihy freshy roomy' run.y_eq soly
  have dz := ihn freshn roomn run.z_eq solz
  rw [henv₁, sol₁.subst_env hvs₁] at dy
  rw [henv₂, sol₂.subst_env hvs₂] at dz
  rw [eqc] at dc
  rw [solz.subst_apply run.yt_eq] at eq
  rw [eq, ← solw.subst_apply run.t_eq] at dy
  rw [← solw.subst_apply run.t_eq] at dz
  exact .cond dc dy dz

/-- **Trees are derivations.** -/
theorem derivesOn (e : Expr α) : DerivesOn e := by
  induction e with
  | missing | foreign =>
    intro env n r θ fresh room h sol
    cases h
  | int =>
    intro env n r θ fresh room h sol
    cases h
    exact .int
  | bool =>
    intro env n r θ fresh room h sol
    cases h
    exact .bool
  | var l x => exact derivesOn_var l x
  | fn l x body ih => exact derivesOn_fn ih l x
  | call l callee arg ihf iha => exact derivesOn_call ihf iha l
  | cond l test yes no ihc ihy ihn => exact derivesOn_cond ihc ihy ihn l

/-- The tree that a context finds, resolved by its substitution, is a derivation. -/
theorem Context.derives_of_run {c c' : Context} {env : Option Env} {e : Expr Label}
    {r : Typed Label} (fresh : (env.getD ∅).IsFresh)
    (room : (env.getD ∅).next.toInt + e.demand ≤ 2 ^ 63 - 1) (h : c.run env e = (c', .result r)) :
    (∃ vs, c'.subst.IsSolved vs) ∧ r.tree.map Prod.fst = e ∧
      Derives ((env.getD ∅).subst c'.subst.image) (r.tree.instantiate c'.subst.image) r.type := by
  obtain ⟨-, hr, hs, -⟩ := Context.of_run_result fresh room h
  have fresh' : (env.getD ∅).FreshFor (c.start env).next := fresh
  have room' : (c.start env).Room e.demand := Supply.room_of_le room
  have sc := infer_scoped fresh' room' hr
  obtain ⟨vs, hvs⟩ := sc.subst.isSolved
  have hd := derivesOn e fresh' room' hr hvs.solves_image
  have htype : r.type.subst r.subst.image = r.type := Subst.once_eq_self sc.free
  rw [htype] at hd
  rw [hs]
  exact ⟨⟨vs, hvs⟩, map_fst_tree hr, hd⟩

/-- **Soundness.** A type that a context infers is derivable, in the environment rewritten by the
substitution found. -/
theorem infer_sound (c c' : Context) (env : Option Env) (e : Expr Label) (t : Ty)
    (fresh : (env.getD ∅).IsFresh) (room : (env.getD ∅).next.toInt + e.demand ≤ 2 ^ 63 - 1)
    (h : c.infer env e = (c', .result t)) :
    ∃ env', (env.getD ∅).apply c'.subst = .ok env' ∧ HasType env' e t := by
  obtain ⟨r, hrun, rfl⟩ := Context.exists_run_of_infer h
  obtain ⟨⟨vs, hvs⟩, htree, hd⟩ := Context.derives_of_run fresh room hrun
  have ht := hd.hasType
  rw [Expr.map_fst_instantiate, htree] at ht
  exact ⟨_, hvs.apply_env (Env.FreshFor.plain fresh), ht⟩

theorem infer_sound_choice : ∃ c' env', ({} : Context).infer (some openEnv) choice =
      (c', .result (.arrow (.arrow .int .bool) .int)) ∧
    openEnv.apply c'.subst = .ok env' ∧
    HasType env' choice (.arrow (.arrow .int .bool) .int) := by
  have h : ({} : Context).infer (some openEnv) choice =
      ((({} : Context).infer (some openEnv) choice).1,
        .result (.arrow (.arrow .int .bool) .int)) := by
    cbv
  obtain ⟨env', henv, ht⟩ := infer_sound {} _ (some openEnv) choice _ isFresh_openEnv (by decide) h
  exact ⟨_, env', h, henv, ht⟩

end Monotype
