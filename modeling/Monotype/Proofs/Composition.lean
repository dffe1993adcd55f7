import Monotype.Proofs.Reachability
import Monotype.Proofs.Scope
import Monotype.Proofs.Totality
import Monotype.Proofs.Trace

/-!
# The composition law

Applying the composition of two substitutions is applying the older one and then the newer one.
Application follows entries through entries, so this is not true of all pairs. `Compatible` has the
conditions: all entries of both can be read, both are acyclic, the newer one brings in no variable
that the older one binds, and the older one brings in none that both bind. `Composable` adds that no
type has a missing part.

An acyclic substitution solves its own entries: what it makes of a variable (`limit`) is what it
makes of the type bound to the variable. No other solution keeps all unbound variables
(`apply_eq_of_solves`). For the law it is then enough that the composition is acyclic, and that it
is solved by what the two substitutions make of a variable one after the other.

Inference composes such pairs only. `composesOn` says so of all compositions in a run, also of those
made on the way out after a part has failed, and those within unification.
-/

namespace Monotype

namespace Subst

variable {s older newer : Subst} {busy busy' : List VarId} {t u : Ty} {v w : VarId} {θ : VarId → Ty}

/-! ## Acyclic substitutions -/

/-- Resolution depends on busy variables only if it reaches them. -/
theorem resolve_congr (h : s.resolve busy t = .ok u)
    (same : ∀ w, s.ReachesPast busy t w → (w ∈ busy ↔ w ∈ busy')) : s.resolve busy' t = .ok u := by
  induction busy, t using resolve_induction s generalizing u busy' with
  | leaf busy t ht hr =>
    rw [hr] at h
    cases h
    exact resolve_eq_self busy' (by rw [ht]; exact fun _ hv => nomatch hv)
  | stuck busy v hv =>
    rw [resolve_var_stuck hv] at h
    cases h
    refine resolve_var_stuck fun t ht => hv t ⟨?_, ht.2⟩
    rw [same v ((reachesPast_var_stuck hv).2 rfl)]
    exact ht.1
  | expand busy v t hvt ih =>
    obtain ⟨hm, hu⟩ := (resolve_var_eq_ok_iff hvt).1 h
    have notBusy : v ∉ busy' := by
      rw [← same v ((reachesPast_var hvt).2 (.inl rfl))]
      exact hvt.1
    refine (resolve_var_eq_ok_iff ⟨notBusy, hvt.2⟩).2 ⟨hm, ih hu fun w hw => ?_⟩
    rw [List.mem_cons, List.mem_cons, same w ((reachesPast_var hvt).2 (.inr hw))]
  | arrow busy a r iha ihr =>
    obtain ⟨a', r', ha, hr, rfl⟩ := resolve_arrow_eq_ok_iff.1 h
    exact resolve_arrow_eq_ok_iff.2
      ⟨a', r', iha ha fun w hw => same w (reachesPast_arrow.2 (.inl hw)),
      ihr hr fun w hw => same w (reachesPast_arrow.2 (.inr hw)), rfl⟩

/-- If all bindings go up, there is no cycle. -/
theorem acyclic_of_lt (h : ∀ v t, s.find? v = some t → ∀ w ∈ t.vars, v < w) : s.Acyclic := by
  intro v t ht hv
  have above : ∀ w, s.Reaches t w → v < w := by
    intro w hw
    induction hw with
    | here hw => exact h v t ht _ hw
    | next _ hx hw ih => exact Int64.lt_trans ih (h _ _ hx _ hw)
  exact Int64.lt_irrefl (above v hv)

/-- What application makes of a variable. -/
def limit (s : Subst) (v : VarId) : Ty :=
  match s.apply (.var v) with
  | .ok t => t
  | .error _ => .var v

theorem limit_of_apply (h : s.apply (.var v) = .ok t) : s.limit v = t := by
  unfold limit
  rw [h]

theorem limit_of_unbound (h : s.find? v = none) : s.limit v = .var v :=
  limit_of_apply (resolve_var_unbound h)

/-- If all entries can be read, every type is instantiated. -/
theorem apply_eq_subst_limit (readable : s.Forall (· ≠ .missing)) (t : Ty) :
    s.apply t = .ok (t.subst s.limit) := by
  induction t with
  | var v =>
    obtain ⟨u, hu⟩ := (exists_apply_iff s (.var v)).2 fun w _ hw => readable w _ hw rfl
    rw [hu, Ty.subst, limit_of_apply hu]
  | arrow a r iha ihr => exact resolve_arrow_eq_ok_iff.2 ⟨_, _, iha, ihr, rfl⟩
  | missing | const | foreign => rw [apply, resolve]; rfl

theorem readable_of_complete (complete : s.Forall Ty.IsComplete) : s.Forall (· ≠ .missing) := by
  rintro v t ht rfl
  exact complete v _ ht

theorem apply_eq_limit (complete : s.Forall Ty.IsComplete) (t : Ty) :
    s.apply t = .ok (t.subst s.limit) :=
  apply_eq_subst_limit (readable_of_complete complete) t

/-- What a type becomes is not missing, if the type is not. -/
theorem resolve_ne_missing (ht : t ≠ .missing) (h : s.resolve busy t = .ok u) : u ≠ .missing := by
  induction busy, t using resolve_induction s generalizing u with
  | leaf busy t _ hr =>
    rw [hr] at h
    cases h
    exact ht
  | stuck busy v hv =>
    rw [resolve_var_stuck hv] at h
    cases h
    exact ht
  | expand busy v t hvt ih =>
    obtain ⟨hm, hu⟩ := (resolve_var_eq_ok_iff hvt).1 h
    exact ih hm hu
  | arrow busy a r _ _ =>
    obtain ⟨a', r', -, -, rfl⟩ := resolve_arrow_eq_ok_iff.1 h
    simp

theorem readable_of_compose (ho : older.Forall (· ≠ .missing)) (hn : newer.Forall (· ≠ .missing))
    (h : older.compose newer = .ok s) : s.Forall (· ≠ .missing) := by
  intro v t ht
  rcases find?_of_compose h v with ⟨-, hs⟩ | ⟨x, y, hx, hy, hs⟩
  · exact hn v t (hs ▸ ht)
  · rw [hs] at ht
    cases ht
    exact resolve_ne_missing (ho v x hx) hy

section Acyclic

variable (readable : s.Forall (· ≠ .missing)) (acyclic : s.Acyclic)

include readable acyclic

/-- A variable and the type bound to it become the same. -/
theorem solves_limit : s.Solves s.limit := by
  intro v t ht
  have hv := apply_eq_subst_limit readable (.var v)
  obtain ⟨-, hv⟩ := (resolve_var_eq_ok_iff (expands_nil.2 ht)).1 hv
  -- the variable is not reached from its binding, so it need not be busy
  have idle : ∀ w, s.ReachesPast [v] t w → (w ∈ [v] ↔ w ∈ []) := by
    intro w hw
    refine iff_of_false (fun hwv => ?_) List.not_mem_nil
    obtain rfl := List.mem_singleton.1 hwv
    exact acyclic w t ht (reachesPast_nil.1 hw.of_cons)
  have ht' := apply_eq_subst_limit readable t
  rw [apply, resolve_congr hv idle] at ht'
  exact Except.ok.inj ht'

/-- No bound variable is left. -/
theorem unbound_of_mem_limit (hw : w ∈ (t.subst s.limit).vars) : s.find? w = none := by
  by_contra hbound
  obtain ⟨x, hx⟩ := Option.ne_none_iff_exists'.1 hbound
  obtain ⟨v, y, -, hv, hy⟩ :=
    (exists_bound_apply_iff (apply_eq_subst_limit readable t)).1 ⟨w, hw, x, hx⟩
  exact acyclic v y hv hy

/-- **Solutions.** An acyclic substitution makes of a type what any solution makes of it that keeps
the unbound variables. -/
theorem apply_eq_of_solves (sol : s.Solves θ) (keeps : ∀ v, s.find? v = none → θ v = .var v)
    (t : Ty) : s.apply t = .ok (t.subst θ) := by
  have h := apply_eq_subst_limit readable t
  have kept : (t.subst s.limit).subst θ = t.subst s.limit := by
    rw [Ty.subst_congr fun w hw => keeps w (unbound_of_mem_limit readable acyclic hw), Ty.subst_var]
  rw [h, ← sol.subst_apply h, kept]

end Acyclic

/-! ## Composition -/

/-- The conditions of the composition law. Types may have missing parts. -/
structure Compatible (older newer : Subst) : Prop where
  older_readable : older.Forall (· ≠ .missing)
  newer_readable : newer.Forall (· ≠ .missing)
  older_acyclic : older.Acyclic
  newer_acyclic : newer.Acyclic
  /-- No type bound in the newer substitution mentions a variable that the older one binds. -/
  newer_free : ∀ v t, newer.find? v = some t → ∀ w ∈ t.vars, older.find? w = none
  /-- No type bound in the older substitution mentions a variable that both bind. -/
  older_free :
    ∀ v t, older.find? v = some t → ∀ w ∈ t.vars, older.find? w = none ∨ newer.find? w = none

/-- The conditions of the composition law, for substitutions in which no type has a missing part. -/
structure Composable (older newer : Subst) : Prop extends Compatible older newer where
  older_complete : older.Forall Ty.IsComplete
  newer_complete : newer.Forall Ty.IsComplete
  older_readable := readable_of_complete older_complete
  newer_readable := readable_of_complete newer_complete

namespace Compatible

variable (h : older.Compatible newer)

include h

/-- What the newer substitution leaves in a type was there before, or is bound by neither. -/
theorem mem_vars_apply (ht : newer.apply t = .ok u) (hw : w ∈ u.vars) :
    newer.find? w = none ∧ (w ∈ t.vars ∨ older.find? w = none) := by
  rw [apply_eq_subst_limit h.newer_readable] at ht
  cases ht
  have hn := unbound_of_mem_limit h.newer_readable h.newer_acyclic hw
  refine ⟨hn, ?_⟩
  cases (mem_vars_apply_iff (apply_eq_subst_limit h.newer_readable t) hn).1 hw with
  | here hw => exact .inl hw
  | next _ hv hw => exact .inr (h.newer_free _ _ hv w hw)

/-- From a type that the older substitution binds, the composition reaches what the older one
reaches. -/
theorem reaches_older (hs : older.compose newer = .ok s) (ht : newer.apply t = .ok u)
    (hw : s.Reaches u w) : newer.find? w = none ∧ (older.Reaches t w ∨ older.find? w = none) := by
  induction hw with
  | here hw => exact (h.mem_vars_apply ht hw).imp_right (.imp_left .here)
  | @next v w x _ hx hw ih =>
    obtain ⟨hn, hv⟩ := ih
    rcases find?_of_compose hs v with ⟨-, hsv⟩ | ⟨y, y', hy, hy', hsv⟩
    · rw [hsv, hn] at hx
      cases hx
    · rw [hsv] at hx
      cases hx
      have hv := hv.resolve_right (by rw [hy]; nofun)
      exact (h.mem_vars_apply hy' hw).imp_right (.imp_left (.next hv hy))

/-- From a type that the newer substitution binds, the composition reaches what the newer one
reaches. -/
theorem reaches_newer (hs : older.compose newer = .ok s) (hv : newer.find? v = some t)
    (hw : s.Reaches t w) : older.find? w = none ∧ newer.Reaches t w := by
  induction hw with
  | here hw => exact ⟨h.newer_free v t hv _ hw, .here hw⟩
  | @next y w x _ hx hw ih =>
    obtain ⟨ho, hy⟩ := ih
    rcases find?_of_compose hs y with ⟨-, hsy⟩ | ⟨z, -, hz, -, -⟩
    · rw [hsy] at hx
      exact ⟨h.newer_free y x hx w hw, .next hy hx hw⟩
    · rw [ho] at hz
      cases hz

theorem acyclic (hs : older.compose newer = .ok s) : s.Acyclic := by
  intro v t ht hv
  rcases find?_of_compose hs v with ⟨-, hsv⟩ | ⟨x, y, hx, hy, hsv⟩
  · rw [hsv] at ht
    exact h.newer_acyclic v t ht (h.reaches_newer hs ht hv).2
  · rw [hsv] at ht
    cases ht
    rcases (h.reaches_older hs hy hv).2 with hv | hv
    · exact h.older_acyclic v x hx hv
    · rw [hx] at hv
      cases hv

/-- What both make of a variable, one after the other, solves the composition. -/
theorem solves (hs : older.compose newer = .ok s) :
    s.Solves fun v => (older.limit v).subst newer.limit := by
  have solo := solves_limit h.older_readable h.older_acyclic
  have soln := solves_limit h.newer_readable h.newer_acyclic
  -- a variable that the older substitution does not bind is left to the newer one
  have later : ∀ {w}, older.find? w = none → (older.limit w).subst newer.limit = newer.limit w := by
    intro w hw
    rw [limit_of_unbound hw]
    rfl
  intro v t ht
  rcases find?_of_compose hs v with ⟨ho, hsv⟩ | ⟨x, y, hx, hy, hsv⟩
  · rw [hsv] at ht
    show (older.limit v).subst newer.limit = _
    rw [later ho, soln v t ht]
    exact Ty.subst_congr fun w hw => (later (h.newer_free v t ht w hw)).symm
  · rw [hsv] at ht
    cases ht
    rw [apply_eq_subst_limit h.newer_readable] at hy
    cases hy
    show (older.limit v).subst newer.limit = _
    rw [solo v x hx, Ty.subst_subst, Ty.subst_subst]
    refine Ty.subst_congr fun w hw => ?_
    cases hw' : newer.find? w with
    | none =>
      rw [limit_of_unbound hw']
      rfl
    | some z =>
      -- the older substitution does not bind the variable, and nothing is bound in what it becomes
      have ho := (h.older_free v x hx w hw).resolve_right (by rw [hw']; nofun)
      have left : ∀ y ∈ (newer.limit w).vars, (older.limit y).subst newer.limit = .var y := by
        intro y hy
        obtain ⟨hn, hy | hy⟩ :=
          h.mem_vars_apply (t := .var w) (apply_eq_subst_limit h.newer_readable _) hy
        · obtain rfl : y = w := by simpa [Ty.vars] using hy
          rw [hw'] at hn
          cases hn
        · rw [later hy, limit_of_unbound hn]
      rw [later ho, Ty.subst_congr left, Ty.subst_var]

/-- **Composition law.** -/
theorem apply_compose (hs : older.compose newer = .ok s) (t : Ty) :
    s.apply t = .ok ((t.subst older.limit).subst newer.limit) := by
  have readable := readable_of_compose h.older_readable h.newer_readable hs
  rw [Ty.subst_subst]
  refine apply_eq_of_solves readable (h.acyclic hs) (h.solves hs) (fun v hv => ?_) t
  rcases find?_of_compose hs v with ⟨ho, hsv⟩ | ⟨x, y, -, -, hsv⟩
  · rw [hsv] at hv
    rw [limit_of_unbound ho, Ty.subst, limit_of_unbound hv]
  · rw [hsv] at hv
    cases hv

end Compatible

/-- Two resolved substitutions, the newer one over variables that the older one does not bind. -/
theorem Composable.of_solved {vs ws : List VarId} (ho : older.IsSolved vs) (hn : newer.IsSolved ws)
    (free : ∀ w ∈ ws, older.find? w = none) : older.Composable newer where
  older_complete v t ht := (ho.plain v t ht).isComplete
  newer_complete v t ht := (hn.plain v t ht).isComplete
  older_acyclic := ho.within.acyclic
  newer_acyclic := hn.within.acyclic
  newer_free v t ht w hw := free w ((hn.within v t ht).2 w hw).1
  older_free v t ht w hw := .inl ((ho.within v t ht).2 w hw).2

end Subst

/-! ## Compositions of unification -/

/-- A composition satisfies the conditions of the law. Nothing is required of other operations. -/
def Operation.Composes : Operation → Prop
  | .compose older newer => older.Composable newer
  | .lookup _ _ | .apply _ _ | .rewrite _ _ => True

open Traced

theorem composes_unifyTraced {a b : Ty} (ha : a.IsPlain) (hb : b.IsPlain) :
    (unifyTraced a b).Only Operation.Composes := by
  refine only_unifyTraced (p := fun a b => a.IsPlain ∧ b.IsPlain) ?_ ?_ ?_ ?_ ⟨ha, hb⟩
  · rintro a r b t ⟨⟨ha, -⟩, hb, -⟩
    exact ⟨ha, hb⟩
  · rintro a r b t s r' t' ⟨⟨ha, hr⟩, hb, ht⟩ hs hr' ht'
    have solved := isSolved_of_unify ha hb hs
    rw [solved.once_of_apply hr', solved.once_of_apply ht']
    exact ⟨solved.isPlain_once hr, solved.isPlain_once ht⟩
  · exact fun _ _ => ⟨trivial, trivial⟩
  · rintro a r b t s r' t' u ⟨⟨ha, hr⟩, hb, ht⟩ hs hr' ht' hu
    have solved := isSolved_of_unify ha hb hs
    obtain rfl := solved.once_of_apply hr'
    obtain rfl := solved.once_of_apply ht'
    refine .of_solved solved
      (isSolved_of_unify (solved.isPlain_once hr) (solved.isPlain_once ht) hu) ?_
    intro w hw
    exact (List.mem_append.1 hw).elim (fun hw => (solved.mem_vars_once hw).1)
      fun hw => (solved.mem_vars_once hw).1

/-! ## Compositions of inference -/

variable {α γ : Type} {env : Env} {n m : Supply} {s u : Subst} {o : VarId} {e : Expr α}
  {k : Typed α → Traced Stop γ}

/-- What a part leaves can be composed with what was found before the part. -/
theorem Subst.SolvedIn.composable {hi : Int} (hs : s.SolvedIn env o.toInt m.next.toInt)
    (fresh : env.FreshFor o) (ho : o.toInt ≤ m.next.toInt)
    (hu : u.SolvedIn (env.subst s.image) m.next.toInt hi) (hhi : m.next.toInt ≤ hi) :
    s.Composable u := by
  obtain ⟨vs, hvs⟩ := hs.isSolved
  obtain ⟨ws, hws, scope⟩ := hu
  exact .of_solved hvs hws fun w hw => (hs.scope_subst fresh ho hhi (scope w hw)).1

/-- What an equation requires can be composed with what was found before. -/
theorem Subst.SolvedIn.composable_equation {lo hi : Int} {a b : Ty} (hs : s.SolvedIn env lo hi)
    (ha : a.Settled s env lo hi) (hb : b.Settled s env lo hi) (hu : unify a b = .ok u) :
    s.Composable u := by
  obtain ⟨vs, hvs⟩ := hs.isSolved
  exact .of_solved hvs (isSolved_of_unify ha.scope.plain hb.scope.plain hu) fun w hw =>
    (List.mem_append.1 hw).elim (ha.free w) (hb.free w)

/-- An equation between two plain types. -/
theorem Traced.composes_equation {a b : Ty} {f : UnifyStop → Stop} {k : Subst → Traced Stop γ}
    (ha : a.IsPlain) (hb : b.IsPlain)
    (hk : ∀ u, unify a b = .ok u → (k u).Only Operation.Composes) :
    ((unifyTraced a b).mapError f >>= k).Only Operation.Composes :=
  ((composes_unifyTraced ha hb).mapError f).bind fun u hu => hk u (mapError_eq_ok_iff.1 hu)

/-- All compositions in inference of the expression satisfy the conditions of the law, in all
environments in which the variables to be handed out are unused. -/
def ComposesOn (e : Expr α) : Prop :=
  ∀ {env : Env} {n : Supply}, env.FreshFor n.next → n.Room e.demand →
    (inferTraced env n e).Only Operation.Composes

/-- The first part of an expression. -/
theorem ComposesOn.first (ih : ComposesOn e) (fresh : env.FreshFor n.next) (room : n.Room e.demand)
    {f : Stop → Stop}
    (hk : ∀ r : Typed α, r.Scoped env n e.demand → (k r).Only Operation.Composes) :
    ((inferTraced env n e).mapError f >>= k).Only Operation.Composes :=
  ((ih fresh room).mapError f).bind fun r hr =>
    hk r (infer_scoped fresh room (infer_of_out_mapError hr))

/-- A later part: if it fails, what was found before the part is composed with what it leaves. -/
theorem ComposesOn.later (ih : ComposesOn e) (hs : s.SolvedIn env o.toInt m.next.toInt)
    (fresh : env.FreshFor o) (ho : o.toInt ≤ m.next.toInt)
    (fresh' : (env.subst s.image).FreshFor m.next) (room : m.Room e.demand) {step : Step}
    (hk : ∀ r : Typed α, r.Scoped (env.subst s.image) m e.demand → (k r).Only Operation.Composes) :
    (((inferTraced (env.subst s.image) m e).mapError (.inside step)).after s >>= k).Only
      Operation.Composes := by
  refine (((ih fresh' room).mapError _).after fun f m' hf => ?_).bind fun r hr =>
    hk r (infer_scoped fresh' room (infer_of_out_after hr))
  have stops : Stops (Stop.Scoped (env.subst s.image) m.next.toInt)
      ((inferTraced (env.subst s.image) m e).mapError (.inside step)).out := by
    rw [out_mapError, out_inferTraced]
    exact stops_mapError fun stop hstop => (scopedOn e fresh' room stop hstop).inside step
  obtain ⟨le, hfs⟩ := stops _ hf
  exact hs.composable fresh ho hfs le

theorem composesOn_fn {body : Expr α} (ih : ComposesOn body) (l : α) (x : String) :
    ComposesOn (.fn l x body) := by
  intro env n fresh room
  rw [inferTraced, Mode.infer, Mode.fn]
  exact ih.first (fresh.declare room x) room.fresh fun b _ =>
    only_step trivial fun _ _ => only_pure _

theorem composesOn_call {callee arg : Expr α} (ihf : ComposesOn callee) (iha : ComposesOn arg)
    (l : α) : ComposesOn (.call l callee arg) := by
  intro env n fresh room
  simp only [Expr.demand, Nat.add_assoc] at room
  have roomf := room.mono (Nat.le_add_right callee.demand _)
  rw [inferTraced, Mode.infer, Mode.call]
  refine ihf.first fresh roomf fun f scf => only_step trivial fun env' henv => ?_
  have rooma := scf.room room
  have rooma' := rooma.mono (Nat.le_add_right arg.demand _)
  obtain ⟨rfl, fresh'⟩ := scf.subst.freshFor_apply fresh scf.le henv
  refine iha.later scf.subst fresh scf.le fresh' rooma' fun a sca => ?_
  refine only_step (scf.subst.composable fresh scf.le sca.subst sca.le) fun s hs => ?_
  refine only_step trivial fun ft hft => ?_
  -- both sides of the equation are settled, with one more variable for the result
  obtain ⟨ws, hws⟩ := sca.subst.isSolved
  obtain rfl := hws.once_of_apply hft
  have lt : a.supply.next.toInt < a.supply.fresh.2.next.toInt := by
    have := (sca.room rooma).toInt_next_fresh (k := 0)
    omega
  have le := Int.le_of_lt lt
  have solved := sca.solvedIn_compose scf.subst fresh scf.le hs
  have left := (sca.settled_once scf.subst fresh scf.le hs ⟨scf.type, scf.free⟩).mono le
  have right := ((sca.settled_type scf.subst fresh scf.le hs).mono le).arrow
    (.fresh solved fresh (Int.le_trans scf.le sca.le) lt)
  refine composes_equation left.scope.plain right.scope.plain fun u hu =>
    only_step trivial fun t _ => ?_
  exact only_step ((solved.mono (Int.le_refl _) le).composable_equation left right hu)
    fun _ _ => only_pure _

theorem composesOn_cond {test yes no : Expr α} (ihc : ComposesOn test) (ihy : ComposesOn yes)
    (ihn : ComposesOn no) (l : α) : ComposesOn (.cond l test yes no) := by
  intro env n fresh room
  simp only [Expr.demand, Nat.add_assoc] at room
  have roomc := room.mono (Nat.le_add_right test.demand _)
  rw [inferTraced, Mode.infer, Mode.cond]
  refine ihc.first fresh roomc fun c scc => ?_
  have typec : c.type.Settled c.subst env n.next.toInt c.supply.next.toInt := ⟨scc.type, scc.free⟩
  refine composes_equation scc.type.plain trivial fun u hu => ?_
  refine only_step (scc.subst.composable_equation typec (.const "bool") hu) fun s₁ hs₁ => ?_
  obtain ⟨solved₁, -⟩ := scc.subst.equation typec (.const "bool") hu hs₁
  refine only_step trivial fun env₁ henv₁ => ?_
  obtain ⟨rfl, freshy⟩ := solved₁.freshFor_apply fresh scc.le henv₁
  have roomy := scc.room room
  refine ihy.later solved₁ fresh scc.le freshy (roomy.mono (Nat.le_add_right yes.demand _))
    fun y scy => ?_
  refine only_step (solved₁.composable fresh scc.le scy.subst scy.le) fun s₂ hs₂ => ?_
  have solved₂ := scy.solvedIn_compose solved₁ fresh scc.le hs₂
  have typey := scy.settled_type solved₁ fresh scc.le hs₂
  have le := Int.le_trans scc.le scy.le
  refine only_step trivial fun env₂ henv₂ => ?_
  obtain ⟨rfl, freshn⟩ := solved₂.freshFor_apply fresh le henv₂
  refine ihn.later solved₂ fresh le freshn (scy.room roomy) fun z scz => ?_
  refine only_step (solved₂.composable fresh le scz.subst scz.le) fun s₃ hs₃ => ?_
  refine only_step trivial fun yt hyt => ?_
  obtain ⟨ws, hws⟩ := scz.subst.isSolved
  obtain rfl := hws.once_of_apply hyt
  have solved₃ := scz.solvedIn_compose solved₂ fresh le hs₃
  have left := scz.settled_once solved₂ fresh le hs₃ typey
  have right := scz.settled_type solved₂ fresh le hs₃
  refine composes_equation left.scope.plain right.scope.plain fun w hw =>
    only_step trivial fun t _ => ?_
  exact only_step (solved₃.composable_equation left right hw) fun _ _ => only_pure _

/-- **Compositions of inference.** -/
theorem composesOn (e : Expr α) : ComposesOn e := by
  induction e with
  | missing | foreign => exact fun _ _ => only_stop _
  | int | bool => exact fun _ _ => only_pure _
  | var l x =>
    intro env n _ _
    rw [inferTraced, Mode.infer, Mode.var]
    refine only_step trivial fun o _ => ?_
    cases o with
    | none => exact only_stop _
    | some t => exact only_pure _
  | fn l x body ih => exact composesOn_fn ih l x
  | call l callee arg ihf iha => exact composesOn_call ihf iha l
  | cond l test yes no ihc ihy ihn => exact composesOn_cond ihc ihy ihn l

/-! ## The law -/

/-- **Composition law.** Two substitutions that satisfy the conditions can be composed, and
application of the composition is application of the older one and then of the newer one. All
compositions that unification of plain types makes satisfy the conditions. So do all those that
inference makes in an environment whose next variables are unused and do not run out, however
inference ends. -/
theorem apply_compose_eq :
    (∀ older newer : Subst, older.Composable newer → ∃ s, older.compose newer = .ok s ∧
      ∀ t, ∃ u w, older.apply t = .ok u ∧ newer.apply u = .ok w ∧ s.apply t = .ok w) ∧
    (∀ a b : Ty, a.IsPlain → b.IsPlain → (unifyTraced a b).out = unify a b ∧
      ∀ older newer, .compose older newer ∈ (unifyTraced a b).steps → older.Composable newer) ∧
    (∀ (c : Context) (env : Option Env) (e : Expr Label), (env.getD ∅).IsFresh →
      (env.getD ∅).next.toInt + e.demand ≤ 2 ^ 63 - 1 →
      (inferTraced (env.getD ∅) (c.start env) e).out = infer (env.getD ∅) (c.start env) e ∧
      ∀ older newer, .compose older newer ∈ (inferTraced (env.getD ∅) (c.start env) e).steps →
        older.Composable newer) := by
  refine ⟨fun older newer h => ?_, fun a b ha hb => ⟨rfl, fun older newer hop => ?_⟩,
    fun c env e fresh room => ⟨out_inferTraced _ _ e, fun older newer hop => ?_⟩⟩
  · obtain ⟨s, hs, -⟩ :=
      Subst.exists_compose Ty.hereditary_isComplete h.older_complete h.newer_complete
    exact ⟨s, hs, fun t => ⟨_, _, Subst.apply_eq_limit h.older_complete t,
      Subst.apply_eq_limit h.newer_complete _, h.apply_compose hs t⟩⟩
  · exact composes_unifyTraced ha hb _ hop
  · have fresh' : (env.getD ∅).FreshFor (c.start env).next := fresh
    exact composesOn e fresh' (Supply.room_of_le room) _ hop

/-- The type of 0 mentions 1, which is bound as well. -/
def chained : Subst :=
  .ofList [(0, .arrow (.const "int") (.var 1)), (1, .var 2), (3, .const "bool")]

/-- Binds a variable that `chained` brings in, and one that `chained` binds. -/
def refined : Subst := .ofList [(2, .arrow (.const "bool") (.var 4)), (3, .var 5)]

theorem find?_chained {v : VarId} {t : Ty} (h : chained.find? v = some t) :
    v = 0 ∧ t = .arrow (.const "int") (.var 1) ∨ v = 1 ∧ t = .var 2 ∨
      v = 3 ∧ t = .const "bool" := by
  have entries : chained.toList =
      [(0, .arrow (.const "int") (.var 1)), (1, .var 2), (3, .const "bool")] := by cbv
  have mem := Subst.mem_toList.2 h
  simpa [entries] using mem

theorem find?_refined {v : VarId} {t : Ty} (h : refined.find? v = some t) :
    v = 2 ∧ t = .arrow (.const "bool") (.var 4) ∨ v = 3 ∧ t = .var 5 := by
  have entries : refined.toList = [(2, .arrow (.const "bool") (.var 4)), (3, .var 5)] := by cbv
  have mem := Subst.mem_toList.2 h
  simpa [entries] using mem

theorem composable_chained : chained.Composable refined where
  older_complete v t h := by
    rcases find?_chained h with ⟨-, rfl⟩ | ⟨-, rfl⟩ | ⟨-, rfl⟩ <;> simp [Ty.IsComplete]
  newer_complete v t h := by
    rcases find?_refined h with ⟨-, rfl⟩ | ⟨-, rfl⟩ <;> simp [Ty.IsComplete]
  older_acyclic := Subst.acyclic_of_lt fun v t h => by
    rcases find?_chained h with ⟨rfl, rfl⟩ | ⟨rfl, rfl⟩ | ⟨rfl, rfl⟩ <;> simp [Ty.vars]
  newer_acyclic := Subst.acyclic_of_lt fun v t h => by
    rcases find?_refined h with ⟨rfl, rfl⟩ | ⟨rfl, rfl⟩ <;> simp [Ty.vars]
  newer_free v t h := by
    rcases find?_refined h with ⟨-, rfl⟩ | ⟨-, rfl⟩ <;> simp [Ty.vars] <;> cbv
  older_free v t h := by
    rcases find?_chained h with ⟨-, rfl⟩ | ⟨-, rfl⟩ | ⟨-, rfl⟩ <;> simp [Ty.vars]
    · exact .inr (by cbv)
    · exact .inl (by cbv)

/-- Two functions of unknown types. -/
def twoFns : Env := (({ next := 2 } : Env).declare "k" (.var 0)).declare "g" (.var 1)

/-- In the call of `k 7` with `g 7 z`, the name `z` is not declared. -/
def brokenCall : Expr Label :=
  .call 0 (.call 1 (.var 2 "k") (.int 3 7)) (.call 4 (.call 5 (.var 6 "g") (.int 7 7)) (.var 8 "z"))

theorem isFresh_twoFns : twoFns.IsFresh := by
  refine Env.forall_declare (Env.forall_declare (fun x t h => ?_) ⟨trivial, ?_⟩) ⟨trivial, ?_⟩
  · have hx : ({ next := 2 } : Env).find? x = none := Std.ExtTreeMap.getElem?_empty
    rw [hx] at h
    cases h
  · simp [Ty.vars, twoFns]
  · simp [Ty.vars, twoFns]

/-- The last composition of `brokenCall` is made after its argument has failed. -/
theorem apply_compose_eq_chained :
    (chained.Composable refined ∧ ∃ s, chained.compose refined = .ok s ∧
      s.apply (.arrow (.var 0) (.var 3)) =
        .ok (.arrow (.arrow .int (.arrow .bool (.var 4))) .bool)) ∧
    ((unifyTraced (.arrow (.var 0) (.var 1)) (.arrow .int (.var 0))).steps.getLast? =
        some (.compose (.singleton 0 .int) (.singleton 1 .int)) ∧
      (Subst.singleton 0 .int).Composable (.singleton 1 .int)) ∧
    ((inferTraced twoFns ⟨2, 0⟩ brokenCall).steps.getLast? =
        some (.compose (.singleton 0 (.arrow .int (.var 2)))
          (.singleton 1 (.arrow .int (.var 3)))) ∧
      (Subst.singleton 0 (.arrow .int (.var 2))).Composable
        (.singleton 1 (.arrow .int (.var 3)))) := by
  obtain ⟨law, unification, inference⟩ := apply_compose_eq
  refine ⟨⟨composable_chained, ?_⟩, ?_, ?_⟩
  · obtain ⟨s, hs, apply_eq⟩ := law chained refined composable_chained
    obtain ⟨u, w, hu, hw, ht⟩ := apply_eq (.arrow (.var 0) (.var 3))
    have hu' : chained.apply (.arrow (.var 0) (.var 3)) =
        .ok (.arrow (.arrow .int (.var 2)) .bool) := by cbv
    rw [hu'] at hu
    cases hu
    have hw' : refined.apply (.arrow (.arrow .int (.var 2)) .bool) =
        .ok (.arrow (.arrow .int (.arrow .bool (.var 4))) .bool) := by cbv
    rw [hw'] at hw
    cases hw
    exact ⟨s, hs, ht⟩
  · have last : (unifyTraced (.arrow (.var 0) (.var 1)) (.arrow .int (.var 0))).steps.getLast? =
        some (.compose (.singleton 0 .int) (.singleton 1 .int)) := by
      rw [unifyTraced_arrow]
      cbv
    obtain ⟨-, composes⟩ := unification (.arrow (.var 0) (.var 1)) (.arrow .int (.var 0))
      ⟨trivial, trivial⟩ ⟨trivial, trivial⟩
    exact ⟨last, composes _ _ (List.mem_of_getLast? last)⟩
  · have last : (inferTraced twoFns ⟨2, 0⟩ brokenCall).steps.getLast? =
        some (.compose (.singleton 0 (.arrow .int (.var 2)))
          (.singleton 1 (.arrow .int (.var 3)))) := by
      cbv
    obtain ⟨-, composes⟩ := inference {} (some twoFns) brokenCall isFresh_twoFns (by decide)
    exact ⟨last, composes _ _ (List.mem_of_getLast? last)⟩

/-- The law fails if the newer substitution brings in a variable that the older one binds. -/
example :
    ((Subst.singleton 0 .int).compose (.singleton 1 (.var 0))).bind (·.apply (.var 1)) = .ok .int ∧
    ((Subst.singleton 0 .int).apply (.var 1)).bind (Subst.singleton 1 (.var 0)).apply =
      .ok (.var 0) := by
  constructor <;> cbv

end Monotype
