import Monotype.Proofs.Allocation
import Monotype.Proofs.Reuse

/-!
# Resolved form of what inference finds

The substitution that inference leaves is in resolved form, also if inference fails: it binds
variables of the environment and variables that were taken on the way, and the types it binds them
to mention no others and none that is bound. The type found is of this kind too, so nothing is left
to apply. Each call of inference for a part satisfies the same, relative to the environment and the
supply that it starts from.

`infer_scoped` says so of results. For failures, `scopedOn` carries the statement through all the
places where inference stops: what a part found before it failed was found in a rewritten
environment, and joins what was found before the part.
-/

namespace Monotype

variable {α : Type} {env : Env} {n m : Supply} {s : Subst} {lo hi : Int}

/-! ## Scope of a failure -/

/-- The variables of the substitution found before a failure occur in the environment or were handed
out on the way. -/
def Stop.Scoped (env : Env) (lo : Int) : Stop → Prop
  | .failed f m => lo ≤ m.next.toInt ∧ f.subst.SolvedIn env lo m.next.toInt
  | .faulted _ _ _ => True

namespace Stop.Scoped

variable {stop : Stop}

theorem inside (h : stop.Scoped env lo) (step : Step) : (stop.inside step).Scoped env lo := by
  cases stop with
  | failed f m => exact h
  | faulted => trivial

theorem ofUnify (describe : UnifyError → InferError) (le : lo ≤ m.next.toInt)
    (hs : s.SolvedIn env lo m.next.toInt) (stop : UnifyStop) :
    (Stop.ofUnify describe s m stop).Scoped env lo := by
  cases stop with
  | error e => exact ⟨le, hs⟩
  | fault f => trivial

theorem of_declare {x : String} {k : Nat} (room : n.Room (k + 1))
    (h : stop.Scoped (env.declare x (.var n.next)) n.fresh.2.next.toInt) :
    stop.Scoped env n.next.toInt := by
  have next := room.toInt_next_fresh
  cases stop with
  | failed f m =>
    obtain ⟨le, hs⟩ := h
    exact ⟨by omega, hs.of_declare (by omega) (Int.le_refl _) (by omega)⟩
  | faulted => trivial

/-- A part that failed in the rewritten environment. -/
theorem after {o : VarId} (hs : s.SolvedIn env o.toInt m.next.toInt) (fresh : env.FreshFor o)
    (ho : o.toInt ≤ m.next.toInt) (h : stop.Scoped (env.subst s.image) m.next.toInt) :
    (stop.after s).Scoped env o.toInt := by
  cases stop with
  | failed f m' =>
    obtain ⟨le, hf⟩ := h
    rw [Stop.after]
    cases hs' : s.compose f.subst with
    | ok s' => exact ⟨Int.le_trans ho le, hs.compose fresh ho hf le hs'⟩
    | error => trivial
  | faulted => trivial

end Stop.Scoped

theorem stops_guarded {β : Type} (n : Supply) (x : Except Fault β) :
    Stops (Stop.Scoped env lo) (guarded n x) :=
  stops_mapError fun _ _ => trivial

/-- Failures of the expression are in scope, in all environments in which the variables to be handed
out are unused. -/
def ScopedOn (e : Expr α) : Prop :=
  ∀ {env : Env} {n : Supply}, env.FreshFor n.next → n.Room e.demand →
    Stops (Stop.Scoped env n.next.toInt) (infer env n e)

theorem scopedOn_fn {body : Expr α} (ih : ScopedOn body) (l : α) (x : String) :
    ScopedOn (.fn l x body) := by
  intro env n fresh room
  rw [infer_fn, Mode.fn]
  refine .bind (stops_mapError fun stop hstop => ?_) fun b _ => .bind (stops_guarded _ _) fun _ _ =>
    stops_ok _
  have h := ih (fresh.declare room x) room.fresh stop hstop
  exact (h.of_declare room).inside .body

theorem scopedOn_call {callee arg : Expr α} (ihf : ScopedOn callee) (iha : ScopedOn arg) (l : α) :
    ScopedOn (.call l callee arg) := by
  intro env n fresh room
  simp only [Expr.demand, Nat.add_assoc] at room
  have roomf := room.mono (Nat.le_add_right callee.demand _)
  rw [infer_call, Mode.call]
  refine .bind (stops_mapError fun stop hstop => (ihf fresh roomf stop hstop).inside _)
    fun f hf => ?_
  have scf := infer_scoped fresh roomf (mapError_eq_ok_iff.1 hf)
  have rooma := scf.room room
  have rooma' := rooma.mono (Nat.le_add_right arg.demand _)
  refine .bind (stops_guarded _ _) fun env' henv => ?_
  obtain ⟨rfl, fresh'⟩ := scf.subst.freshFor_apply fresh scf.le (mapError_eq_ok_iff.1 henv)
  refine .bind (stops_mapError fun stop hstop => ?_) fun a ha => ?_
  · exact .after scf.subst fresh scf.le ((iha fresh' rooma' stop hstop).inside .arg)
  have sca := infer_scoped fresh' rooma' (mapError_eq_ok_iff.1 ha)
  have le : a.supply.next.toInt ≤ a.supply.fresh.2.next.toInt := by
    have := (sca.room rooma).toInt_next_fresh (k := 0)
    omega
  refine .bind (stops_guarded _ _) fun s hs => .bind (stops_guarded _ _) fun ft _ =>
    .bind (stops_mapError fun stop _ => ?_) fun u _ => .bind (stops_guarded _ _) fun t _ =>
    .bind (stops_guarded _ _) fun s' _ => stops_ok _
  have solved := sca.solvedIn_compose scf.subst fresh scf.le (mapError_eq_ok_iff.1 hs)
  exact .ofUnify _ (Int.le_trans (Int.le_trans scf.le sca.le) le)
    (solved.mono (Int.le_refl _) le) stop

theorem scopedOn_cond {test yes no : Expr α} (ihc : ScopedOn test) (ihy : ScopedOn yes)
    (ihn : ScopedOn no) (l : α) : ScopedOn (.cond l test yes no) := by
  intro env n fresh room
  simp only [Expr.demand, Nat.add_assoc] at room
  have roomc := room.mono (Nat.le_add_right test.demand _)
  rw [infer_cond, Mode.cond]
  refine .bind (stops_mapError fun stop hstop => (ihc fresh roomc stop hstop).inside _)
    fun c hc => ?_
  have scc := infer_scoped fresh roomc (mapError_eq_ok_iff.1 hc)
  have roomy := scc.room room
  have roomy' := roomy.mono (Nat.le_add_right yes.demand _)
  refine .bind (stops_mapError fun stop _ => .ofUnify _ scc.le scc.subst stop) fun u hu =>
    .bind (stops_guarded _ _) fun s₁ hs₁ => .bind (stops_guarded _ _) fun env₁ henv₁ => ?_
  obtain ⟨solved₁, -⟩ := scc.subst.equation ⟨scc.type, scc.free⟩ (.const "bool")
    (mapError_eq_ok_iff.1 hu) (mapError_eq_ok_iff.1 hs₁)
  obtain ⟨rfl, freshy⟩ := solved₁.freshFor_apply fresh scc.le (mapError_eq_ok_iff.1 henv₁)
  refine .bind (stops_mapError fun stop hstop => ?_) fun y hy => ?_
  · exact .after solved₁ fresh scc.le ((ihy freshy roomy' stop hstop).inside .yes)
  have scy := infer_scoped freshy roomy' (mapError_eq_ok_iff.1 hy)
  have roomn := scy.room roomy
  have le := Int.le_trans scc.le scy.le
  refine .bind (stops_guarded _ _) fun s₂ hs₂ => .bind (stops_guarded _ _) fun env₂ henv₂ => ?_
  have solved₂ := scy.solvedIn_compose solved₁ fresh scc.le (mapError_eq_ok_iff.1 hs₂)
  obtain ⟨rfl, freshn⟩ := solved₂.freshFor_apply fresh le (mapError_eq_ok_iff.1 henv₂)
  refine .bind (stops_mapError fun stop hstop => ?_) fun z hz => ?_
  · exact .after solved₂ fresh le ((ihn freshn roomn stop hstop).inside .no)
  have scz := infer_scoped freshn roomn (mapError_eq_ok_iff.1 hz)
  refine .bind (stops_guarded _ _) fun s₃ hs₃ => .bind (stops_guarded _ _) fun yt _ =>
    .bind (stops_mapError fun stop _ => ?_) fun w _ => .bind (stops_guarded _ _) fun t _ =>
    .bind (stops_guarded _ _) fun s _ => stops_ok _
  have solved₃ := scz.solvedIn_compose solved₂ fresh le (mapError_eq_ok_iff.1 hs₃)
  exact .ofUnify _ (Int.le_trans le scz.le) solved₃ stop

/-- **Scope of failures.** -/
theorem scopedOn (e : Expr α) : ScopedOn e := by
  induction e with
  | missing | foreign => exact fun _ _ => stops_error ⟨Int.le_refl _, .empty _ _ _⟩
  | int | bool => exact fun _ _ => stops_ok _
  | var l x =>
    intro env n _ _
    rw [infer_var, Mode.var]
    refine .bind (stops_guarded _ _) fun o _ => ?_
    cases o with
    | none => exact stops_error ⟨Int.le_refl _, .empty _ _ _⟩
    | some t => exact stops_ok _
  | fn l x body ih => exact scopedOn_fn ih l x
  | call l callee arg ihf iha => exact scopedOn_call ihf iha l
  | cond l test yes no ihc ihy ihn => exact scopedOn_cond ihc ihy ihn l

/-! ## Resolved form -/

/-- Every bound variable is in scope, and so are the variables of the type it is bound to, none of
which is bound. -/
def Subst.Settled (s : Subst) (env : Env) (lo hi : Int) : Prop :=
  ∀ v t, s.find? v = some t → (Ty.var v).InScope env lo hi ∧ t.Settled s env lo hi

theorem Subst.SolvedIn.settled (hs : s.SolvedIn env lo hi) : s.Settled env lo hi := by
  obtain ⟨vs, hvs, scope⟩ := hs
  intro v t ht
  obtain ⟨hv, hvars⟩ := hvs.within v t ht
  refine ⟨⟨trivial, fun w hw => ?_⟩, ⟨hvs.plain v t ht, fun w hw => scope w (hvars w hw).1⟩,
    fun w hw => (hvars w hw).2⟩
  obtain rfl : w = v := by simpa [Ty.vars] using hw
  exact scope w hv

/-- What is found from a supply is in resolved form, over the variables of the environment and those
that were taken from the supply. -/
def Ends (env : Env) (n : Supply) : Except Stop (Typed α) → Prop
  | .ok r =>
    let hi := n.next.toInt + (r.supply.count - n.count : Nat)
    r.subst.Settled env n.next.toInt hi ∧ r.type.Settled r.subst env n.next.toInt hi
  | .error (.failed f m) =>
    f.subst.Settled env n.next.toInt (n.next.toInt + (m.count - n.count : Nat))
  | .error (.faulted _ _ _) => False

/-- The variables taken are those between the next ones of the two supplies. -/
theorem Supply.Advances.toInt_next {k : Nat} (h : n.Advances k m) (room : n.Room k) :
    n.next.toInt + (m.count - n.count : Nat) = m.next.toInt := by
  obtain ⟨j, hj, rfl⟩ := h
  rw [(room.mono hj).toInt_next_skip]
  show n.next.toInt + ((n.count + j - n.count : Nat) : Int) = n.next.toInt + j
  rw [Nat.add_sub_cancel_left]

/-- **Resolved form.** -/
theorem ends_infer {e : Expr α} (fresh : env.FreshFor n.next) (room : n.Room e.demand) :
    Ends env n (infer env n e) := by
  match h : infer env n e with
  | .ok r =>
    have sc := infer_scoped fresh room h
    have adv : n.Advances e.demand r.supply := ⟨_, Nat.le_refl _, supply_of_infer h⟩
    rw [Ends, adv.toInt_next room]
    exact ⟨sc.subst.settled, sc.type, sc.free⟩
  | .error (.failed f m) =>
    have adv : n.Advances e.demand m := advancesOn e env n _ h
    rw [Ends, adv.toInt_next room]
    exact (scopedOn e fresh room _ h).2.settled
  | .error (.faulted f blame m) =>
    have agrees := agreesOn e rfl fresh room
    rw [h] at agrees
    exact agrees

/-- Nothing is left to apply to the type found. -/
theorem apply_type_of_infer {e : Expr α} {r : Typed α} (fresh : env.FreshFor n.next)
    (room : n.Room e.demand) (h : infer env n e = .ok r) : r.subst.apply r.type = .ok r.type := by
  have sc := infer_scoped fresh room h
  obtain ⟨vs, hvs⟩ := sc.subst.isSolved
  rw [hvs.apply_eq_once, Subst.once_eq_self sc.free]

/-! ## The calls of inference -/

/-- A call of inference. -/
structure Call (α : Type) where
  env : Env
  supply : Supply
  expr : Expr α

namespace Call

/-- How the call ends. -/
def outcome (c : Call α) : Except Stop (Typed α) := infer c.env c.supply c.expr

/-- A call for an expression makes a call for each part, in the environment and with the supply that
are left by the parts before it. -/
inductive Makes : Call α → Call α → Prop where
  | body {env : Env} {n : Supply} {l : α} {x : String} {body : Expr α} :
      Makes ⟨env, n, .fn l x body⟩ ⟨env.declare x (.var n.next), n.fresh.2, body⟩
  | callee {env : Env} {n : Supply} {l : α} {callee arg : Expr α} :
      Makes ⟨env, n, .call l callee arg⟩ ⟨env, n, callee⟩
  | arg {env env' : Env} {n : Supply} {l : α} {callee arg : Expr α} {f : Typed α} :
      infer env n callee = .ok f → env.apply f.subst = .ok env' →
      Makes ⟨env, n, .call l callee arg⟩ ⟨env', f.supply, arg⟩
  | test {env : Env} {n : Supply} {l : α} {test yes no : Expr α} :
      Makes ⟨env, n, .cond l test yes no⟩ ⟨env, n, test⟩
  | yes {env env₁ : Env} {n : Supply} {l : α} {test yes no : Expr α} {c : Typed α} {u s₁ : Subst} :
      infer env n test = .ok c → unify c.type .bool = .ok u → c.subst.compose u = .ok s₁ →
      env.apply s₁ = .ok env₁ → Makes ⟨env, n, .cond l test yes no⟩ ⟨env₁, c.supply, yes⟩
  | no {env env₁ env₂ : Env} {n : Supply} {l : α} {test yes no : Expr α} {c y : Typed α}
      {u s₁ s₂ : Subst} :
      infer env n test = .ok c → unify c.type .bool = .ok u → c.subst.compose u = .ok s₁ →
      env.apply s₁ = .ok env₁ → infer env₁ c.supply yes = .ok y → s₁.compose y.subst = .ok s₂ →
      env.apply s₂ = .ok env₂ → Makes ⟨env, n, .cond l test yes no⟩ ⟨env₂, y.supply, no⟩

/-- The variables to be handed out are unused, and there are enough of them. -/
structure Ready (c : Call α) : Prop where
  fresh : c.env.FreshFor c.supply.next
  room : c.supply.Room c.expr.demand

/-- **One call.** -/
theorem Makes.ready {c d : Call α} (h : c.Makes d) (ready : c.Ready) : d.Ready := by
  obtain ⟨fresh, room⟩ := ready
  cases h with
  | body => exact ⟨fresh.declare room _, room.fresh⟩
  | callee =>
    simp only [Expr.demand, Nat.add_assoc] at room
    exact ⟨fresh, room.mono (Nat.le_add_right _ _)⟩
  | arg hf henv =>
    simp only [Expr.demand, Nat.add_assoc] at room
    have scf := infer_scoped fresh (room.mono (Nat.le_add_right _ _)) hf
    exact ⟨(scf.subst.freshFor_apply fresh scf.le henv).2,
      (scf.room room).mono (Nat.le_add_right _ _)⟩
  | test =>
    simp only [Expr.demand, Nat.add_assoc] at room
    exact ⟨fresh, room.mono (Nat.le_add_right _ _)⟩
  | yes hc hu hs₁ henv₁ =>
    simp only [Expr.demand, Nat.add_assoc] at room
    have scc := infer_scoped fresh (room.mono (Nat.le_add_right _ _)) hc
    obtain ⟨solved₁, -⟩ := scc.subst.equation ⟨scc.type, scc.free⟩ (.const "bool") hu hs₁
    exact ⟨(solved₁.freshFor_apply fresh scc.le henv₁).2,
      (scc.room room).mono (Nat.le_add_right _ _)⟩
  | no hc hu hs₁ henv₁ hy hs₂ henv₂ =>
    simp only [Expr.demand, Nat.add_assoc] at room
    have scc := infer_scoped fresh (room.mono (Nat.le_add_right _ _)) hc
    obtain ⟨solved₁, -⟩ := scc.subst.equation ⟨scc.type, scc.free⟩ (.const "bool") hu hs₁
    have roomy := scc.room room
    obtain ⟨rfl, freshy, scy⟩ := infer_part solved₁ fresh scc.le
      (roomy.mono (Nat.le_add_right _ _)) henv₁ hy
    have solved₂ := scy.solvedIn_compose solved₁ fresh scc.le hs₂
    exact ⟨(solved₂.freshFor_apply fresh (Int.le_trans scc.le scy.le) henv₂).2, scy.room roomy⟩

/-- **All calls.** -/
theorem Ready.reaches {c d : Call α} (ready : c.Ready) (h : Relation.ReflTransGen Makes c d) :
    d.Ready := by
  induction h with
  | refl => exact ready
  | tail _ h ih => exact h.ready ih

end Call

/-! ## Contexts -/

/-- **Resolved form in contexts.** With `n` the next variable of the environment and `k` the number
of variables that the context counts, all variables of the substitution left in the context occur in
the environment or lie between `n` and `n + k`, and no bound one occurs in a type bound. So do those
of the type found, and none of them is bound: it is the type that inference found before the
substitution was applied. The same holds of every call that is made on the way. -/
theorem infer_resolved (history : List Context.Action) (env : Option Env) (e : Expr Label)
    (fresh : (env.getD ∅).IsFresh) (room : (env.getD ∅).next.toInt + e.demand ≤ 2 ^ 63 - 1) :
    (match (Context.after history).infer env e with
      | (c, .result t) =>
        let hi := (env.getD ∅).next.toInt + c.count
        c.subst.Settled (env.getD ∅) (env.getD ∅).next.toInt hi ∧
          t.Settled c.subst (env.getD ∅) (env.getD ∅).next.toInt hi ∧
          ∃ r, infer (env.getD ∅) { next := (env.getD ∅).next } e = .ok r ∧ r.subst = c.subst ∧
            r.type = t ∧ r.subst.apply r.type = .ok r.type
      | (c, .error _) =>
        c.subst.Settled (env.getD ∅) (env.getD ∅).next.toInt ((env.getD ∅).next.toInt + c.count)
      | (_, .fault _) => False) ∧
    ∀ call, Relation.ReflTransGen Call.Makes ⟨env.getD ∅, { next := (env.getD ∅).next }, e⟩ call →
      Ends call.env call.supply call.outcome := by
  have clean := Context.clean_after history
  have start := clean.start_eq env
  have fresh' : (env.getD ∅).FreshFor ({ next := (env.getD ∅).next } : Supply).next := fresh
  have room' : Supply.Room { next := (env.getD ∅).next } e.demand := Supply.room_of_le room
  constructor
  · by_cases he : e = .missing
    · subst he
      have empty : (Context.after history).reset.subst = ∅ :=
        congrArg Context.View.subst clean.reset.1
      show (Context.after history).reset.subst.Settled _ _ _
      rw [empty]
      exact (Subst.SolvedIn.empty _ _ _).settled
    · have ends := ends_infer fresh' room'
      unfold Context.infer
      match h : infer (env.getD ∅) { next := (env.getD ∅).next } e with
      | .ok r =>
        have settled := apply_type_of_infer fresh' room' h
        obtain ⟨c, hc, hsubst, hsupply⟩ := Context.run_of_ok he (by rw [start]; exact h) settled
        rw [h] at ends
        obtain ⟨hs, ht⟩ := ends
        rw [hc]
        dsimp only [Context.count]
        rw [hsubst, hsupply]
        exact ⟨hs, ht, r, rfl, rfl, rfl, settled⟩
      | .error (.failed f m) =>
        obtain ⟨c, hc, hsubst, hsupply, -⟩ := Context.run_of_failed he (by rw [start]; exact h)
        rw [h] at ends
        rw [hc]
        dsimp only [Context.count]
        rw [hsubst, hsupply]
        exact ends
      | .error (.faulted f blame m) =>
        rw [h] at ends
        exact ends.elim
  · intro call hcall
    have ready : Call.Ready ⟨env.getD ∅, { next := (env.getD ∅).next }, e⟩ := ⟨fresh', room'⟩
    have ready' := ready.reaches hcall
    exact ends_infer ready'.fresh ready'.room

/-- As `choice`, with a name in the last branch that is not declared. -/
def brokenChoice : Expr Label :=
  .fn 0 "x" (.cond 1 (.call 2 (.var 3 "x") (.var 4 "k")) (.var 5 "k") (.var 6 "y"))

/-- After an annotation that failed, in an environment with the variable 0: both inferences take the
variables 1 and 2. -/
theorem infer_resolved_choice :
    (∃ c, (Context.after [.annotate none choice]).infer (some openEnv) choice =
        (c, .result (.arrow (.arrow .int .bool) .int)) ∧ c.count = 2 ∧
      c.subst = .ofList [(0, .int), (1, .arrow .int .bool), (2, .bool)] ∧
      c.subst.Settled openEnv 1 3 ∧
      (Ty.arrow (.arrow .int .bool) .int).Settled c.subst openEnv 1 3) ∧
    (∃ c, (Context.after [.annotate none choice]).infer (some openEnv) brokenChoice =
        (c, .error (.undeclared "y")) ∧ c.count = 2 ∧
      c.subst = .ofList [(1, .arrow (.var 0) .bool), (2, .bool)] ∧ c.subst.Settled openEnv 1 3) ∧
    Ends (openEnv.declare "x" (.var 1)) ⟨2, 1⟩ (infer (openEnv.declare "x" (.var 1)) ⟨2, 1⟩
      (.cond 1 (.call 2 (.var 3 "x") (.var 4 "k")) (.var 5 "k") (.var 6 "y"))) := by
  obtain ⟨h, -⟩ := infer_resolved [.annotate none choice] (some openEnv) choice isFresh_openEnv
    (by decide)
  obtain ⟨h', calls⟩ := infer_resolved [.annotate none choice] (some openEnv) brokenChoice
    isFresh_openEnv (by decide)
  obtain ⟨c, run, count, subst⟩ : ∃ c,
      (Context.after [.annotate none choice]).infer (some openEnv) choice =
        (c, .result (.arrow (.arrow .int .bool) .int)) ∧ c.count = 2 ∧
      c.subst = .ofList [(0, .int), (1, .arrow .int .bool), (2, .bool)] :=
    ⟨((Context.after [.annotate none choice]).infer (some openEnv) choice).1,
      by cbv, by cbv, by cbv⟩
  obtain ⟨c', run', count', subst'⟩ : ∃ c,
      (Context.after [.annotate none choice]).infer (some openEnv) brokenChoice =
        (c, .error (.undeclared "y")) ∧ c.count = 2 ∧
      c.subst = .ofList [(1, .arrow (.var 0) .bool), (2, .bool)] :=
    ⟨((Context.after [.annotate none choice]).infer (some openEnv) brokenChoice).1, by cbv, by cbv,
      by cbv⟩
  rw [run] at h
  rw [run'] at h'
  dsimp only at h h'
  rw [count] at h
  rw [count'] at h'
  exact ⟨⟨c, run, count, subst, h.1, h.2.1⟩, ⟨c', run', count', subst', h'⟩,
    calls _ (.single .body)⟩

end Monotype
