import Monotype.Infer
import Monotype.Proofs.Resolution

/-!
# Traced inference

Inference looks names up, applies and composes substitutions and rewrites environments. Each of
these operations reads a table, and would fault at an entry whose type is missing. `inferTraced` is
inference that also lists the operations it makes, those within unification included, up to where it
ends. It ends as `infer` does (`out_inferTraced`), so a fact about the list is a fact about
inference. Inference faults if and only if one of the operations listed does
(`exposes_inferTraced`).

A part that fails leaves a substitution, which is still composed with what was found before the
part. The list has this operation as well.
-/

namespace Monotype

variable {α β γ ε ε' : Type}

/-! ## Operations -/

/-- An operation that reads a table. -/
inductive Operation where
  /-- Looks up the type declared for a name. -/
  | lookup (env : Env) (x : String)
  /-- Applies a substitution to a type. -/
  | apply (s : Subst) (t : Ty)
  /-- Rewrites the types declared in an environment. -/
  | rewrite (env : Env) (s : Subst)
  /-- Composes two substitutions. -/
  | compose (older newer : Subst)
deriving DecidableEq

namespace Operation

/-- What the operation answers. -/
abbrev Answer : Operation → Type
  | .lookup _ _ => Option Ty
  | .apply _ _ => Ty
  | .rewrite _ _ => Env
  | .compose _ _ => Subst

/-- Makes the operation. -/
def run : (op : Operation) → Except Fault op.Answer
  | .lookup env x => env.lookup x
  | .apply s t => s.apply t
  | .rewrite env s => env.apply s
  | .compose older newer => older.compose newer

/-- The operation comes to a missing type. -/
def Faults (op : Operation) : Prop := ∃ f, op.run = .error f

end Operation

/-- Unification stopped because of a missing type. -/
def UnifyStop.IsFault : UnifyStop → Prop
  | .error _ => False
  | .fault _ => True

/-- Inference stopped because of a missing type. -/
def Stop.IsFault : Stop → Prop
  | .failed _ _ => False
  | .faulted _ _ _ => True

theorem Stop.isFault_inside (step : Step) (stop : Stop) :
    (stop.inside step).IsFault ↔ stop.IsFault := by
  cases stop <;> exact Iff.rfl

theorem Stop.isFault_ofUnify (describe : UnifyError → InferError) (s : Subst) (n : Supply)
    (stop : UnifyStop) : (ofUnify describe s n stop).IsFault ↔ stop.IsFault := by
  cases stop <;> exact Iff.rfl

/-! ## Computations that list their operations -/

/-- A computation and the operations it makes. -/
@[ext] structure Traced (ε β : Type) where
  /-- The operations in order, up to where the computation ends. -/
  steps : List Operation
  /-- How the computation ends. -/
  out : Except ε β
deriving DecidableEq

namespace Traced

instance : Monad (Traced ε) where
  pure b := ⟨[], .ok b⟩
  bind x k :=
    match x.out with
    | .ok b => ⟨x.steps ++ (k b).steps, (k b).out⟩
    | .error e => ⟨x.steps, .error e⟩

/-- Ends with an error. -/
def stop (e : ε) : Traced ε β := ⟨[], .error e⟩

/-- Makes one operation. -/
def make (op : Operation) : Traced Fault op.Answer := ⟨[op], op.run⟩

/-- Replaces the error. -/
def mapError (f : ε → ε') (x : Traced ε β) : Traced ε' β := ⟨x.steps, x.out.mapError f⟩

/-- Makes one operation, at a point where the supply is `n`. -/
def perform (n : Supply) (op : Operation) : Traced Stop op.Answer :=
  (make op).mapError (.faulted · none n)

/-- A part that is inferred after an older substitution was found. -/
def after (older : Subst) (x : Traced Stop β) : Traced Stop β where
  steps := match x.out with
    | .error (.failed f _) => x.steps ++ [.compose older f.subst]
    | _ => x.steps
  out := x.out.mapError (.after older)

/-! ### How they end -/

@[simp] theorem out_pure (b : β) : (pure b : Traced ε β).out = .ok b := rfl

@[simp] theorem out_stop (e : ε) : (stop e : Traced ε β).out = .error e := rfl

@[simp] theorem out_mapError (f : ε → ε') (x : Traced ε β) :
    (x.mapError f).out = x.out.mapError f := rfl

@[simp] theorem out_perform (n : Supply) (op : Operation) :
    (perform n op).out = guarded n op.run := rfl

@[simp] theorem out_after (older : Subst) (x : Traced Stop β) :
    (x.after older).out = x.out.mapError (.after older) := rfl

@[simp] theorem out_bind (x : Traced ε β) (k : β → Traced ε γ) :
    (x >>= k).out = x.out >>= fun b => (k b).out := by
  unfold bind instMonad
  dsimp only
  cases x.out <;> rfl

theorem mapError_mapError (f : ε → ε') (g : ε' → Stop) (x : Except ε β) :
    (x.mapError f).mapError g = x.mapError fun e => g (f e) := by
  cases x <;> rfl

/-! ### What they make -/

/-- The operations of the rest, if there is a result. -/
theorem steps_bind (x : Traced ε β) (k : β → Traced ε γ) :
    (x >>= k).steps = x.steps ++ match x.out with
      | .ok b => (k b).steps
      | .error _ => [] := by
  unfold bind instMonad
  dsimp only
  cases x.out with
  | ok b => rfl
  | error e => exact (List.append_nil _).symm

/-- All operations that the computation makes satisfy a predicate. -/
def Only (q : Operation → Prop) (x : Traced ε β) : Prop := ∀ op ∈ x.steps, q op

variable {q : Operation → Prop} {x : Traced ε β} {k : β → Traced ε γ}

theorem only_pure (b : β) : (pure b : Traced ε β).Only q := fun _ h => nomatch h

theorem only_stop (e : ε) : (stop e : Traced ε β).Only q := fun _ h => nomatch h

theorem only_make {op : Operation} (h : q op) : (make op).Only q := by
  intro op' hop
  obtain rfl := List.mem_singleton.1 hop
  exact h

theorem Only.mapError (hx : x.Only q) (f : ε → ε') : (x.mapError f).Only q := hx

/-- The rest makes its operations only if there is a result. -/
theorem Only.bind (hx : x.Only q) (hk : ∀ b, x.out = .ok b → (k b).Only q) : (x >>= k).Only q := by
  unfold Only Bind.bind instMonad
  dsimp only
  match h : x.out with
  | .ok b =>
    intro op hop
    exact (List.mem_append.1 hop).elim (hx op) (hk b h op)
  | .error e => exact hx

/-- One operation, and what is done with its answer. -/
theorem only_step {op : Operation} {f : Fault → ε} {k : op.Answer → Traced ε γ} (h : q op)
    (hk : ∀ x, op.run = .ok x → (k x).Only q) : ((make op).mapError f >>= k).Only q :=
  ((only_make h).mapError f).bind fun x hx => hk x (mapError_eq_ok_iff.1 hx)

/-- One more operation is made if the part fails. -/
theorem Only.after {x : Traced Stop β} {older : Subst} (hx : x.Only q)
    (hf : ∀ f n, x.out = .error (.failed f n) → q (.compose older f.subst)) :
    (x.after older).Only q := by
  unfold Only Traced.after
  dsimp only
  match h : x.out with
  | .error (.failed f n) =>
    intro op hop
    rcases List.mem_append.1 hop with hop | hop
    · exact hx op hop
    · obtain rfl := List.mem_singleton.1 hop
      exact hf f n h
  | .ok _ | .error (.faulted _ _ _) => exact hx

/-! ### Where faults come from -/

/-- The computation ends with an error that counts as a fault if and only if one of its operations
faults. -/
def Exposes (isFault : ε → Prop) (x : Traced ε β) : Prop :=
  (∃ e, x.out = .error e ∧ isFault e) ↔ ∃ op ∈ x.steps, op.Faults

variable {isFault : ε → Prop} {isFault' : ε' → Prop}

theorem exposes_pure (b : β) : (pure b : Traced ε β).Exposes isFault :=
  iff_of_false (by rintro ⟨e, ⟨⟩, -⟩) (by rintro ⟨op, ⟨⟩, -⟩)

theorem exposes_stop {e : ε} (h : ¬ isFault e) : (stop e : Traced ε β).Exposes isFault := by
  refine iff_of_false ?_ (by rintro ⟨op, ⟨⟩, -⟩)
  rintro ⟨e', he, h'⟩
  cases he
  exact h h'

theorem exposes_make {f : Fault → ε} (h : ∀ x, isFault (f x)) (op : Operation) :
    ((make op).mapError f).Exposes isFault := by
  have single : (∃ op' ∈ ((make op).mapError f).steps, op'.Faults) ↔ op.Faults := by
    simp [make, mapError]
  rw [Exposes, single, out_mapError]
  dsimp only [make]
  cases hr : op.run with
  | ok b => simp [Operation.Faults, hr]
  | error x => simp [Operation.Faults, hr, h]

theorem Exposes.mapError (hx : x.Exposes isFault) {f : ε → ε'}
    (h : ∀ e, isFault' (f e) ↔ isFault e) : (x.mapError f).Exposes isFault' := by
  refine Iff.trans ?_ hx
  rw [out_mapError]
  cases x.out with
  | ok b => simp
  | error e => simp [h]

theorem Exposes.bind (hx : x.Exposes isFault) (hk : ∀ b, x.out = .ok b → (k b).Exposes isFault) :
    (x >>= k).Exposes isFault := by
  unfold Exposes at *
  rw [out_bind, steps_bind]
  cases h : x.out with
  | ok b =>
    rw [h] at hx
    have none : ¬ ∃ op ∈ x.steps, op.Faults := by
      rw [← hx]
      rintro ⟨e, ⟨⟩, -⟩
    rw [ok_bind, hk b h]
    simp only [List.mem_append, or_and_right, exists_or, or_iff_right none]
  | error e =>
    rw [h] at hx
    rw [error_bind, List.append_nil]
    simpa using hx

/-- The composition that is made if a part fails may itself fault. -/
theorem Exposes.after {x : Traced Stop β} (hx : x.Exposes Stop.IsFault) (older : Subst) :
    (x.after older).Exposes Stop.IsFault := by
  unfold Exposes at *
  rw [out_after]
  unfold Traced.after
  dsimp only
  match h : x.out with
  | .ok b | .error (.faulted f blame n) =>
    rw [h] at hx
    exact hx
  | .error (.failed f n) =>
    rw [h] at hx
    have none : ¬ ∃ op ∈ x.steps, op.Faults := by
      rw [← hx]
      rintro ⟨e, ⟨⟩, ⟨⟩⟩
    have last : (∃ op ∈ x.steps ++ [.compose older f.subst], op.Faults) ↔
        (Operation.compose older f.subst).Faults := by
      simp only [List.mem_append, List.mem_singleton, or_and_right, exists_or, or_iff_right none,
        exists_eq_left]
    dsimp only
    rw [last, mapError_error, Stop.after, Operation.Faults, Operation.run]
    cases older.compose f.subst <;> simp [Stop.IsFault]

end Traced

open Traced

/-! ## Unification -/

/-- The operations that unification makes: it rewrites the returns of two function types by what
their arguments required, and composes what both required. -/
def unifySteps (a b : Ty) : List Operation :=
  match a, b with
  | .arrow a r, .arrow b q =>
    unifySteps a b ++
      match _h : unify a b with
      | .error _ => []
      | .ok s₁ => .apply s₁ r ::
        match _hr : s₁.apply r with
        | .error _ => []
        | .ok r' => .apply s₁ q ::
          match _hq : s₁.apply q with
          | .error _ => []
          | .ok q' => unifySteps r' q' ++
            match unify r' q' with
            | .error _ => []
            | .ok s₂ => [.compose s₁ s₂]
  | _, _ => []
termination_by (distinct (a.vars ++ b.vars), a.size)
decreasing_by
  · exact measure_args a r b q
  · exact measure_returns (.of_unify _h) _hr _hq

/-- Unification with its operations. -/
def unifyTraced (a b : Ty) : Traced UnifyStop Subst := ⟨unifySteps a b, unify a b⟩

/-- Traced unification of two function types makes the steps of `unify_arrow`. -/
theorem unifyTraced_arrow (a r b q : Ty) :
    unifyTraced (.arrow a r) (.arrow b q) = (do
      let s₁ ← unifyTraced a b
      let r' ← (make (.apply s₁ r)).mapError .fault
      let q' ← (make (.apply s₁ q)).mapError .fault
      let s₂ ← unifyTraced r' q'
      (make (.compose s₁ s₂)).mapError .fault) := by
  refine Traced.ext ?_ ?_
  · -- each step of the list is there if the steps before it answered
    dsimp only [unifyTraced]
    rw [unifySteps, steps_bind]
    congr 1
    cases unify a b with
    | error e => rfl
    | ok s₁ =>
      dsimp only
      rw [steps_bind]
      dsimp only [make, mapError, Operation.run]
      cases s₁.apply r with
      | error f => rfl
      | ok r' =>
        dsimp only [mapError_ok]
        rw [steps_bind]
        cases s₁.apply q with
        | error f => rfl
        | ok q' =>
          dsimp only [mapError_ok]
          rw [steps_bind]
          cases unify r' q' <;> rfl
  · rw [unifyTraced, unify_arrow]
    simp only [out_bind]
    rfl

theorem unifySteps_eq_nil {a b : Ty} (h : ∀ x y z w, a = .arrow x y → b ≠ .arrow z w) :
    unifySteps a b = [] := by
  rw [unifySteps]
  exact h

/-- All operations of unification satisfy `q`, if those made directly for two function types do. The
relation `p` between the types compared is what may be used for it. -/
theorem only_unifyTraced {q : Operation → Prop} {p : Ty → Ty → Prop}
    (args : ∀ {a r b t}, p (.arrow a r) (.arrow b t) → p a b)
    (returns : ∀ {a r b t s r' t'}, p (.arrow a r) (.arrow b t) → unify a b = .ok s →
      s.apply r = .ok r' → s.apply t = .ok t' → p r' t')
    (applies : ∀ {a r b t s}, p (.arrow a r) (.arrow b t) → unify a b = .ok s →
      q (.apply s r) ∧ q (.apply s t))
    (composes : ∀ {a r b t s r' t' u}, p (.arrow a r) (.arrow b t) → unify a b = .ok s →
      s.apply r = .ok r' → s.apply t = .ok t' → unify r' t' = .ok u → q (.compose s u))
    {a b : Ty} (h : p a b) : (unifyTraced a b).Only q := by
  have none : ∀ {a b}, (∀ x y z w, a = .arrow x y → b ≠ .arrow z w) → (unifyTraced a b).Only q := by
    intro a b hab op hop
    rw [unifyTraced, unifySteps_eq_nil hab] at hop
    cases hop
  induction a, b using unify_induction with
  | const | var => exact none (by rintro _ _ _ _ ⟨⟩)
  | var' => exact none (by rintro _ _ _ _ - ⟨⟩)
  | clash a b hab => exact none hab.arrow
  | arrow a r b t ih ihr =>
    rw [unifyTraced_arrow]
    refine (ih (args h)).bind fun s hs => ?_
    obtain ⟨hr, ht⟩ := applies h hs
    refine only_step hr fun r' hr' => only_step ht fun t' ht' => ?_
    refine (ihr s r' t' hs hr' ht' (returns h hs hr' ht')).bind fun u hu => ?_
    exact (only_make (composes h hs hr' ht' hu)).mapError _

theorem not_isFault_of_bindVar {v : VarId} {t : Ty} {stop : UnifyStop}
    (h : bindVar v t = .error stop) : ¬ stop.IsFault := by
  unfold bindVar at h
  split at h
  · cases h
  · split at h <;> cases h
    exact id

/-- Unification faults if and only if one of its operations does. -/
theorem exposes_unifyTraced (a b : Ty) : (unifyTraced a b).Exposes UnifyStop.IsFault := by
  have none : ∀ {a b}, (∀ x y z w, a = .arrow x y → b ≠ .arrow z w) →
      (∀ stop, unify a b = .error stop → ¬ stop.IsFault) →
      (unifyTraced a b).Exposes UnifyStop.IsFault := by
    intro a b hab hstop
    rw [Exposes, unifyTraced, unifySteps_eq_nil hab]
    refine iff_of_false ?_ (by rintro ⟨op, ⟨⟩, -⟩)
    rintro ⟨stop, h, hf⟩
    exact hstop stop h hf
  induction a, b using unify_induction with
  | const m n =>
    refine none (by rintro _ _ _ _ ⟨⟩) fun stop h => ?_
    rw [unify_const] at h
    split at h <;> cases h
    exact id
  | var v t =>
    refine none (by rintro _ _ _ _ ⟨⟩) fun stop h => ?_
    rw [unify_var] at h
    exact not_isFault_of_bindVar h
  | var' t v ht =>
    refine none (by rintro _ _ _ _ - ⟨⟩) fun stop h => ?_
    rw [unify_var_right ht] at h
    exact not_isFault_of_bindVar h
  | clash a b hab =>
    refine none hab.arrow fun stop h => ?_
    rw [unify_clash hab] at h
    cases h
    exact id
  | arrow a r b t ih ihr =>
    rw [unifyTraced_arrow]
    have fault : ∀ f : Fault, (UnifyStop.fault f).IsFault := fun _ => trivial
    refine ih.bind fun s hs => (exposes_make fault _).bind fun r' hr' => (exposes_make fault _).bind
      fun t' ht' => ?_
    refine (ihr s r' t' hs (mapError_eq_ok_iff.1 hr') (mapError_eq_ok_iff.1 ht')).bind fun u _ => ?_
    exact exposes_make fault _

/-! ## Inference -/

/-- Inference that lists its operations. -/
def Mode.traced : Mode α (Traced Stop) where
  stop := Traced.stop
  lookup n env x := perform n (.lookup env x)
  apply n s t := perform n (.apply s t)
  rewrite n env s := perform n (.rewrite env s)
  compose n older newer := perform n (.compose older newer)
  unify a b describe := (unifyTraced a b).mapError describe
  first step x := x.mapError (.inside step)
  later older step x := (x.mapError (.inside step)).after older
  leave _ r := pure r

/-- Inference with its operations. -/
def inferTraced (env : Env) (n : Supply) (e : Expr α) : Traced Stop (Typed α) :=
  Mode.traced.infer env n e

/-- A map of computations that takes each step of a mode to that of another. -/
structure Mode.Maps {m m' : Type → Type} [Monad m] [Monad m'] (φ : {β : Type} → m β → m' β)
    (mode : Mode α m) (mode' : Mode α m') : Prop where
  bind : ∀ {β γ : Type} (x : m β) (k : β → m γ), φ (x >>= k) = φ x >>= fun b => φ (k b)
  stop : ∀ e, φ (mode.stop e) = mode'.stop e
  lookup : ∀ n env x, φ (mode.lookup n env x) = mode'.lookup n env x
  apply : ∀ n s t, φ (mode.apply n s t) = mode'.apply n s t
  rewrite : ∀ n env s, φ (mode.rewrite n env s) = mode'.rewrite n env s
  compose : ∀ n older newer, φ (mode.compose n older newer) = mode'.compose n older newer
  unify : ∀ a b describe, φ (mode.unify a b describe) = mode'.unify a b describe
  first : ∀ step x, φ (mode.first step x) = mode'.first step (φ x)
  later : ∀ older step x, φ (mode.later older step x) = mode'.later older step (φ x)
  leave : ∀ l r, φ (mode.leave l r) = mode'.leave l r

/-- If it does so for the steps, it takes inference to inference. -/
theorem Mode.Maps.infer {m m' : Type → Type} [Monad m] [Monad m'] {φ : {β : Type} → m β → m' β}
    {mode : Mode α m} {mode' : Mode α m'} (h : Maps φ mode mode') (env : Env) (n : Supply)
    (e : Expr α) : φ (mode.infer env n e) = mode'.infer env n e := by
  induction e generalizing env n with
  | missing | foreign => exact h.stop _
  | int | bool => exact h.leave _ _
  | var l x =>
    rw [Mode.infer, Mode.infer, var, var, h.bind, h.lookup]
    refine congrArg (mode'.lookup n env x >>= ·) (funext fun o => ?_)
    cases o with
    | none => exact h.stop _
    | some t => exact h.leave _ _
  | fn l x body ih =>
    simp only [Mode.infer, fn, h.bind, h.first, h.apply, h.leave, ih]
  | call l callee arg ihf iha =>
    simp only [Mode.infer, call, h.bind, h.first, h.rewrite, h.later, h.compose, h.apply, h.unify,
      h.leave, ihf, iha]
  | cond l test yes no ihc ihy ihn =>
    simp only [Mode.infer, cond, h.bind, h.first, h.rewrite, h.later, h.compose, h.apply, h.unify,
      h.leave, ihc, ihy, ihn]

/-- The steps end alike. -/
theorem Mode.maps_out : Maps (fun x => x.out) (traced : Mode α (Traced Stop)) plain where
  bind := out_bind
  stop _ := rfl
  lookup _ _ _ := rfl
  apply _ _ _ := rfl
  rewrite _ _ _ := rfl
  compose _ _ _ := rfl
  unify _ _ _ := rfl
  first _ _ := rfl
  later older step x := mapError_mapError (Stop.inside step) (.after older) x.out
  leave _ _ := rfl

/-- **Traced inference ends as inference does.** -/
theorem out_inferTraced (env : Env) (n : Supply) (e : Expr α) :
    (inferTraced env n e).out = infer env n e :=
  Mode.maps_out.infer env n e

/-- A part with a result, whatever is done with its errors. -/
theorem infer_of_out_mapError {env : Env} {n : Supply} {e : Expr α} {r : Typed α} {f : Stop → Stop}
    (h : ((inferTraced env n e).mapError f).out = .ok r) : infer env n e = .ok r := by
  rw [← out_inferTraced]
  exact mapError_eq_ok_iff.1 h

theorem infer_of_out_after {env : Env} {n : Supply} {e : Expr α} {r : Typed α} {f : Stop → Stop}
    {older : Subst} (h : (((inferTraced env n e).mapError f).after older).out = .ok r) :
    infer env n e = .ok r :=
  infer_of_out_mapError (mapError_eq_ok_iff.1 h)

/-- A step that reads a table. -/
theorem Traced.exposes_perform (n : Supply) (op : Operation) :
    (perform n op).Exposes Stop.IsFault :=
  exposes_make (fun _ => trivial) op

theorem Traced.exposes_equation (a b : Ty) (describe : UnifyError → InferError) (s : Subst)
    (n : Supply) : ((unifyTraced a b).mapError (.ofUnify describe s n)).Exposes Stop.IsFault :=
  (exposes_unifyTraced a b).mapError (Stop.isFault_ofUnify describe s n)

/-- **Faults.** Inference faults if and only if one of the operations it makes does. -/
theorem exposes_inferTraced (env : Env) (n : Supply) (e : Expr α) :
    (inferTraced env n e).Exposes Stop.IsFault := by
  induction e generalizing env n with
  | missing | foreign => exact exposes_stop id
  | int | bool => exact exposes_pure _
  | var l x =>
    rw [inferTraced, Mode.infer, Mode.var]
    refine (exposes_perform _ _).bind fun o _ => ?_
    cases o with
    | none => exact exposes_stop id
    | some t => exact exposes_pure _
  | fn l x body ih =>
    rw [inferTraced, Mode.infer, Mode.fn]
    refine ((ih _ _).mapError (Stop.isFault_inside .body)).bind fun b _ => ?_
    exact (exposes_perform _ _).bind fun _ _ => exposes_pure _
  | call l callee arg ihf iha =>
    rw [inferTraced, Mode.infer, Mode.call]
    refine ((ihf _ _).mapError (Stop.isFault_inside .callee)).bind fun f _ => ?_
    refine (exposes_perform _ _).bind fun env' _ => ?_
    refine (((iha _ _).mapError (Stop.isFault_inside .arg)).after _).bind fun a _ => ?_
    refine (exposes_perform _ _).bind fun s _ => (exposes_perform _ _).bind fun ft _ => ?_
    refine (exposes_equation _ _ _ _ _).bind fun u _ => ?_
    exact (exposes_perform _ _).bind fun t _ =>
      (exposes_perform _ _).bind fun s' _ => exposes_pure _
  | cond l test yes no ihc ihy ihn =>
    rw [inferTraced, Mode.infer, Mode.cond]
    refine ((ihc _ _).mapError (Stop.isFault_inside .test)).bind fun c _ => ?_
    refine (exposes_equation _ _ _ _ _).bind fun u _ => ?_
    refine (exposes_perform _ _).bind fun s₁ _ => (exposes_perform _ _).bind fun env₁ _ => ?_
    refine (((ihy _ _).mapError (Stop.isFault_inside .yes)).after _).bind fun y _ => ?_
    refine (exposes_perform _ _).bind fun s₂ _ => (exposes_perform _ _).bind fun env₂ _ => ?_
    refine (((ihn _ _).mapError (Stop.isFault_inside .no)).after _).bind fun z _ => ?_
    refine (exposes_perform _ _).bind fun s₃ _ => (exposes_perform _ _).bind fun yt _ => ?_
    refine (exposes_equation _ _ _ _ _).bind fun w _ => ?_
    exact (exposes_perform _ _).bind fun t _ => (exposes_perform _ _).bind fun s _ => exposes_pure _

end Monotype
