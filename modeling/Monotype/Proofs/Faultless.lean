import Monotype.Proofs.Sharing
import Monotype.Proofs.Trace

/-!
# Contexts without faults

A context faults if it comes to a missing type in a substitution or an environment, or to a foreign
node in the traversal of an annotated expression. If no declared type has a missing part, none of
this happens, whatever the expression and whichever variable comes next in the environment.
Variables that are handed out may already be in use, and the substitution found may be cyclic.
As everywhere in the library, types of a foreign kind are taken to have comparable values.

`onlyCompleteOn` says that every operation of inference reads complete types only. It follows the
definition of `inferTraced`, with one lemma for each kind of step, and takes from `totalOn` how the
parts end. `infer_faultless` puts this together with what contexts do.
-/

namespace Monotype

variable {α β γ ε : Type}

/-! ## Operations on complete types -/

namespace Operation

/-- No type that the operation reads has a missing part. -/
def IsComplete : Operation → Prop
  | .lookup env _ => env.Forall Ty.IsComplete
  | .apply s t => s.Forall Ty.IsComplete ∧ t.IsComplete
  | .rewrite env s => env.Forall Ty.IsComplete ∧ s.Forall Ty.IsComplete
  | .compose older newer => older.Forall Ty.IsComplete ∧ newer.Forall Ty.IsComplete

/-- No type in an answer has a missing part. -/
def Completes : (op : Operation) → op.Answer → Prop
  | .lookup _ _, o => ∀ t, o = some t → t.IsComplete
  | .apply _ _, t => t.IsComplete
  | .rewrite _ _, env => env.Forall Ty.IsComplete
  | .compose _ _, s => s.Forall Ty.IsComplete

theorem IsComplete.answers {op : Operation} (h : op.IsComplete) :
    ∃ x, op.run = .ok x ∧ op.Completes x := by
  have hereditary := Ty.hereditary_isComplete
  cases op with
  | lookup env x => exact ⟨_, Env.lookup_eq hereditary h x, h x⟩
  | apply s t =>
    obtain ⟨u, hu, hc⟩ := Subst.exists_apply hereditary h.1 t
    exact ⟨u, hu, hc h.2⟩
  | rewrite env s => exact Env.exists_apply hereditary h.1 h.2
  | compose older newer => exact Subst.exists_compose hereditary h.1 h.2

theorem IsComplete.completes {op : Operation} (h : op.IsComplete) {x : op.Answer}
    (hx : op.run = .ok x) : op.Completes x := by
  obtain ⟨y, hy, hc⟩ := h.answers
  rw [hx] at hy
  cases hy
  exact hc

end Operation

open Traced

/-! ## Traces -/

/-- The computation reads complete types only. -/
abbrev Traced.OnlyComplete (x : Traced ε β) : Prop := x.Only Operation.IsComplete

/-- An operation. -/
theorem Traced.onlyComplete_step {ε' : Type} {op : Operation} {f : Fault → ε'}
    {k : op.Answer → Traced ε' γ} (h : op.IsComplete)
    (hk : ∀ x, op.Completes x → (k x).OnlyComplete) : ((make op).mapError f >>= k).OnlyComplete :=
  only_step h fun x hx => hk x (h.completes hx)

theorem onlyComplete_unifyTraced {a b : Ty} (ha : a.IsComplete) (hb : b.IsComplete) :
    (unifyTraced a b).OnlyComplete := by
  -- what unifies the arguments is complete, so it can be applied to the returns
  have reads : ∀ {a r b t : Ty} {s : Subst}, a.IsComplete → b.IsComplete → r.IsComplete →
      t.IsComplete → unify a b = .ok s →
      (Operation.apply s r).IsComplete ∧ (Operation.apply s t).IsComplete := by
    intro a r b t s ha hb hr ht hs
    have hcs := complete_of_unify ha hb hs
    exact ⟨⟨hcs, hr⟩, hcs, ht⟩
  refine only_unifyTraced (p := fun a b => a.IsComplete ∧ b.IsComplete) ?_ ?_ ?_ ?_ ⟨ha, hb⟩
  · rintro a r b t ⟨⟨ha, -⟩, hb, -⟩
    exact ⟨ha, hb⟩
  · rintro a r b t s r' t' ⟨⟨ha, hr⟩, hb, ht⟩ hs hr' ht'
    obtain ⟨hsr, hst⟩ := reads ha hb hr ht hs
    exact ⟨hsr.completes hr', hst.completes ht'⟩
  · rintro a r b t s ⟨⟨ha, hr⟩, hb, ht⟩ hs
    exact reads ha hb hr ht hs
  · rintro a r b t s r' t' u ⟨⟨ha, hr⟩, hb, ht⟩ hs hr' ht' hu
    obtain ⟨hsr, hst⟩ := reads ha hb hr ht hs
    exact ⟨complete_of_unify ha hb hs, complete_of_unify (hsr.completes hr') (hst.completes ht') hu⟩

/-- An equation between two types. -/
theorem Traced.onlyComplete_equation {a b : Ty} {f : UnifyStop → Stop} {k : Subst → Traced Stop γ}
    (ha : a.IsComplete) (hb : b.IsComplete)
    (hk : ∀ u : Subst, u.Forall Ty.IsComplete → (k u).OnlyComplete) :
    ((unifyTraced a b).mapError f >>= k).OnlyComplete :=
  ((onlyComplete_unifyTraced ha hb).mapError f).bind fun u hu =>
    hk u (complete_of_unify ha hb (mapError_eq_ok_iff.1 hu))

/-- Inference of the expression reads complete types only, in all environments without missing
types. -/
def OnlyCompleteOn (e : Expr α) : Prop :=
  ∀ {env : Env} (n : Supply), env.Forall Ty.IsComplete → (inferTraced env n e).OnlyComplete

section Parts

variable {e : Expr α} {env : Env} {n : Supply} {k : Typed α → Traced Stop γ}

/-- The first part of an expression. -/
theorem OnlyCompleteOn.first (ih : OnlyCompleteOn e) (he : env.Forall Ty.IsComplete)
    {f : Stop → Stop} (hk : ∀ r : Typed α, r.IsComplete → (k r).OnlyComplete) :
    ((inferTraced env n e).mapError f >>= k).OnlyComplete :=
  ((ih n he).mapError f).bind fun r hr => hk r ((totalOn e n he).of_ok (infer_of_out_mapError hr))

/-- A later part: if it fails, what was found before the part is composed with what it leaves. -/
theorem OnlyCompleteOn.later (ih : OnlyCompleteOn e) (he : env.Forall Ty.IsComplete) {s : Subst}
    (hs : s.Forall Ty.IsComplete) {step : Step}
    (hk : ∀ r : Typed α, r.IsComplete → (k r).OnlyComplete) :
    (((inferTraced env n e).mapError (.inside step)).after s >>= k).OnlyComplete := by
  refine (((ih n he).mapError _).after fun f n' hf => ⟨hs, ?_⟩).bind fun r hr =>
    hk r ((totalOn e n he).of_ok (infer_of_out_after hr))
  have total := (totalOn e n he).inside step
  rw [← out_inferTraced, ← out_mapError, hf] at total
  exact total

end Parts

theorem onlyCompleteOn_fn {body : Expr α} (ih : OnlyCompleteOn body) (l : α) (x : String) :
    OnlyCompleteOn (.fn l x body) := by
  intro env n he
  have he' : (env.declare x (.var n.next)).Forall Ty.IsComplete := Env.forall_declare he trivial
  rw [inferTraced, Mode.infer, Mode.fn]
  exact ih.first he' fun b hb => onlyComplete_step ⟨hb.subst, trivial⟩ fun _ _ => only_pure _

theorem onlyCompleteOn_call {callee arg : Expr α} (ihf : OnlyCompleteOn callee)
    (iha : OnlyCompleteOn arg) (l : α) : OnlyCompleteOn (.call l callee arg) := by
  intro env n he
  rw [inferTraced, Mode.infer, Mode.call]
  refine ihf.first he fun f hf => onlyComplete_step ⟨he, hf.subst⟩ fun env' he' => ?_
  refine iha.later he' hf.subst fun a ha => onlyComplete_step ⟨hf.subst, ha.subst⟩ fun s hs => ?_
  refine onlyComplete_step ⟨ha.subst, hf.type⟩ fun ft hft => ?_
  refine onlyComplete_equation hft ⟨ha.type, trivial⟩ fun u hu => ?_
  exact onlyComplete_step ⟨hu, trivial⟩ fun t _ => onlyComplete_step ⟨hs, hu⟩ fun _ _ => only_pure _

theorem onlyCompleteOn_cond {test yes no : Expr α} (ihc : OnlyCompleteOn test)
    (ihy : OnlyCompleteOn yes) (ihn : OnlyCompleteOn no) (l : α) :
    OnlyCompleteOn (.cond l test yes no) := by
  intro env n he
  rw [inferTraced, Mode.infer, Mode.cond]
  refine ihc.first he fun c hc => onlyComplete_equation hc.type trivial fun u hu => ?_
  refine onlyComplete_step ⟨hc.subst, hu⟩ fun s₁ hs₁ =>
    onlyComplete_step ⟨he, hs₁⟩ fun env₁ he₁ => ?_
  refine ihy.later he₁ hs₁ fun y hy => onlyComplete_step ⟨hs₁, hy.subst⟩ fun s₂ hs₂ => ?_
  refine onlyComplete_step ⟨he, hs₂⟩ fun env₂ he₂ => ihn.later he₂ hs₂ fun z hz => ?_
  refine onlyComplete_step ⟨hs₂, hz.subst⟩ fun s₃ hs₃ => ?_
  refine onlyComplete_step ⟨hz.subst, hy.type⟩ fun yt hyt => ?_
  refine onlyComplete_equation hyt hz.type fun w hw => ?_
  exact onlyComplete_step ⟨hw, hz.type⟩ fun t _ =>
    onlyComplete_step ⟨hs₃, hw⟩ fun _ _ => only_pure _

/-- **Only complete types are read.** -/
theorem onlyCompleteOn (e : Expr α) : OnlyCompleteOn e := by
  induction e with
  | missing | foreign => exact fun _ _ => only_stop _
  | int | bool => exact fun _ _ => only_pure _
  | var l x =>
    intro env n he
    rw [inferTraced, Mode.infer, Mode.var]
    refine onlyComplete_step he fun o _ => ?_
    cases o with
    | none => exact only_stop _
    | some t => exact only_pure _
  | fn l x body ih => exact onlyCompleteOn_fn ih l x
  | call l callee arg ihf iha => exact onlyCompleteOn_call ihf iha l
  | cond l test yes no ihc ihy ihn => exact onlyCompleteOn_cond ihc ihy ihn l

/-! ## Calls -/

/-- **One call.** -/
theorem Call.Makes.complete {c d : Call α} (h : c.Makes d) (hc : c.env.Forall Ty.IsComplete) :
    d.env.Forall Ty.IsComplete := by
  have applied : ∀ {env env' : Env} {s : Subst}, env.Forall Ty.IsComplete → s.Forall Ty.IsComplete →
      env.apply s = .ok env' → env'.Forall Ty.IsComplete := by
    intro env env' s he hs
    have reads : (Operation.rewrite env s).IsComplete := ⟨he, hs⟩
    exact reads.completes
  have composed : ∀ {s u s' : Subst}, s.Forall Ty.IsComplete → u.Forall Ty.IsComplete →
      s.compose u = .ok s' → s'.Forall Ty.IsComplete := by
    intro s u s' hs hu
    have reads : (Operation.compose s u).IsComplete := ⟨hs, hu⟩
    exact reads.completes
  have hbool : Ty.bool.IsComplete := trivial
  cases h with
  | body => exact Env.forall_declare hc trivial
  | callee | test => exact hc
  | arg hf henv => exact applied hc ((totalOn _ _ hc).of_ok hf).subst henv
  | yes hr hu hs₁ henv₁ =>
    have hcr := (totalOn _ _ hc).of_ok hr
    exact applied hc (composed hcr.subst (complete_of_unify hcr.type hbool hu) hs₁) henv₁
  | no hr hu hs₁ henv₁ hy hs₂ henv₂ =>
    have hcr := (totalOn _ _ hc).of_ok hr
    have hcs₁ := composed hcr.subst (complete_of_unify hcr.type hbool hu) hs₁
    have hcy := (totalOn _ _ (applied hc hcs₁ henv₁)).of_ok hy
    exact applied hc (composed hcs₁ hcy.subst hs₂) henv₂

/-- **All calls.** -/
theorem Call.complete_of_reaches {c d : Call α} (h : Relation.ReflTransGen Makes c d)
    (hc : c.env.Forall Ty.IsComplete) : d.env.Forall Ty.IsComplete := by
  induction h with
  | refl => exact hc
  | tail _ hd ih => exact hd.complete ih

/-- No type in the tree has a missing part. -/
theorem complete_of_labelAt? {env : Env} {n : Supply} {e : Expr α} {r : Typed α} {p : Path} {l : α}
    {t : Ty} (he : env.Forall Ty.IsComplete) (h : infer env n e = .ok r)
    (hp : r.tree.labelAt? p = some (l, t)) : t.IsComplete := by
  obtain ⟨c, r', hc, -, hr', rfl⟩ := exists_call_of_labelAt? h hp
  have hcc := Call.complete_of_reaches (Call.reaches_of_at? hc) he
  exact ((totalOn _ _ hcc).of_ok hr').type

/-! ## Contexts -/

/-- The work ends with a result that satisfies `p`, or with an error. It does not fault. -/
def Outcome.Returns (p : β → Prop) : Outcome β → Prop
  | .result b => p b
  | .error _ => True
  | .fault _ => False

namespace Context

variable {c : Context} {env : Option Env} {e : Expr Label}

/-- Inference in a context returns, and leaves a complete substitution. -/
theorem Clean.infer_returns (hc : c.Clean) (complete : (env.getD ∅).Forall Ty.IsComplete) :
    (c.infer env e).2.Returns Ty.IsComplete ∧ (c.infer env e).1.subst.Forall Ty.IsComplete := by
  by_cases he : e = .missing
  · subst he
    have hsubst : (c.infer env .missing).1.subst = ∅ := congrArg View.subst hc.reset.1
    rw [hsubst]
    exact ⟨trivial, Subst.forall_empty _⟩
  have total := totalOn e (c.start env) complete
  match h : Monotype.infer (env.getD ∅) (c.start env) e with
  | .ok r =>
    obtain ⟨t, -, -, -, ht, hinfer, hsubst, -⟩ := c.exists_annotate (total.of_ok h) h
    rw [hinfer, hsubst]
    exact ⟨ht, (total.of_ok h).subst⟩
  | .error (.failed f n) =>
    obtain ⟨hinfer, -, hsubst⟩ := c.annotate_of_failed he h
    rw [h] at total
    rw [hinfer, hsubst]
    exact ⟨trivial, total⟩
  | .error (.faulted f blame n) =>
    rw [h] at total
    exact total.elim

/-- Annotation in a context returns, and has traversed the whole expression if it answers. -/
theorem annotate_returns (c : Context) (complete : (env.getD ∅).Forall Ty.IsComplete) :
    (c.annotate env e).2.Returns fun A =>
      (∀ (l : Label) (t : Ty), A[l]? = some t → t.IsComplete) ∧ e.walk = .ok e.nodes := by
  by_cases he : e = .missing
  · subst he
    trivial
  have total := totalOn e (c.start env) complete
  match h : Monotype.infer (env.getD ∅) (c.start env) e with
  | .ok r =>
    obtain ⟨-, m, A, -, -, -, -, hannotate, hA⟩ := c.exists_annotate (total.of_ok h) h
    rw [hannotate]
    refine ⟨fun l u hu => ?_, walk_of_infer h⟩
    obtain ⟨hl, t, ht, hu⟩ := (Annotations.getElem?_collect hA).1 hu
    obtain ⟨p, hp⟩ := exists_labelAt?_of_recorded (map_fst_tree h ▸ hl) ht
    have reads : (Operation.apply r.subst t).IsComplete :=
      ⟨(total.of_ok h).subst, complete_of_labelAt? complete h hp⟩
    exact reads.completes hu
  | .error (.failed f n) =>
    obtain ⟨-, hannotate, -⟩ := c.annotate_of_failed he h
    rw [hannotate]
    trivial
  | .error (.faulted f blame n) =>
    rw [h] at total
    exact total.elim

end Context

/-- **No faults.** If no declared type has a missing part, then after any history of uses, and for
any expression, inference and annotation return a result or an error. No type that is answered and
no type in the substitution left in the context has a missing part. An annotation that answers has
traversed the whole expression. All operations that inference makes read complete types only, and
answer. -/
theorem infer_faultless (history : List Context.Action) (env : Option Env) (e : Expr Label)
    (complete : (env.getD ∅).Forall Ty.IsComplete) :
    ((Context.after history).infer env e).2.Returns Ty.IsComplete ∧
    ((Context.after history).infer env e).1.subst.Forall Ty.IsComplete ∧
    (((Context.after history).annotate env e).2.Returns fun A =>
      (∀ (l : Label) (t : Ty), A[l]? = some t → t.IsComplete) ∧ e.walk = .ok e.nodes) ∧
    ((Context.after history).annotate env e).1.subst.Forall Ty.IsComplete ∧
    (inferTraced (env.getD ∅) ((Context.after history).start env) e).out =
      infer (env.getD ∅) ((Context.after history).start env) e ∧
    ∀ op ∈ (inferTraced (env.getD ∅) ((Context.after history).start env) e).steps,
      op.IsComplete ∧ ∃ x, op.run = .ok x := by
  have hc := Context.clean_after history
  generalize Context.after history = c at hc
  obtain ⟨returns, hsubst⟩ := hc.infer_returns (e := e) complete
  have same : (c.annotate env e).1.subst = (c.infer env e).1.subst :=
    congrArg Context.View.subst (c.view_annotate env e)
  refine ⟨returns, hsubst, c.annotate_returns complete, same ▸ hsubst, out_inferTraced _ _ e,
    fun op hop => ?_⟩
  have reads := onlyCompleteOn e (c.start env) complete op hop
  obtain ⟨x, hx, -⟩ := reads.answers
  exact ⟨reads, x, hx⟩

/-- The variable of `k` will be handed out, and the type of `z` is foreign. -/
def staleEnv : Env := (({ next := 0 } : Env).declare "k" (.var 1)).declare "z" (.foreign "Z")

/-- A call of `k 7` with a function that has the value `z`. -/
def staleCall : Expr Label := .call 0 (.call 1 (.var 2 "k") (.int 3 7)) (.fn 4 "x" (.var 5 "z"))

/-- The type of `k` becomes cyclic: its variable is also taken for the parameter `x`. -/
theorem infer_faultless_staleCall :
    ∃ c, (Context.after [.annotate none choice]).infer (some staleEnv) staleCall =
        (c, .result (.var 2)) ∧
      c.subst.find? 1 = some (.arrow .int (.arrow (.arrow (.var 1) (.foreign "Z")) (.var 2))) ∧
      c.subst.Forall Ty.IsComplete ∧
      (((Context.after [.annotate none choice]).annotate (some staleEnv) staleCall).2.Returns
        fun A => (∀ (l : Label) (t : Ty), A[l]? = some t → t.IsComplete) ∧
          staleCall.walk = .ok staleCall.nodes) ∧
      ∀ op ∈ (inferTraced staleEnv ⟨0, 0⟩ staleCall).steps,
        op.IsComplete ∧ ∃ x, op.run = .ok x := by
  have complete : staleEnv.Forall Ty.IsComplete :=
    Env.forall_declare (Env.forall_declare (fun x t h => by cases h) trivial) trivial
  have run : (Context.after [.annotate none choice]).infer (some staleEnv) staleCall =
      (((Context.after [.annotate none choice]).infer (some staleEnv) staleCall).1,
        .result (.var 2)) := by
    cbv
  obtain ⟨-, subst, annotated, -, -, reads⟩ :=
    infer_faultless [.annotate none choice] (some staleEnv) staleCall complete
  exact ⟨_, run, by cbv, subst, annotated, reads⟩

end Monotype
