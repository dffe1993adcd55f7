import Monotype.Proofs.Generation
import Monotype.Proofs.Unification

/-!
# Inference without missing types

A fault comes from a missing type that is read. If no declared type has a missing part, inference
reads none: it ends with a type or with an error (`totalOn`), and neither the type nor the
substitution found has a missing part, also if inference fails. No other assumption is made. The
variables handed out may be in use already, and then the substitution found may well be cyclic.

The statement is carried through inference by `Total`, which has one lemma for each kind of step: a
step that can only fault, an equation, and a part.
-/

namespace Monotype

variable {α β γ : Type}

/-! ## Computations without faults -/

/-- The computation ends with a result that satisfies `p`, or it fails and the substitution found
before has no missing part. It does not fault. -/
def Total (p : β → Prop) : Except Stop β → Prop
  | .ok b => p b
  | .error (.failed f _) => f.subst.Forall Ty.IsComplete
  | .error (.faulted _ _ _) => False

namespace Total

variable {p : β → Prop} {q : γ → Prop} {x : Except Stop β} {k : β → Except Stop γ} {s : Subst}

theorem of_ok {b : β} (h : Total p x) (hx : x = .ok b) : p b := by
  subst hx
  exact h

theorem bind (hx : Total p x) (hk : ∀ b, p b → Total q (k b)) : Total q (x >>= k) := by
  match x with
  | .ok b => exact hk b hx
  | .error (.failed _ _) => exact hx
  | .error (.faulted _ _ _) => exact hx

/-- A step that can only fault, and does not. -/
theorem step {n : Supply} {y : Except Fault β} {b : β} (hy : y = .ok b) (hk : Total q (k b)) :
    Total q (guarded n y >>= k) := by
  subst hy
  exact hk

/-- An equation between two types. -/
theorem equation {a b : Ty} {describe : UnifyError → InferError} {n : Supply}
    {k : Subst → Except Stop γ} (hs : s.Forall Ty.IsComplete) (ha : a.IsComplete)
    (hb : b.IsComplete) (hk : ∀ u : Subst, u.Forall Ty.IsComplete → Total q (k u)) :
    Total q ((unify a b).mapError (.ofUnify describe s n) >>= k) := by
  rcases Ty.hereditary_isComplete.unify_answers ha hb with ⟨u, hu, hcu⟩ | ⟨e, he⟩
  · rw [hu]
    exact hk u hcu
  · rw [he]
    exact hs

/-- The first part of an expression. -/
theorem inside (h : Total p x) (step : Step) : Total p (x.mapError (.inside step)) := by
  match x with
  | .ok _ | .error (.failed _ _) | .error (.faulted _ _ _) => exact h

/-- A later part: if it fails, what was found before the part is joined. -/
theorem after (h : Total p x) (hs : s.Forall Ty.IsComplete) (step : Step) :
    Total p (x.mapError fun e => (e.inside step).after s) := by
  match x with
  | .ok _ | .error (.faulted _ _ _) => exact h
  | .error (.failed f n) =>
    obtain ⟨s', hs', hc⟩ := Subst.exists_compose Ty.hereditary_isComplete hs h
    simp only [mapError_error, Stop.inside, Stop.after, hs']
    exact hc

end Total

/-! ## Inference -/

theorem complete_of_unify {a b : Ty} {u : Subst} (ha : a.IsComplete) (hb : b.IsComplete)
    (h : unify a b = .ok u) : u.Forall Ty.IsComplete := by
  rcases Ty.hereditary_isComplete.unify_answers ha hb with ⟨u', hu', hc⟩ | ⟨e, he⟩
  · rw [h] at hu'
    cases hu'
    exact hc
  · rw [h] at he
    cases he

/-- Neither the type found nor the substitution has a missing part. -/
structure Typed.IsComplete (r : Typed α) : Prop where
  type : r.type.IsComplete
  subst : r.subst.Forall Ty.IsComplete

/-- Inference of the expression is total, in all environments without missing types. -/
def TotalOn (e : Expr α) : Prop :=
  ∀ {env : Env} (n : Supply), env.Forall Ty.IsComplete → Total Typed.IsComplete (infer env n e)

theorem totalOn_fn {body : Expr α} (ih : TotalOn body) (l : α) (x : String) :
    TotalOn (.fn l x body) := by
  intro env n he
  have he' : (env.declare x (.var n.next)).Forall Ty.IsComplete := Env.forall_declare he trivial
  rw [infer_fn, Mode.fn]
  refine ((ih n.fresh.2 he').inside .body).bind fun b hb => ?_
  obtain ⟨param, hparam, hc⟩ := Subst.exists_apply Ty.hereditary_isComplete hb.subst (.var n.next)
  exact .step hparam ⟨⟨hc trivial, hb.type⟩, hb.subst⟩

theorem totalOn_call {callee arg : Expr α} (ihf : TotalOn callee) (iha : TotalOn arg) (l : α) :
    TotalOn (.call l callee arg) := by
  intro env n he
  have hereditary := Ty.hereditary_isComplete
  rw [infer_call, Mode.call]
  refine ((ihf n he).inside .callee).bind fun f hf => ?_
  obtain ⟨env', henv, he'⟩ := Env.exists_apply hereditary he hf.subst
  refine .step henv (((iha f.supply he').after hf.subst .arg).bind fun a ha => ?_)
  obtain ⟨s, hs, hcs⟩ := Subst.exists_compose hereditary hf.subst ha.subst
  obtain ⟨ft, hft, hcft⟩ := Subst.exists_apply hereditary ha.subst f.type
  refine .step hs (.step hft (.equation hcs (hcft hf.type) ⟨ha.type, trivial⟩ fun u hu => ?_))
  obtain ⟨t, ht, hct⟩ := Subst.exists_apply hereditary hu (.var a.supply.next)
  obtain ⟨s', hs', hcs'⟩ := Subst.exists_compose hereditary hcs hu
  exact .step ht (.step hs' ⟨hct trivial, hcs'⟩)

theorem totalOn_cond {test yes no : Expr α} (ihc : TotalOn test) (ihy : TotalOn yes)
    (ihn : TotalOn no) (l : α) : TotalOn (.cond l test yes no) := by
  intro env n he
  have hereditary := Ty.hereditary_isComplete
  rw [infer_cond, Mode.cond]
  refine ((ihc n he).inside .test).bind fun c hc =>
    .equation hc.subst hc.type trivial fun u hu => ?_
  obtain ⟨s₁, hs₁, hcs₁⟩ := Subst.exists_compose hereditary hc.subst hu
  obtain ⟨env₁, henv₁, he₁⟩ := Env.exists_apply hereditary he hcs₁
  refine .step hs₁ (.step henv₁ (((ihy c.supply he₁).after hcs₁ .yes).bind fun y hy => ?_))
  obtain ⟨s₂, hs₂, hcs₂⟩ := Subst.exists_compose hereditary hcs₁ hy.subst
  obtain ⟨env₂, henv₂, he₂⟩ := Env.exists_apply hereditary he hcs₂
  refine .step hs₂ (.step henv₂ (((ihn y.supply he₂).after hcs₂ .no).bind fun z hz => ?_))
  obtain ⟨s₃, hs₃, hcs₃⟩ := Subst.exists_compose hereditary hcs₂ hz.subst
  obtain ⟨yt, hyt, hcyt⟩ := Subst.exists_apply hereditary hz.subst y.type
  refine .step hs₃ (.step hyt (.equation hcs₃ (hcyt hy.type) hz.type fun w hw => ?_))
  obtain ⟨t, ht, hct⟩ := Subst.exists_apply hereditary hw z.type
  obtain ⟨s, hs, hcs⟩ := Subst.exists_compose hereditary hcs₃ hw
  exact .step ht (.step hs ⟨hct hz.type, hcs⟩)

/-- **No faults.** -/
theorem totalOn (e : Expr α) : TotalOn e := by
  induction e with
  | missing | foreign => exact fun _ _ => Subst.forall_empty _
  | int | bool => exact fun _ _ => ⟨trivial, Subst.forall_empty _⟩
  | var l x =>
    intro env n he
    rw [infer_var, Mode.var]
    refine .step (Env.lookup_eq Ty.hereditary_isComplete he x) ?_
    cases hx : env.find? x with
    | none => exact Subst.forall_empty _
    | some t => exact ⟨he x t hx, Subst.forall_empty _⟩
  | fn l x body ih => exact totalOn_fn ih l x
  | call l callee arg ihf iha => exact totalOn_call ihf iha l
  | cond l test yes no ihc ihy ihn => exact totalOn_cond ihc ihy ihn l

end Monotype
