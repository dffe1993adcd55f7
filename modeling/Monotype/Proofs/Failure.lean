import Monotype.Proofs.Correspondence
import Monotype.Proofs.Lexical
import Monotype.Proofs.Positions

/-!
# What failures are about

A failure names the expression that it is about by its position. `Fails.isAbout` says that the
expression there is of the kind that the error tells. For a name that is not declared this depends
on the scope: the name is declared neither in the given environment nor by a function around the
position, since on the way down an environment loses no declarations and gains only these
parameters.
-/

namespace Monotype

variable {α : Type} {env : Env} {n m : Supply} {e : Expr α} {f : Failure}

/-! ## What an error is about -/

/-- Unification of the two types fails, and this is the cause of the error. -/
def InferError.CausedBy (error : InferError) (a b : Ty) : Prop :=
  ∃ cause, error.cause? = some cause ∧ Monotype.unify a b = .error (.error cause)

/-- The expression is what the error is about. The given names are parameters of functions around
it. -/
def InferError.IsAbout (env : Env) (params : List String) (d : Expr α) (error : InferError) :
    Prop :=
  match error with
  | .undeclared x => (∃ l, d = .var l x) ∧ x ∉ params ∧ env.find? x = none
  | .unify _ => ∃ l callee arg, d = .call l callee arg
  | .conditionNotBool actual _ =>
    (∃ l test yes no, d = .cond l test yes no) ∧ error.CausedBy actual .bool
  | .branchMismatch yesTy noTy _ =>
    (∃ l test yes no, d = .cond l test yes no) ∧ error.CausedBy yesTy noTy
  | .unhandled none => d = .missing
  | .unhandled (some kind) => ∃ l, d = .foreign l kind
  | .emptyExpr => False

/-- The expression at the position is what the error is about. -/
def Blame.IsAbout (env : Env) (e : Expr α) (b : Blame) : Prop :=
  ∃ d, e.at? b.site = some d ∧ b.error.IsAbout env (e.paramsAround b.site) d

theorem Env.find?_declare_eq_none_iff {x y : String} {t : Ty} :
    (env.declare x t).find? y = none ↔ y ≠ x ∧ env.find? y = none := by
  rw [find?_declare]
  split
  next h => simp [h]
  next h => simp [Ne.symm h]

/-- Rewriting neither adds nor removes declarations. -/
theorem Env.find?_apply_eq_none_iff {env' : Env} {s : Subst} {x : String}
    (h : env.apply s = .ok env') : env'.find? x = none ↔ env.find? x = none := by
  rcases (find?_of_apply h).2 x with ⟨hx, hx'⟩ | ⟨t, u, hx, -, hx'⟩
  · simp only [hx, hx']
  · simp [hx, hx']

/-- A part, seen from the whole. -/
theorem Blame.IsAbout.inside {env' : Env} {part : Expr α} {b : Blame} (h : b.IsAbout env' part)
    {step : Step} (hpart : e.child? step = some part)
    (scope : ∀ x, env'.find? x = none → x ∉ e.param?.toList ∧ env.find? x = none) :
    Blame.IsAbout env e ⟨b.error, step :: b.site⟩ := by
  obtain ⟨d, hd, about⟩ := h
  have params : e.paramsAround (step :: b.site) = e.param?.toList ++ part.paramsAround b.site := by
    rw [Expr.paramsAround, hpart]
    rfl
  refine ⟨d, Option.bind_eq_some_iff.2 ⟨part, hpart, hd⟩, ?_⟩
  show b.error.IsAbout env (e.paramsAround (step :: b.site)) d
  rw [params]
  cases hb : b.error with
  | undeclared x =>
    rw [hb] at about
    obtain ⟨hvar, hx, hfind⟩ := about
    obtain ⟨hparam, hfind'⟩ := scope x hfind
    exact ⟨hvar, List.not_mem_append hparam hx, hfind'⟩
  | unify | conditionNotBool | branchMismatch | emptyExpr =>
    rw [hb] at about
    exact about
  | unhandled kind =>
    rw [hb] at about
    cases kind <;> exact about

/-- **What failures are about.** -/
theorem Fails.isAbout (h : Fails env n e f m) : f.toBlame.IsAbout env e := by
  -- an environment that was rewritten declares the same names
  have rewritten : ∀ {env env' : Env} {s : Subst} {e : Expr α}, e.param? = none →
      env.apply s = .ok env' → ∀ x, env'.find? x = none →
      x ∉ e.param?.toList ∧ env.find? x = none := by
    intro env env' s e hparam henv x hx
    rw [hparam]
    exact ⟨List.not_mem_nil, (Env.find?_apply_eq_none_iff henv).1 hx⟩
  induction h with
  | missing => exact ⟨_, rfl, rfl⟩
  | foreign => exact ⟨_, rfl, _, rfl⟩
  | undeclared hx => exact ⟨_, rfl, ⟨_, rfl⟩, List.not_mem_nil, hx⟩
  | body _ ih =>
    refine ih.inside rfl fun y hy => ?_
    obtain ⟨ne, hy⟩ := Env.find?_declare_eq_none_iff.1 hy
    exact ⟨fun hmem => ne (List.mem_singleton.1 hmem), hy⟩
  | callee _ ih | test _ ih => exact ih.inside rfl fun x hx => ⟨List.not_mem_nil, hx⟩
  | arg _ henv _ _ ih => exact ih.inside rfl (rewritten rfl henv)
  | yes _ _ _ henv _ _ ih => exact ih.inside rfl (rewritten rfl henv)
  | no _ _ _ _ _ _ henv _ _ ih => exact ih.inside rfl (rewritten rfl henv)
  | call => exact ⟨_, rfl, _, _, _, rfl⟩
  | condition _ hcause => exact ⟨_, rfl, ⟨_, _, _, _, rfl⟩, _, rfl, hcause⟩
  | branches _ _ _ _ _ _ _ _ _ _ hcause => exact ⟨_, rfl, ⟨_, _, _, _, rfl⟩, _, rfl, hcause⟩

/-! ## Expressions that have a type -/

/-- All names that occur free are declared. -/
theorem declared_of_infer {r : Typed α} (h : infer env n e = .ok r) {x : String}
    (hx : x ∈ e.freeNames) : env.find? x ≠ none := by
  induction e generalizing env n r with
  | missing | int | bool | foreign => cases hx
  | var l y =>
    obtain rfl : x = y := List.mem_singleton.1 hx
    intro hnone
    rw [infer_eq_failed_iff.2 (Fails.undeclared hnone)] at h
    cases h
  | fn l y body ih =>
    obtain ⟨run, -⟩ := infer_fn_ok h
    obtain ⟨hx, ne⟩ := List.mem_filter.1 hx
    exact fun hnone => ih run.b_eq hx
      (Env.find?_declare_eq_none_iff.2 ⟨of_decide_eq_true ne, hnone⟩)
  | call l callee arg ihf iha =>
    obtain ⟨run, -⟩ := infer_call_ok h
    rcases List.mem_append.1 hx with hx | hx
    · exact ihf run.f_eq hx
    · exact mt (Env.find?_apply_eq_none_iff run.env₁_eq).2 (iha run.a_eq hx)
  | cond l test yes no ihc ihy ihn =>
    obtain ⟨run, -⟩ := infer_cond_ok h
    rcases List.mem_append.1 hx with hx | hx
    · rcases List.mem_append.1 hx with hx | hx
      · exact ihc run.c_eq hx
      · exact mt (Env.find?_apply_eq_none_iff run.env₁_eq).2 (ihy run.y_eq hx)
    · exact mt (Env.find?_apply_eq_none_iff run.env₂_eq).2 (ihn run.z_eq hx)

/-- No part is missing or of a foreign kind. -/
theorem known_of_infer {r : Typed α} {p : Path} {d : Expr α} (h : infer env n e = .ok r)
    (hd : e.at? p = some d) : d ≠ .missing ∧ d.foreignKind? = none := by
  obtain ⟨⟨env', n', e'⟩, r', -, rfl, hr', -⟩ := exists_call_at h hd
  cases e' with
  | missing | foreign => cases hr'
  | int | bool | var | fn | call | cond => exact ⟨nofun, rfl⟩

/-! ## Contexts -/

/-- **Diagnosis.** If inference finds a type, the context shows neither an error nor an offending
expression; all names that occur free are declared, and no part of the expression is missing or of a
foreign kind. If inference fails, the context shows the error that was answered, and the part of the
expression at some position, or nothing if this part is missing. The error is about this part. For
an undeclared name, it is a use of the name which no function around it binds, and the environment
does not declare the name. For types that do not unify it is a call. For a condition or for branches
it is a conditional, the error has a cause, and unification of the types in the error fails with
this cause. Otherwise it is missing or of a foreign kind. Both ways to ask for a cause agree. -/
theorem infer_diagnosis (history : List Context.Action) (env : Option Env) (e : Expr Label)
    (he : e ≠ .missing) (complete : (env.getD ∅).Forall Ty.IsComplete) :
    (((∃ t s k, (Context.after history).Finds env e t s k) ∧
        (∀ x ∈ e.freeNames, (env.getD ∅).find? x ≠ none) ∧
        ∀ p d, e.at? p = some d → d ≠ .missing ∧ d.foreignKind? = none) ∨
      ∃ error site s k d, e.at? site = some d ∧
        ((Context.after history).infer env e).2 = .error error ∧
        ((Context.after history).infer env e).1.view = ⟨some error, d.shown?, s, k⟩ ∧
        error.IsAbout (env.getD ∅) (e.paramsAround site) d) ∧
    ∀ error : InferError, error.unwrap? = error.cause? := by
  refine ⟨?_, fun error => by cases error <;> rfl⟩
  have clean := Context.clean_after history
  have total := totalOn e ⟨(env.getD ∅).next, 0⟩ complete
  match h : infer (env.getD ∅) ⟨(env.getD ∅).next, 0⟩ e with
  | .ok r =>
    obtain ⟨t, ht, -⟩ := Subst.exists_apply Ty.hereditary_isComplete (total.of_ok h).subst r.type
    exact .inl ⟨⟨t, _, _, clean.finds he h ht⟩, fun _ => declared_of_infer h,
      fun _ _ => known_of_infer h⟩
  | .error (.failed f m) =>
    obtain ⟨d, hd, about⟩ := (infer_eq_failed_iff.1 h).isAbout
    obtain ⟨answer, view⟩ := clean.blames he h hd
    exact .inr ⟨f.error, f.site, f.subst, m.count, d, hd, answer, view, about⟩
  | .error (.faulted f blame m) =>
    rw [h] at total
    exact total.elim

/-- The name `k` of a term with a type is declared. In the other term the name `y` is not, under a
function of `x`, and its use is shown. A number is not a condition, whatever the branches are, and
the conditional is shown. Nothing is shown of a body that is missing. -/
theorem infer_diagnosis_brokenChoice :
    openEnv.find? "k" ≠ none ∧
    (∃ site l, brokenChoice.at? site = some (.var l "y") ∧
      (({} : Context).infer (some openEnv) brokenChoice).1.view.invalid = some (.var l "y") ∧
      "y" ∉ brokenChoice.paramsAround site ∧ openEnv.find? "y" = none) ∧
    (∃ l test yes no, (({} : Context).infer (some openEnv)
        (.cond 0 (.int 1 7) .missing .missing)).1.view.invalid = some (.cond l test yes no) ∧
      unify .int .bool = .error (.error (.mismatch .int .bool))) ∧
    ∃ site, (Expr.fn 0 "x" .missing).at? site = some .missing ∧
      (({} : Context).infer (some openEnv) (.fn 0 "x" .missing)).1.view.invalid = none := by
  have complete := isFresh_openEnv.isComplete
  refine ⟨?_, ?_, ?_, ?_⟩
  · have run : (({} : Context).infer (some openEnv) choice).2 =
        .result (.arrow (.arrow .int .bool) .int) := by cbv
    have ends := infer_diagnosis [] (some openEnv) choice (by simp [choice]) complete
    rcases ends.1 with ⟨-, declared, -⟩ | ⟨error, site, s, k, d, -, answer, -⟩
    · exact declared "k" (by decide)
    · cases run.symm.trans answer
  · have run : (({} : Context).infer (some openEnv) brokenChoice).2 =
        .error (.undeclared "y") := by cbv
    have ends := infer_diagnosis [] (some openEnv) brokenChoice (by simp [brokenChoice]) complete
    rcases ends.1 with ⟨⟨t, s, k, answer, -⟩, -⟩ | ⟨error, site, s, k, d, hd, answer, view, about⟩
    · cases run.symm.trans answer
    · cases run.symm.trans answer
      obtain ⟨⟨l, rfl⟩, hx, hfind⟩ := about
      exact ⟨site, l, hd, congrArg Context.View.invalid view, hx, hfind⟩
  · have run : (({} : Context).infer (some openEnv) (.cond 0 (.int 1 7) .missing .missing)).2 =
        .error (.conditionNotBool .int (.mismatch .int .bool)) := by cbv
    have ends := infer_diagnosis [] (some openEnv) (.cond 0 (.int 1 7) .missing .missing) (by simp)
      complete
    rcases ends.1 with ⟨⟨t, s, k, answer, -⟩, -⟩ | ⟨error, site, s, k, d, hd, answer, view, about⟩
    · cases run.symm.trans answer
    · cases run.symm.trans answer
      obtain ⟨⟨l, test, yes, no, rfl⟩, cause, hcause, hunify⟩ := about
      cases hcause
      exact ⟨l, test, yes, no, congrArg Context.View.invalid view, hunify⟩
  · have run : (({} : Context).infer (some openEnv) (.fn 0 "x" .missing)).2 =
        .error (.unhandled none) := by cbv
    have ends := infer_diagnosis [] (some openEnv) (.fn 0 "x" .missing) (by simp) complete
    rcases ends.1 with ⟨⟨t, s, k, answer, -⟩, -⟩ | ⟨error, site, s, k, d, hd, answer, view, about⟩
    · cases run.symm.trans answer
    · cases run.symm.trans answer
      cases about
      exact ⟨site, hd, congrArg Context.View.invalid view⟩

end Monotype
