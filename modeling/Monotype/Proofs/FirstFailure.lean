import Monotype.Proofs.Failure

/-!
# The first failure

Inference visits the parts of an expression in order and stops at the first that fails. What was not
visited then has no influence: `SameUntil` allows any other parts in its place, along the whole path
down to the position of the failure, and `Fails.congr` says that the failure stays the same. It goes
rule by rule, since no rule of `Fails` says anything about a part after the one that fails.
-/

namespace Monotype

variable {α : Type} {env : Env} {n m : Supply} {e e' : Expr α} {f : Failure}

/-- The expressions differ at most in parts that inference has not visited when it fails at the
position with the error, and in the labels on the way there. -/
inductive Expr.SameUntil (error : InferError) : Path → Expr α → Expr α → Prop where
  | here (e : Expr α) : SameUntil error [] e e
  | condition {actual : Ty} {cause : UnifyError} (l l' : α) (test yes yes' no no' : Expr α) :
      error = .conditionNotBool actual cause →
      SameUntil error [] (.cond l test yes no) (.cond l' test yes' no')
  | body {p : Path} {b b' : Expr α} (l l' : α) (x : String) :
      SameUntil error p b b' → SameUntil error (.body :: p) (.fn l x b) (.fn l' x b')
  | callee {p : Path} {callee callee' : Expr α} (l l' : α) (arg arg' : Expr α) :
      SameUntil error p callee callee' →
      SameUntil error (.callee :: p) (.call l callee arg) (.call l' callee' arg')
  | arg {p : Path} {arg arg' : Expr α} (l l' : α) (callee : Expr α) :
      SameUntil error p arg arg' →
      SameUntil error (.arg :: p) (.call l callee arg) (.call l' callee arg')
  | test {p : Path} {test test' : Expr α} (l l' : α) (yes yes' no no' : Expr α) :
      SameUntil error p test test' →
      SameUntil error (.test :: p) (.cond l test yes no) (.cond l' test' yes' no')
  | yes {p : Path} {yes yes' : Expr α} (l l' : α) (test no no' : Expr α) :
      SameUntil error p yes yes' →
      SameUntil error (.yes :: p) (.cond l test yes no) (.cond l' test yes' no')
  | no {p : Path} {no no' : Expr α} (l l' : α) (test yes : Expr α) :
      SameUntil error p no no' →
      SameUntil error (.no :: p) (.cond l test yes no) (.cond l' test yes no')

theorem Expr.SameUntil.ne_missing {error : InferError} {p : Path} (h : e.SameUntil error p e')
    (he : e ≠ .missing) : e' ≠ .missing := by
  cases h with
  | here => exact he
  | condition | body | callee | arg | test | yes | no => exact nofun

/-- **The first failure decides.** -/
theorem Fails.congr (h : Fails env n e f m) (same : e.SameUntil f.error f.site e') :
    Fails env n e' f m := by
  induction h generalizing e' with
  | missing | foreign =>
    cases same with
    | here => constructor
  | undeclared hx =>
    cases same with
    | here => exact .undeclared hx
  | body _ ih =>
    cases same with
    | body _ _ _ same => exact .body (ih same)
  | callee _ ih =>
    cases same with
    | callee _ _ _ _ same => exact .callee (ih same)
  | arg hr henv _ hs ih =>
    cases same with
    | arg _ _ _ same => exact .arg hr henv (ih same) hs
  | call hr henv ha hs ht hcause =>
    cases same with
    | here => exact .call hr henv ha hs ht hcause
  | test _ ih =>
    cases same with
    | test _ _ _ _ _ _ same => exact .test (ih same)
  | condition hc hcause =>
    cases same with
    | here | condition => exact .condition hc hcause
  | yes hc hu hs₁ henv₁ _ hs ih =>
    cases same with
    | yes _ _ _ _ _ same => exact .yes hc hu hs₁ henv₁ (ih same) hs
  | no hc hu hs₁ henv₁ hy hs₂ henv₂ _ hs ih =>
    cases same with
    | no _ _ _ _ same => exact .no hc hu hs₁ henv₁ hy hs₂ henv₂ (ih same) hs
  | branches hc hu hs₁ henv₁ hy hs₂ henv₂ hz hs₃ ht hcause =>
    cases same with
    | here => exact .branches hc hu hs₁ henv₁ hy hs₂ henv₂ hz hs₃ ht hcause
    -- a conditional whose test is of type `bool` fails with another error
    | condition _ _ _ _ _ _ _ herror => cases herror

/-! ## Contexts -/

namespace Context

/-- In this context, inference fails at the position, and the context shows so. -/
def FailsAt (c : Context) (env : Option Env) (e : Expr Label) (error : InferError) (site : Path)
    (s : Subst) (k : Nat) : Prop :=
  c.Rejects env e error site s k ∧
    ∃ n, Monotype.infer (env.getD ∅) (c.start env) e = .error (.failed ⟨⟨error, site⟩, s⟩ n)

theorem Clean.failsAt {c : Context} (hc : c.Clean) {env : Option Env} {e : Expr Label} {f : Failure}
    {n : Supply} (he : e ≠ .missing) (h : Fails (env.getD ∅) ⟨(env.getD ∅).next, 0⟩ e f n) :
    c.FailsAt env e f.error f.site f.subst n.count := by
  have run := infer_eq_failed_iff.2 h
  refine ⟨hc.rejects he run, n, ?_⟩
  rw [hc.start_eq]
  exact run

/-- If an error is answered, inference failed with it. -/
theorem Clean.exists_fails {c : Context} (hc : c.Clean) {env : Option Env} {e : Expr Label}
    {error : InferError} (he : e ≠ .missing) (h : (c.infer env e).2 = .error error) :
    ∃ f n, f.error = error ∧ Fails (env.getD ∅) ⟨(env.getD ∅).next, 0⟩ e f n := by
  obtain ⟨l, hrun, -⟩ := c.exists_run_eq env he
  rw [hc.start_eq] at hrun
  unfold Context.infer at h
  rw [hrun] at h
  match hi : Monotype.infer (env.getD ∅) ⟨(env.getD ∅).next, 0⟩ e with
  | .ok r =>
    rw [hi, conclude] at h
    cases ht : r.subst.apply r.type <;> rw [ht] at h <;> cases h
  | .error (.failed f n) =>
    rw [hi] at h
    cases h
    exact ⟨f, n, rfl, infer_eq_failed_iff.1 hi⟩
  | .error (.faulted f blame n) =>
    rw [hi] at h
    cases h

end Context

/-- **First failure.** If inference answers an error, it failed at a position at which the same
inference fails in all contexts, with the same error, substitution and number of variables taken,
whatever the expression is in the parts that were not visited: the argument of a call that fails in
its callee, both branches of a conditional that fails in its condition or because of it, and the
last branch of a conditional that fails in the other branch. -/
theorem infer_firstFailure (history : List Context.Action) (env : Option Env) (e : Expr Label)
    (error : InferError) (he : e ≠ .missing)
    (answer : ((Context.after history).infer env e).2 = .error error) :
    ∃ site s k, (Context.after history).FailsAt env e error site s k ∧
      ∀ (history' : List Context.Action) (e' : Expr Label), e.SameUntil error site e' →
        (Context.after history').FailsAt env e' error site s k := by
  obtain ⟨f, n, rfl, fails⟩ := (Context.clean_after history).exists_fails he answer
  refine ⟨f.site, f.subst, n.count, (Context.clean_after history).failsAt he fails, ?_⟩
  intro history' e' same
  exact (Context.clean_after history').failsAt (same.ne_missing he) (fails.congr same)

/-- A call whose callee fails in its first branch, after `k 7` was found to be of type `bool`. -/
def misplacedTest (l : Label) (yes no last arg : Expr Label) : Expr Label :=
  .call l (.cond 1 (.call 2 (.var 3 "k") (.int 4 7)) (.cond 5 (.int 6 1) yes no) last) arg

/-- The other parts are missing, of a foreign kind, undeclared or without a type. -/
theorem infer_firstFailure_misplacedTest :
    (misplacedTest 0 (.int 7 2) (.int 8 3) (.int 9 4) (.int 10 5)).SameUntil
      (.conditionNotBool .int (.mismatch .int .bool)) [.callee, .yes]
      (misplacedTest 20 .missing (.foreign 11 "let") (.var 12 "y")
        (.call 13 (.int 14 5) (.int 15 5))) ∧
    (Context.after [.infer none .missing]).FailsAt (some openEnv)
      (misplacedTest 20 .missing (.foreign 11 "let") (.var 12 "y")
        (.call 13 (.int 14 5) (.int 15 5)))
      (.conditionNotBool .int (.mismatch .int .bool)) [.callee, .yes]
      (.ofList [(0, .arrow .int .bool), (1, .bool)]) 1 := by
  have same : (misplacedTest 0 (.int 7 2) (.int 8 3) (.int 9 4) (.int 10 5)).SameUntil
      (.conditionNotBool .int (.mismatch .int .bool)) [.callee, .yes]
      (misplacedTest 20 .missing (.foreign 11 "let") (.var 12 "y")
        (.call 13 (.int 14 5) (.int 15 5))) :=
    .callee _ _ _ _ (.yes _ _ _ _ _ (.condition _ _ _ _ _ _ _ rfl))
  refine ⟨same, ?_⟩
  obtain ⟨site, s, k, ⟨⟨d, -, -, view⟩, n, run⟩, fails⟩ := infer_firstFailure [] (some openEnv)
    (misplacedTest 0 (.int 7 2) (.int 8 3) (.int 9 4) (.int 10 5))
    (.conditionNotBool .int (.mismatch .int .bool)) nofun (by cbv)
  have run' : infer openEnv (({} : Context).start (some openEnv))
      (misplacedTest 0 (.int 7 2) (.int 8 3) (.int 9 4) (.int 10 5)) = .error (.failed
        ⟨⟨.conditionNotBool .int (.mismatch .int .bool), [.callee, .yes]⟩,
          .ofList [(0, .arrow .int .bool), (1, .bool)]⟩ ⟨2, 1⟩) := by cbv
  cases run'.symm.trans run
  have count : (({} : Context).infer (some openEnv)
      (misplacedTest 0 (.int 7 2) (.int 8 3) (.int 9 4) (.int 10 5))).1.count = 1 := by cbv
  obtain rfl : 1 = k := count.symm.trans (congrArg Context.View.count view)
  exact fails [.infer none .missing] _ same

end Monotype
