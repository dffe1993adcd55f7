import Monotype.Proofs.Recording

/-!
# Contexts that are used again

A context behaves like a new one, whatever it was used for before. A reset waits until the next
inference, keeps the next variable and the table of the recorder, and does not touch whether types
are recorded. So the state of a used context is not that of a new one, and the invariant `Clean`
says what has to be the same: a context that is not marked as used shows what a new one shows, and
its table has no entries.

Every use of a context keeps the invariant (`Clean.act`), and two contexts that satisfy it cannot be
told apart. They answer alike in any two environments in which inference ends alike (`run_congr`).
-/

namespace Monotype

namespace Context

variable {c d : Context} {env env' : Option Env} {e : Expr Label}

/-! ## Histories -/

/-- What can be seen of a context: how the last inference ended. -/
structure View where
  error : Option InferError
  invalid : Option (Expr Label)
  subst : Subst
  count : Nat

/-- What can be seen of a context now. -/
def view (c : Context) : View := ⟨c.error, c.invalid, c.subst, c.count⟩

/-- A use of a context. -/
inductive Action where
  /-- Infers a type, and leaves the substitution found in the context. -/
  | infer (env : Option Env) (e : Expr Label)
  /-- Annotates an expression. -/
  | annotate (env : Option Env) (e : Expr Label)
  /-- Resets the context. -/
  | reset

/-- The context after a use, however it ends. -/
def act (c : Context) : Action → Context
  | .infer env e => (c.infer env e).1
  | .annotate env e => (c.annotate env e).1
  | .reset => c.reset

/-- A new context after a history of uses. -/
def after (history : List Action) : Context := history.foldl act {}

/-! ## The invariant -/

/-- A context that is not marked as used shows what a new one shows, and its table has no entries.
-/
def Clean (c : Context) : Prop :=
  c.used = false → c.view = ({} : Context).view ∧ c.recorder.table.getD ∅ = ∅

theorem clean_new : ({} : Context).Clean := fun _ => ⟨rfl, rfl⟩

theorem Clean.of_used (h : c.used = true) : c.Clean := by
  intro hc
  rw [h] at hc
  cases hc

/-- A reset brings back what a new context shows. -/
theorem Clean.reset (hc : c.Clean) :
    c.reset.view = ({} : Context).view ∧ c.reset.recorder.table.getD ∅ = ∅ := by
  unfold Context.reset
  cases hu : c.used with
  | true =>
    refine ⟨rfl, ?_⟩
    show (c.recorder.table.map fun _ => ∅).getD ∅ = ∅
    cases c.recorder.table <;> rfl
  | false => exact hc hu

theorem Clean.recording (hc : c.Clean) (active : Bool) : (c.recording active).Clean := hc

theorem used_conclude (c : Context) (e : Expr Label) (out : Except Stop (Typed Label)) :
    (c.conclude e out).1.used = c.used := by
  cases out with
  | ok r => rfl
  | error stop => cases stop <;> rfl

theorem used_run (c : Context) (env : Option Env) (e : Expr Label) :
    (c.run env e).1.used = true := by
  by_cases he : e = .missing
  · rw [he]
    rfl
  · obtain ⟨l, hrun, -⟩ := c.exists_run_eq env he
    rw [hrun, used_conclude]

theorem used_infer (c : Context) (env : Option Env) (e : Expr Label) :
    (c.infer env e).1.used = true := by
  have h := c.used_run env e
  unfold Context.infer
  match hr : c.run env e with
  | (_, .result _) | (_, .error _) | (_, .fault _) =>
    rw [hr] at h
    exact h

theorem used_annotate (c : Context) (env : Option Env) (e : Expr Label) :
    (c.annotate env e).1.used = true := by
  have h := (c.recording true).used_run env e
  unfold Context.annotate
  match hr : (c.recording true).run env e with
  | (_, .result _) | (_, .error _) | (_, .fault _) =>
    rw [hr] at h
    exact h

/-- **One use.** -/
theorem Clean.act (hc : c.Clean) (a : Action) : (c.act a).Clean := by
  cases a with
  | infer env e => exact .of_used (c.used_infer env e)
  | annotate env e => exact .of_used (c.used_annotate env e)
  | reset => exact fun _ => hc.reset

/-- **All histories.** -/
theorem clean_after (history : List Action) : (after history).Clean := by
  have run : ∀ c : Context, c.Clean → (history.foldl Context.act c).Clean := by
    induction history with
    | nil => exact fun c hc => hc
    | cons a history ih => exact fun c hc => ih (c.act a) (hc.act a)
  exact run {} clean_new

/-! ## Two clean contexts -/

/-- What an inference answers and leaves depends on the context only through what it shows. -/
theorem conclude_eq (h : c.view = d.view) (e : Expr Label) (out : Except Stop (Typed Label)) :
    (c.conclude e out).2 = (d.conclude e out).2 ∧
      (c.conclude e out).1.view = (d.conclude e out).1.view := by
  obtain ⟨herror, hinvalid, hsubst, -⟩ := View.mk.inj h
  unfold view
  cases out with
  | ok r => exact ⟨rfl, by simp only [conclude, herror, hinvalid]; rfl⟩
  | error stop =>
    cases stop with
    | failed f n => exact ⟨rfl, rfl⟩
    | faulted f blame n => exact ⟨rfl, by simp only [conclude, hsubst]; rfl⟩

theorem Clean.start_eq (hc : c.Clean) (env : Option Env) : c.start env = ⟨(env.getD ∅).next, 0⟩ :=
  congrArg (Supply.mk (env.getD ∅).next) (View.mk.inj hc.reset.1).2.2.2

/-- Inference of the expression ends alike in both environments. -/
def EndsAlike (env env' : Option Env) (e : Expr Label) : Prop :=
  Monotype.infer (env.getD ∅) ⟨(env.getD ∅).next, 0⟩ e =
    Monotype.infer (env'.getD ∅) ⟨(env'.getD ∅).next, 0⟩ e

/-- **Inference.** Two contexts that show the same after a reset answer alike and show the same
again, if inference ends alike. -/
theorem run_congr (hview : c.reset.view = d.reset.view)
    (h : Monotype.infer (env.getD ∅) (c.start env) e =
      Monotype.infer (env'.getD ∅) (d.start env') e) :
    (c.run env e).2 = (d.run env' e).2 ∧ (c.run env e).1.view = (d.run env' e).1.view := by
  by_cases he : e = .missing
  · subst he
    obtain ⟨-, hinvalid, hsubst, hcount⟩ := View.mk.inj hview
    refine ⟨rfl, ?_⟩
    show View.mk (some .emptyExpr) c.reset.invalid c.reset.subst c.reset.count =
      View.mk (some .emptyExpr) d.reset.invalid d.reset.subst d.reset.count
    rw [hinvalid, hsubst, hcount]
  · obtain ⟨l, hrun, -⟩ := c.exists_run_eq env he
    obtain ⟨l', hrun', -⟩ := d.exists_run_eq env' he
    rw [hrun, hrun', h]
    refine conclude_eq ?_ e _
    exact hview

theorem Clean.run_congr (hc : c.Clean) (hd : d.Clean) (h : EndsAlike env env' e) :
    (c.run env e).2 = (d.run env' e).2 ∧ (c.run env e).1.view = (d.run env' e).1.view := by
  refine Context.run_congr (hc.reset.1.trans hd.reset.1.symm) ?_
  rw [hc.start_eq, hd.start_eq]
  exact h

theorem Clean.infer_congr (hc : c.Clean) (hd : d.Clean) (h : EndsAlike env env' e) :
    (c.infer env e).2 = (d.infer env' e).2 ∧ (c.infer env e).1.view = (d.infer env' e).1.view := by
  obtain ⟨hout, hview⟩ := hc.run_congr hd h
  unfold Context.infer
  match hr : c.run env e, hr' : d.run env' e with
  | (c', out), (d', out') =>
    rw [hr, hr'] at hout hview
    cases hout
    cases out <;> exact ⟨rfl, hview⟩

theorem Clean.annotate_congr (hc : c.Clean) (hd : d.Clean) (h : EndsAlike env env' e) :
    (c.annotate env e).2 = (d.annotate env' e).2 ∧
      (c.annotate env e).1.view = (d.annotate env' e).1.view := by
  have hc' := hc.recording true
  have hd' := hd.recording true
  obtain ⟨hout, hview⟩ := hc'.run_congr hd' h
  unfold Context.annotate
  match hr : (c.recording true).run env e, hr' : (d.recording true).run env' e with
  | (c', out), (d', out') =>
    rw [hr, hr'] at hout hview
    cases hout
    cases out with
    | result r =>
      refine ⟨?_, hview⟩
      have htable := table_of_run rfl hr
      have htable' := table_of_run rfl hr'
      rw [hc'.reset.2] at htable
      rw [hd'.reset.2] at htable'
      have hsubst : c'.subst = d'.subst := congrArg View.subst hview
      dsimp only
      rw [htable, htable', hsubst]
    | error err => exact ⟨rfl, hview⟩
    | fault f => exact ⟨rfl, hview⟩

theorem Clean.infer_eq (hc : c.Clean) (hd : d.Clean) (env : Option Env) (e : Expr Label) :
    (c.infer env e).2 = (d.infer env e).2 ∧ (c.infer env e).1.view = (d.infer env e).1.view :=
  hc.infer_congr hd rfl

theorem Clean.annotate_eq (hc : c.Clean) (hd : d.Clean) (env : Option Env) (e : Expr Label) :
    (c.annotate env e).2 = (d.annotate env e).2 ∧
      (c.annotate env e).1.view = (d.annotate env e).1.view :=
  hc.annotate_congr hd rfl

/-- **A used context behaves like a new one.** After any history of uses, with any expressions and
environments and however each of them ended, an inference and an annotation give the same result as
in a new context and leave the same to be seen, the substitution included. A reset leaves what a new
context shows. -/
theorem reused_eq_new (history : List Action) (env : Option Env) (e : Expr Label) :
    ((after history).infer env e).2 = (({} : Context).infer env e).2 ∧
    ((after history).infer env e).1.view = (({} : Context).infer env e).1.view ∧
    ((after history).annotate env e).2 = (({} : Context).annotate env e).2 ∧
    ((after history).annotate env e).1.view = (({} : Context).annotate env e).1.view ∧
    (after history).reset.view = ({} : Context).view := by
  have hc := clean_after history
  obtain ⟨hinfer, hinfer'⟩ := hc.infer_eq clean_new env e
  obtain ⟨hannotate, hannotate'⟩ := hc.annotate_eq clean_new env e
  exact ⟨hinfer, hinfer', hannotate, hannotate', hc.reset.1⟩

/-- An annotation that faults at an argument leaves the recorder active, with the type of the
function in its table. -/
example : (after [.annotate (some (Env.declare ∅ "x" .missing))
    (.call 0 (.int 1 7) (.var 2 "x"))]).recorder = ⟨true, some (.ofList [(1, Ty.int)])⟩ := by
  cbv

end Context

end Monotype
