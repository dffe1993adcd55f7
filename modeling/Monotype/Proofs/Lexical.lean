import Monotype.Proofs.Scope
import Monotype.Proofs.Totality

/-!
# Lexical scope

What inference finds depends on an environment only through the names that occur free in the
expression: `Env.Interchangeable.infer_eq` says that two environments which agree on these names
give the same outcome. Declarations that are not used, or that are hidden by a parameter wherever
their name is used, do not count.

The environment changes on the way down an expression. It is rewritten as a whole by what was found
before a part, so the other declarations have to be rewritten without a fault, and parameters join
it. `Call.exists_changes` says that a part sees the parameters of the functions around it and no
others; in particular not those of a function beside it.
-/

namespace Monotype

variable {α : Type} {env env' : Env} {names : List String} {s : Subst}

/-! ## Environments that agree on names -/

/-- Two environments without missing types that declare the same for each of the names. -/
structure Env.Interchangeable (names : List String) (env env' : Env) : Prop where
  left : env.Forall Ty.IsComplete
  right : env'.Forall Ty.IsComplete
  find : ∀ x ∈ names, env.find? x = env'.find? x

namespace Env.Interchangeable

theorem mono {part : List String} (h : env.Interchangeable names env') (sub : part ⊆ names) :
    env.Interchangeable part env' :=
  ⟨h.left, h.right, fun x hx => h.find x (sub hx)⟩

/-- A parameter may be used in the body whatever its name denotes outside. -/
theorem declare {x : String} {t : Ty} (h : env.Interchangeable (names.filter (· ≠ x)) env')
    (ht : t.IsComplete) : (env.declare x t).Interchangeable names (env'.declare x t) := by
  refine ⟨forall_declare h.left ht, forall_declare h.right ht, fun y hy => ?_⟩
  rw [find?_declare, find?_declare]
  by_cases e : x = y
  · rw [if_pos e, if_pos e]
  · rw [if_neg e, if_neg e]
    exact h.find y (List.mem_filter.2 ⟨hy, decide_eq_true (Ne.symm e)⟩)

theorem exists_apply (h : env.Interchangeable names env') (hs : s.Forall Ty.IsComplete) :
    ∃ env₁ env₁', env.apply s = .ok env₁ ∧ env'.apply s = .ok env₁' ∧
      env₁.Interchangeable names env₁' := by
  obtain ⟨env₁, h₁, left⟩ := Env.exists_apply Ty.hereditary_isComplete h.left hs
  obtain ⟨env₁', h₁', right⟩ := Env.exists_apply Ty.hereditary_isComplete h.right hs
  refine ⟨env₁, env₁', h₁, h₁', left, right, fun x hx => ?_⟩
  have same : env'.find? x = (env.find? x).map id := by rw [Option.map_id, h.find x hx]; rfl
  have same₁ := find?_apply_map h₁ h₁' same fun t u htu => htu
  rw [same₁, Option.map_id]
  rfl

end Env.Interchangeable

/-! ## Inference -/

theorem bind_congr_of_ok {ε β γ : Type} {x : Except ε β} {k k' : β → Except ε γ}
    (h : ∀ b, x = .ok b → k b = k' b) : x >>= k = x >>= k' := by
  match x with
  | .ok b => exact h b rfl
  | .error _ => rfl

/-- **Noninterference.** -/
theorem Env.Interchangeable.infer_eq {e : Expr α} (h : env.Interchangeable e.freeNames env')
    (n : Supply) : infer env n e = infer env' n e := by
  have hereditary := Ty.hereditary_isComplete
  induction e generalizing env env' n with
  | missing | int | bool | foreign => rfl
  | var l x =>
    have same := h.find x (List.mem_singleton.2 rfl)
    rw [infer_var, infer_var, Mode.var, Mode.var]
    dsimp only [Mode.plain]
    rw [Env.lookup_eq hereditary h.left, Env.lookup_eq hereditary h.right, same]
  | fn l x body ih =>
    have h' : (env.declare x (.var n.next)).Interchangeable body.freeNames
        (env'.declare x (.var n.next)) := h.declare trivial
    rw [infer_fn, infer_fn, Mode.fn, Mode.fn]
    dsimp only [Supply.fresh]
    rw [ih h']
  | call l callee arg ihf iha =>
    rw [infer_call, infer_call, Mode.call, Mode.call]
    dsimp only [Mode.plain]
    rw [ihf (h.mono (List.subset_append_left _ _))]
    -- the callee found the same in both, so the argument's environments are rewritten alike
    refine bind_congr_of_ok fun f hf => ?_
    have hcf := (totalOn callee n h.right).of_ok (mapError_eq_ok_iff.1 hf)
    obtain ⟨env₁, env₁', h₁, h₁', same⟩ := h.exists_apply hcf.subst
    rw [h₁, h₁', guarded_ok, guarded_ok, ok_bind, ok_bind,
      iha (same.mono (List.subset_append_right _ _))]
  | cond l test yes no ihc ihy ihn =>
    have subc : test.freeNames ⊆ (Expr.cond l test yes no).freeNames := fun x hx =>
      List.mem_append_left _ (List.mem_append_left _ hx)
    have suby : yes.freeNames ⊆ (Expr.cond l test yes no).freeNames := fun x hx =>
      List.mem_append_left _ (List.mem_append_right _ hx)
    have subn : no.freeNames ⊆ (Expr.cond l test yes no).freeNames := fun x hx =>
      List.mem_append_right _ hx
    rw [infer_cond, infer_cond, Mode.cond, Mode.cond]
    dsimp only [Mode.plain]
    rw [ihc (h.mono subc)]
    refine bind_congr_of_ok fun c hc => bind_congr_of_ok fun u hu => ?_
    have hcc := (totalOn test n h.right).of_ok (mapError_eq_ok_iff.1 hc)
    have hbool : Ty.bool.IsComplete := trivial
    have hcu := complete_of_unify hcc.type hbool (mapError_eq_ok_iff.1 hu)
    obtain ⟨s₁, hs₁, hcs₁⟩ := Subst.exists_compose hereditary hcc.subst hcu
    obtain ⟨env₁, env₁', h₁, h₁', same₁⟩ := h.exists_apply hcs₁
    rw [hs₁, guarded_ok, ok_bind, ok_bind, h₁, h₁', guarded_ok, guarded_ok, ok_bind, ok_bind,
      ihy (same₁.mono suby)]
    refine bind_congr_of_ok fun y hy => ?_
    have hcy := (totalOn yes c.supply same₁.right).of_ok (mapError_eq_ok_iff.1 hy)
    obtain ⟨s₂, hs₂, hcs₂⟩ := Subst.exists_compose hereditary hcs₁ hcy.subst
    obtain ⟨env₂, env₂', h₂, h₂', same₂⟩ := h.exists_apply hcs₂
    rw [hs₂, guarded_ok, ok_bind, ok_bind, h₂, h₂', guarded_ok, guarded_ok, ok_bind, ok_bind,
      ihn (same₂.mono subn)]

/-! ## Parameters in scope -/

/-- What is done to an environment on the way to a part of an expression. -/
inductive Env.Change where
  /-- The parameter of a function is declared. -/
  | bind (x : String) (v : VarId)
  /-- The declared types are rewritten by what was found before. -/
  | rewrite (s : Subst)

namespace Env

/-- The environment after a change. -/
def change (env : Env) : Change → Except Fault Env
  | .bind x v => .ok (env.declare x (.var v))
  | .rewrite s => env.apply s

/-- The name that a change declares. -/
def Change.name? : Change → Option String
  | .bind x _ => some x
  | .rewrite _ => none

end Env

namespace Expr

/-- The parameter of a function. -/
def param? : Expr α → Option String
  | .fn _ x _ => some x
  | _ => none

/-- The parameters of the functions around a position, outermost first. -/
def paramsAround : Path → Expr α → List String
  | [], _ => []
  | step :: p, e => e.param?.toList ++ ((e.child? step).map (paramsAround p)).getD []

end Expr

namespace Call

/-- One step down. -/
theorem Makes.exists_changes {c d : Call α} (h : c.Makes d) :
    ∃ (step : Step) (changes : List Env.Change), c.expr.child? step = some d.expr ∧
      changes.foldlM Env.change c.env = .ok d.env ∧
      changes.filterMap Env.Change.name? = c.expr.param?.toList := by
  cases h with
  | body => exact ⟨.body, [.bind _ _], rfl, rfl, rfl⟩
  | callee => exact ⟨.callee, [], rfl, rfl, rfl⟩
  | arg _ henv => exact ⟨.arg, [.rewrite _], rfl, bind_eq_ok_iff.2 ⟨_, henv, rfl⟩, rfl⟩
  | test => exact ⟨.test, [], rfl, rfl, rfl⟩
  | yes _ _ _ henv => exact ⟨.yes, [.rewrite _], rfl, bind_eq_ok_iff.2 ⟨_, henv, rfl⟩, rfl⟩
  | no _ _ _ _ _ _ henv => exact ⟨.no, [.rewrite _], rfl, bind_eq_ok_iff.2 ⟨_, henv, rfl⟩, rfl⟩

/-- **Parameters in scope.** The environment of a call for a part comes from that of the whole by
rewriting and by declaring the parameters of the functions around the part, from the outermost
inwards. -/
theorem exists_changes {c d : Call α} (h : Relation.ReflTransGen Makes c d) :
    ∃ (p : Path) (changes : List Env.Change), c.expr.at? p = some d.expr ∧
      changes.foldlM Env.change c.env = .ok d.env ∧
      changes.filterMap Env.Change.name? = c.expr.paramsAround p := by
  induction h using Relation.ReflTransGen.head_induction_on with
  | refl => exact ⟨[], [], rfl, rfl, rfl⟩
  | head hstep _ ih =>
    obtain ⟨step, first, hchild, hfirst, hname⟩ := hstep.exists_changes
    obtain ⟨p, rest, hat, hrest, hnames⟩ := ih
    refine ⟨step :: p, first ++ rest, ?_, ?_, ?_⟩
    · rw [Expr.at?, hchild]
      exact hat
    · rw [List.foldlM_append]
      exact bind_eq_ok_iff.2 ⟨_, hfirst, hrest⟩
    · rw [List.filterMap_append, hname, hnames, Expr.paramsAround, hchild]
      rfl

end Call

/-! ## Contexts -/

/-- **Lexical scope.** In two environments with the same next variable that agree on the names which
occur free in an expression, inference and annotation end in the same way, and contexts show the
same after them: the error, the offending expression, the substitution and the number of variables
taken. This holds of unused and of hidden declarations. As for parameters, each part of the
expression is inferred in the given environment, rewritten and with the parameters of the functions
around the part; no other parameter was ever declared in it. -/
theorem infer_lexical (history history' : List Context.Action) (env env' : Option Env)
    (e : Expr Label) (next : (env.getD ∅).next = (env'.getD ∅).next)
    (complete : (env.getD ∅).Forall Ty.IsComplete) (complete' : (env'.getD ∅).Forall Ty.IsComplete)
    (agree : ∀ x ∈ e.freeNames, (env.getD ∅).find? x = (env'.getD ∅).find? x) :
    ((Context.after history).infer env e).2 = ((Context.after history').infer env' e).2 ∧
    ((Context.after history).infer env e).1.view = ((Context.after history').infer env' e).1.view ∧
    ((Context.after history).annotate env e).2 = ((Context.after history').annotate env' e).2 ∧
    ((Context.after history).annotate env e).1.view =
      ((Context.after history').annotate env' e).1.view ∧
    ∀ call, Relation.ReflTransGen Call.Makes ⟨env.getD ∅, { next := (env.getD ∅).next }, e⟩ call →
      ∃ (p : Path) (changes : List Env.Change), e.at? p = some call.expr ∧
        changes.foldlM Env.change (env.getD ∅) = .ok call.env ∧
        changes.filterMap Env.Change.name? = e.paramsAround p := by
  have same : (env.getD ∅).Interchangeable e.freeNames (env'.getD ∅) := ⟨complete, complete', agree⟩
  have alike : Context.EndsAlike env env' e := by
    unfold Context.EndsAlike
    rw [same.infer_eq, next]
  have clean := Context.clean_after history
  have clean' := Context.clean_after history'
  obtain ⟨hinfer, hview⟩ := clean.infer_congr clean' alike
  obtain ⟨hannotate, hview'⟩ := clean.annotate_congr clean' alike
  exact ⟨hinfer, hview, hannotate, hview', fun call h => Call.exists_changes h⟩

/-- As `openEnv`, with declarations of `x` and of `z`. -/
def crowdedEnv : Env := (openEnv.declare "x" .bool).declare "z" (.foreign "record")

/-- The function `choice` hides the declaration of `x`, and does not use `z`. Its condition is
inferred with `k` and the parameter `x` in scope. -/
theorem infer_lexical_choice :
    ((Context.after [.annotate none choice]).infer (some crowdedEnv) choice).2 =
      .result (.arrow (.arrow .int .bool) .int) ∧
    ((Context.after [.annotate none choice]).infer (some crowdedEnv) choice).1.view =
      ⟨none, none, .ofList [(0, .int), (1, .arrow .int .bool), (2, .bool)], 2⟩ ∧
    ((Context.after [.annotate none choice]).annotate (some crowdedEnv) choice).2 =
      (({} : Context).annotate (some openEnv) choice).2 ∧
    ∃ (p : Path) (changes : List Env.Change),
      choice.at? p = some (.cond 1 (.call 2 (.var 3 "x") (.var 4 "k")) (.var 5 "k") (.int 6 7)) ∧
      changes.foldlM Env.change openEnv = .ok (openEnv.declare "x" (.var 1)) ∧
      changes.filterMap Env.Change.name? = choice.paramsAround p := by
  have complete := isFresh_openEnv.isComplete
  have complete' : crowdedEnv.Forall Ty.IsComplete := by
    refine Env.forall_declare ?_ trivial
    exact Env.forall_declare complete trivial
  obtain ⟨hout, hview, hannotate, -, calls⟩ :=
    infer_lexical [] [.annotate none choice] (some openEnv)
    (some crowdedEnv) choice rfl complete complete' (by
      intro x hx
      obtain rfl : x = "k" := by simpa [choice, Expr.freeNames] using hx
      cbv)
  rw [← hout, ← hview, ← hannotate]
  exact ⟨by cbv, by cbv, rfl, calls _ (.single .body)⟩

end Monotype
