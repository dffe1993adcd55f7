import Monotype.Proofs.Cells
import Monotype.Proofs.Failure
import Monotype.Proofs.Faultless

/-!
# The variables of a run

Inference takes a variable for every function that it comes to, before it goes on to the body, and
for every call once the callee and the argument have types. `Call.taken` lists these variables in
order, read off the calls that are made on the way. Whether a type is found (`takes_of_infer`) or
not (`takes_of_fails`), they are what the supply hands out one after the other from the start to the
end of the run. This gives their ids and their number, and the number is that of the functions and
calls that inference got to (`Call.length_taken`).
-/

namespace Monotype

variable {α β : Type}

/-! ## Variables in order -/

namespace Supply

variable {n m o : Supply} {vs ws : List VarId}

/-- The supply hands out the variables one after the other, and `m` is left. -/
def Takes : Supply → List VarId → Supply → Prop
  | n, [], m => m = n
  | n, v :: vs, m => n.fresh.1 = v ∧ Takes n.fresh.2 vs m

theorem takes_nil (n : Supply) : n.Takes [] n := rfl

theorem takes_fresh (n : Supply) : n.Takes [n.next] n.fresh.2 := ⟨rfl, rfl⟩

theorem Takes.append (h : n.Takes vs m) (h' : m.Takes ws o) : n.Takes (vs ++ ws) o := by
  induction vs generalizing n with
  | nil =>
    cases h
    exact h'
  | cons v vs ih => exact ⟨h.1, ih h.2⟩

/-- **Ids in order.** -/
theorem Takes.eq_idsFrom (h : n.Takes vs m) : vs = idsFrom n.next vs.length := by
  induction vs generalizing n with
  | nil => rfl
  | cons v vs ih =>
    obtain ⟨rfl, h⟩ := h
    have rest := ih h
    rw [List.length_cons, idsFrom_succ]
    show n.next :: vs = n.next :: idsFrom n.fresh.2.next vs.length
    rw [← rest]

theorem Takes.count_eq (h : n.Takes vs m) : m.count = n.count + vs.length := by
  induction vs generalizing n with
  | nil => rw [h]; rfl
  | cons v vs ih =>
    rw [ih h.2, List.length_cons]
    show n.count + 1 + vs.length = _
    omega

end Supply

/-! ## Functions and calls -/

namespace Expr

/-- Whether the expression is a function. -/
def isFn : Expr α → Bool
  | .fn _ _ _ => true
  | _ => false

/-- Whether the expression is a call. -/
def isCall : Expr α → Bool
  | .call _ _ _ => true
  | _ => false

/-- The number of functions and calls, each counted as often as it occurs. -/
def takers (e : Expr α) : Nat := e.nodes.countP isFn + e.nodes.countP isCall

theorem takers_eq_demand (e : Expr α) : e.takers = e.demand := by
  unfold takers
  induction e with
  | missing | int | bool | var | foreign => rfl
  | fn l x e ih =>
    rw [nodes, List.countP_cons, List.countP_cons, demand, ← ih]
    simp only [isFn, isCall, if_true, Bool.false_eq_true, if_false]
    omega
  | call l f a ihf iha =>
    rw [nodes, List.countP_cons, List.countP_cons, List.countP_append, List.countP_append, demand,
      ← ihf, ← iha]
    simp only [isFn, isCall, if_true, Bool.false_eq_true, if_false]
    omega
  | cond l c y n ihc ihy ihn =>
    rw [nodes, List.countP_cons, List.countP_cons, List.countP_append, List.countP_append,
      List.countP_append, List.countP_append, demand, ← ihc, ← ihy, ← ihn]
    simp only [isFn, isCall, Bool.false_eq_true, if_false]
    omega

theorem demand_le_length_nodes (e : Expr α) : e.demand ≤ e.nodes.length := by
  induction e with
  | missing | int | bool | var | foreign => exact Nat.zero_le _
  | fn l x e ih => simp only [demand, nodes, List.length_cons]; omega
  | call l f a ihf iha => simp only [demand, nodes, List.length_cons, List.length_append]; omega
  | cond l c y n ihc ihy ihn =>
    simp only [demand, nodes, List.length_cons, List.length_append]; omega

/-- The positions of the nodes, a function before its body and every other node after its parts. -/
def taking : Expr α → List Path
  | .missing => []
  | .int _ _ | .bool _ _ | .var _ _ | .foreign _ _ => [[]]
  | .fn _ _ e => [] :: e.taking.map (.body :: ·)
  | .call _ f a => f.taking.map (.callee :: ·) ++ a.taking.map (.arg :: ·) ++ [[]]
  | .cond _ c y n =>
    c.taking.map (.test :: ·) ++ y.taking.map (.yes :: ·) ++ n.taking.map (.no :: ·) ++ [[]]

theorem taking_perm (e : Expr α) : e.taking.Perm e.positions := by
  induction e with
  | missing | int | bool | var | foreign => exact .refl _
  | fn l x e ih => exact (ih.map _).cons _
  | call l f a ihf iha =>
    exact (List.perm_append_singleton _ _).trans (((ihf.map _).append (iha.map _)).cons _)
  | cond l c y n ihc ihy ihn =>
    exact (List.perm_append_singleton _ _).trans
      ((((ihc.map _).append (ihy.map _)).append (ihn.map _)).cons _)

end Expr

/-! ## The variables that are taken -/

namespace Call

/-- The variable taken for the expression itself. -/
def taken? (c : Call α) : Option VarId :=
  match c.expr with
  | .fn _ _ _ => some c.supply.fresh.1
  | .call _ _ _ => do
    let d ← c.part? .arg
    let a ← d.outcome.toOption
    return a.supply.fresh.1
  | _ => none

/-- The variable taken for the part at a position. -/
def takenAt? (c : Call α) (p : Path) : Option VarId := (c.at? p).bind taken?

/-- All variables taken, in order. -/
def taken (c : Call α) : List VarId := c.expr.taking.filterMap c.takenAt?

/-- The variables taken for a part, if inference comes to the part. -/
def takenIn (part : Expr α) : Option (Call α) → List VarId
  | none => []
  | some c => part.taking.filterMap c.takenAt?

theorem filterMap_takenAt? (c : Call α) (step : Step) (part : Expr α) :
    (part.taking.map (step :: ·)).filterMap c.takenAt? = takenIn part (c.part? step) := by
  rw [List.filterMap_map]
  cases h : c.part? step with
  | none =>
    refine List.filterMap_eq_nil_iff.2 fun p _ => ?_
    show ((c.part? step).bind (at? p)).bind taken? = none
    rw [h]
    rfl
  | some d =>
    refine List.filterMap_congr fun p _ => ?_
    show ((c.part? step).bind (at? p)).bind taken? = _
    rw [h]
    rfl

theorem filterMap_takenAt?_here (c : Call α) : [[]].filterMap c.takenAt? = c.taken?.toList := by
  have here : c.takenAt? [] = c.taken? := rfl
  cases h : c.taken? with
  | none => exact List.filterMap_cons_none (here.trans h)
  | some v => exact List.filterMap_cons_some (here.trans h)

section Parts

variable {env : Env} {n : Supply} {l : α}

theorem taken_fn {x : String} {body : Expr α} :
    (Call.mk env n (.fn l x body)).taken =
      n.next :: (Call.mk (env.declare x (.var n.next)) n.fresh.2 body).taken := by
  have first : (Call.mk env n (.fn l x body)).takenAt? [] = some n.next := rfl
  rw [taken, Expr.taking, List.filterMap_cons_some first, filterMap_takenAt?]
  rfl

theorem taken_call {callee arg : Expr α} :
    (Call.mk env n (.call l callee arg)).taken = (Call.mk env n callee).taken ++
      takenIn arg ((Call.mk env n (.call l callee arg)).part? .arg) ++
      (Call.mk env n (.call l callee arg)).taken?.toList := by
  rw [taken, Expr.taking, List.filterMap_append, List.filterMap_append, filterMap_takenAt?,
    filterMap_takenAt?, filterMap_takenAt?_here]
  rfl

theorem taken?_call {callee arg : Expr α} {env' : Env} {f a : Typed α}
    (hf : infer env n callee = .ok f) (henv : env.apply f.subst = .ok env')
    (ha : infer env' f.supply arg = .ok a) :
    (Call.mk env n (.call l callee arg)).taken? = some a.supply.fresh.1 := by
  simp [taken?, part?_arg hf henv, outcome, ha, Except.toOption]

theorem taken_cond {test yes no : Expr α} :
    (Call.mk env n (.cond l test yes no)).taken = (Call.mk env n test).taken ++
      takenIn yes ((Call.mk env n (.cond l test yes no)).part? .yes) ++
      takenIn no ((Call.mk env n (.cond l test yes no)).part? .no) := by
  rw [taken, Expr.taking, List.filterMap_append, List.filterMap_append, List.filterMap_append,
    filterMap_takenAt?, filterMap_takenAt?, filterMap_takenAt?]
  exact List.append_nil _

end Parts

end Call

section Takes

variable {env : Env} {n m : Supply} {e : Expr α}

/-- **Variables of a result.** -/
theorem takes_of_infer {r : Typed α} (h : infer env n e = .ok r) :
    n.Takes (Call.mk env n e).taken r.supply := by
  induction e generalizing env n r with
  | missing | foreign => cases h
  | int | bool => cases h; exact n.takes_nil
  | var l x =>
    obtain ⟨t, -, rfl⟩ := infer_var_ok h
    exact n.takes_nil
  | fn l x body ih =>
    obtain ⟨run, rfl⟩ := infer_fn_ok h
    have takesb := ih run.b_eq
    rw [Call.taken_fn]
    exact n.takes_fresh.append takesb
  | call l callee arg ihf iha =>
    obtain ⟨run, rfl⟩ := infer_call_ok h
    rw [Call.taken_call, Call.taken?_call run.f_eq run.env₁_eq run.a_eq,
      Call.part?_arg run.f_eq run.env₁_eq]
    exact ((ihf run.f_eq).append (iha run.a_eq)).append run.a.supply.takes_fresh
  | cond l test yes no ihc ihy ihn =>
    obtain ⟨run, rfl⟩ := infer_cond_ok h
    have takesz := ihn run.z_eq
    rw [Call.taken_cond, run.part?_yes, run.part?_no]
    exact ((ihc run.c_eq).append (ihy run.y_eq)).append takesz

/-- **Variables until a failure.** -/
theorem takes_of_fails {f : Failure} (h : Fails env n e f m) :
    n.Takes (Call.mk env n e).taken m := by
  induction h with
  | missing | foreign | undeclared => exact Supply.takes_nil _
  | @body env n m l x body f _ ih =>
    rw [Call.taken_fn]
    exact n.takes_fresh.append ih
  | @callee env n m l callee arg f h ih =>
    have part : (Call.mk env n (.call l callee arg)).part? .arg = none := by
      simp [Call.part?, infer_eq_failed_iff.2 h, Except.toOption]
    have own : (Call.mk env n (.call l callee arg)).taken? = none := by
      simp [Call.taken?, part]
    rw [Call.taken_call, part, own]
    exact (ih.append m.takes_nil).append m.takes_nil
  | @arg env env' n m l callee arg r f s hr henv h hs ih =>
    have part : (Call.mk env n (.call l callee arg)).part? .arg = some ⟨env', r.supply, arg⟩ :=
      Call.part?_arg hr henv
    have own : (Call.mk env n (.call l callee arg)).taken? = none := by
      simp [Call.taken?, part, Call.outcome, infer_eq_failed_iff.2 h, Except.toOption]
    rw [Call.taken_call, part, own]
    exact ((takes_of_infer hr).append ih).append m.takes_nil
  | @call env env' n l callee arg r a s t cause hr henv ha hs ht hcause =>
    rw [Call.taken_call, Call.taken?_call hr henv ha, Call.part?_arg hr henv]
    exact ((takes_of_infer hr).append (takes_of_infer ha)).append a.supply.takes_fresh
  | @test env n m l test yes no f h ih =>
    have failed := infer_eq_failed_iff.2 h
    have party : (Call.mk env n (.cond l test yes no)).part? .yes = none := by
      simp [Call.part?, failed, Except.toOption]
    have partn : (Call.mk env n (.cond l test yes no)).part? .no = none := by
      simp [Call.part?, failed, Except.toOption]
    rw [Call.taken_cond, party, partn]
    exact (ih.append m.takes_nil).append m.takes_nil
  | @condition env n l test yes no c cause hc hcause =>
    have party : (Call.mk env n (.cond l test yes no)).part? .yes = none := by
      simp [Call.part?, hc, hcause, Except.toOption]
    have partn : (Call.mk env n (.cond l test yes no)).part? .no = none := by
      simp [Call.part?, hc, hcause, Except.toOption]
    rw [Call.taken_cond, party, partn]
    exact ((takes_of_infer hc).append c.supply.takes_nil).append c.supply.takes_nil
  | @yes env env₁ n m l test yes no c u s₁ s f hc hu hs₁ henv₁ h hs ih =>
    have partn : (Call.mk env n (.cond l test yes no)).part? .no = none := by
      simp [Call.part?, hc, hu, hs₁, henv₁, infer_eq_failed_iff.2 h, Except.toOption]
    rw [Call.taken_cond, Call.part?_yes hc hu hs₁ henv₁, partn]
    exact ((takes_of_infer hc).append ih).append m.takes_nil
  | no hc hu hs₁ henv₁ hy hs₂ henv₂ _ hs ih =>
    rw [Call.taken_cond, Call.part?_yes hc hu hs₁ henv₁, Call.part?_no hc hu hs₁ henv₁ hy hs₂ henv₂]
    exact ((takes_of_infer hc).append (takes_of_infer hy)).append ih
  | branches hc hu hs₁ henv₁ hy hs₂ henv₂ hz hs₃ ht hcause =>
    rw [Call.taken_cond, Call.part?_yes hc hu hs₁ henv₁, Call.part?_no hc hu hs₁ henv₁ hy hs₂ henv₂]
    exact ((takes_of_infer hc).append (takes_of_infer hy)).append (takes_of_infer hz)

end Takes

/-! ## Counting -/

namespace Call

/-- Whether the call finds a type. -/
def succeeds (c : Call α) : Bool := c.outcome.isOk

/-- Whether both the callee and the argument of the expression have types. -/
def joins (c : Call α) : Bool := (c.part? .callee).any succeeds && (c.part? .arg).any succeeds

/-- The number of functions that inference comes to. -/
def entered (c : Call α) : Nat := c.expr.positions.countP fun p => (c.at? p).any (·.expr.isFn)

/-- The number of calls whose callee and argument both have types. -/
def joined (c : Call α) : Nat := c.expr.positions.countP fun p => (c.at? p).any joins

/-- A variable is taken for functions and for such calls. -/
theorem isSome_taken? (c : Call α) : c.taken?.isSome = (c.expr.isFn || c.joins) := by
  obtain ⟨env, n, e⟩ := c
  cases e with
  | missing | int | bool | var | foreign | fn | cond => rfl
  | call l callee arg =>
    show _ = ((infer env n callee).isOk && _)
    cases hf : infer env n callee with
    | error stop => simp [taken?, part?, hf, Except.toOption, Except.isOk]
    | ok f =>
      simp only [taken?]
      cases (Call.mk env n (.call l callee arg)).part? .arg with
      | none => rfl
      | some d =>
        show (d.outcome.toOption.bind fun a => some a.supply.fresh.1).isSome = d.outcome.isOk
        cases d.outcome <;> rfl

theorem joins_eq_false {c : Call α} (h : c.expr.isFn = true) : c.joins = false := by
  obtain ⟨env, n, e⟩ := c
  cases e with
  | fn => rfl
  | missing | int | bool | var | foreign | call | cond => cases h

/-- **Number of variables.** -/
theorem length_taken (c : Call α) : c.taken.length = c.entered + c.joined := by
  have own : ∀ p, (c.takenAt? p).isSome =
      ((c.at? p).any (·.expr.isFn) || (c.at? p).any joins) := by
    intro p
    unfold takenAt?
    cases c.at? p with
    | none => rfl
    | some d => exact d.isSome_taken?
  have apart : ∀ p, (c.at? p).any (·.expr.isFn) = true → (c.at? p).any joins = false := by
    intro p
    cases c.at? p with
    | none => exact fun _ => rfl
    | some d => exact joins_eq_false
  rw [taken, List.length_filterMap_eq_countP, c.expr.taking_perm.countP_eq,
    List.countP_eq_countP_filter_add _ _ fun p => (c.at? p).any (·.expr.isFn), List.countP_filter,
    List.countP_filter]
  refine congrArg₂ (· + ·) (List.countP_congr fun p _ => ?_) (List.countP_congr fun p _ => ?_)
  · rw [own]
    cases (c.at? p).any (·.expr.isFn) <;> simp
  · rw [own]
    cases hp : (c.at? p).any (·.expr.isFn) with
    | false => simp
    | true => simp [apart p hp]

/-- The call that inference of an expression in a context starts with. -/
def first (env : Option Env) (e : Expr Label) : Call Label :=
  ⟨env.getD ∅, { next := (env.getD ∅).next }, e⟩

/-- The number of variables that is counted at the end. -/
def Counted (c : Call α) (k : Nat) : Outcome β → Prop
  | .result _ => k = c.expr.takers
  | .error _ => k = c.entered + c.joined
  | .fault _ => False

end Call

/-! ## Contexts -/

namespace Context

/-- The context counts the variables that were taken, and they follow the first one in order. -/
structure Accounts (run : Context × Outcome β) (c : Call Label) : Prop where
  counted : c.Counted run.1.count run.2
  le : run.1.count ≤ c.expr.takers
  /-- The number does not overflow. -/
  lt : run.1.count < 2 ^ 63
  ids : c.taken = idsFrom c.supply.next run.1.count

theorem accounts_of_takes {run : Context × Outcome β} {c : Call Label} {m : Supply}
    (small : c.expr.nodes.length < 2 ^ 63) (zero : c.supply.count = 0)
    (takes : c.supply.Takes c.taken m) (le : m.count ≤ c.expr.takers)
    (count : run.1.count = m.count) (counted : c.Counted m.count run.2) : Accounts run c := by
  have length : m.count = c.taken.length := by rw [takes.count_eq, zero, Nat.zero_add]
  have few := c.expr.demand_le_length_nodes
  rw [← c.expr.takers_eq_demand] at few
  rw [← count] at length le counted
  exact { counted, le, lt := by omega, ids := length ▸ takes.eq_idsFrom }

/-- Inference and annotation end with the same count, whichever way they end. -/
theorem Clean.exists_takes {c : Context} (hc : c.Clean) {env : Option Env} (e : Expr Label)
    (complete : (env.getD ∅).Forall Ty.IsComplete) :
    ∃ m, (Call.first env e).supply.Takes (Call.first env e).taken m ∧ m.count ≤ e.takers ∧
      (c.infer env e).1.count = m.count ∧ (Call.first env e).Counted m.count (c.infer env e).2 ∧
      (Call.first env e).Counted m.count (c.annotate env e).2 := by
  by_cases he : e = .missing
  · subst he
    obtain ⟨d, -, hinfer, view⟩ := hc.rejects_missing env
    have hannotate : (c.annotate env .missing).2 = .error .emptyExpr := rfl
    rw [hinfer, hannotate]
    exact ⟨_, Supply.takes_nil _, Nat.zero_le _, congrArg View.count view, rfl, rfl⟩
  have total := totalOn e ⟨(env.getD ∅).next, 0⟩ complete
  match h : Monotype.infer (env.getD ∅) ⟨(env.getD ∅).next, 0⟩ e with
  | .ok r =>
    obtain ⟨t, -, A, ht, -, hinfer, -, hannotate, -⟩ :=
      c.exists_annotate (total.of_ok h) (by rw [hc.start_eq]; exact h)
    have counted : r.supply.count = e.takers := by
      rw [supply_of_infer h, e.takers_eq_demand]
      exact Nat.zero_add _
    rw [hinfer, hannotate]
    exact ⟨_, takes_of_infer h, Nat.le_of_eq counted, congrArg View.count (hc.finds he h ht).2,
      counted, counted⟩
  | .error (.failed f m) =>
    obtain ⟨hinfer, hannotate, -⟩ := c.annotate_of_failed he (by rw [hc.start_eq]; exact h)
    have takes : (Call.first env e).supply.Takes (Call.first env e).taken m :=
      takes_of_fails (infer_eq_failed_iff.1 h)
    have counted : m.count = (Call.first env e).entered + (Call.first env e).joined := by
      rw [takes.count_eq, Call.length_taken]
      exact Nat.zero_add _
    have le : m.count ≤ e.takers := by
      obtain ⟨k, hk, rfl⟩ : Supply.Advances _ e.demand m := advancesOn e _ _ _ h
      rw [e.takers_eq_demand]
      show 0 + k ≤ _
      omega
    obtain ⟨d, -, -, view⟩ := hc.rejects he h
    rw [hinfer, hannotate]
    exact ⟨m, takes, le, congrArg View.count view, counted, counted⟩
  | .error (.faulted f blame m) =>
    rw [h] at total
    exact total.elim

end Context

/-- **Variables of a run.** If no declared type has a missing part, then after any history of uses,
and for any expression with less than `2 ^ 63` nodes, inference and annotation in a context count
the variables that they have taken. With a result, there is one for each function and each call of
the expression, where a node counts as often as it occurs. With an error, there is one for each
function that inference came to, and one for each call whose callee and argument both have types,
hence not more than with a result. In the order in which they were taken, their ids follow each
other from the next one of the environment on. -/
theorem infer_accounts (history : List Context.Action) (env : Option Env) (e : Expr Label)
    (complete : (env.getD ∅).Forall Ty.IsComplete) (small : e.nodes.length < 2 ^ 63) :
    Context.Accounts ((Context.after history).infer env e) (.first env e) ∧
      Context.Accounts ((Context.after history).annotate env e) (.first env e) := by
  have hc := Context.clean_after history
  generalize Context.after history = c at hc
  obtain ⟨m, takes, le, count, found, annotated⟩ := hc.exists_takes e complete
  have count' : (c.annotate env e).1.count = m.count :=
    (congrArg Context.View.count (c.view_annotate env e)).trans count
  exact ⟨Context.accounts_of_takes small rfl takes le count found,
    Context.accounts_of_takes small rfl takes le count' annotated⟩

/-- A function that occurs more than once in an expression. -/
def sharedFn : Expr Label := .fn 2 "x" (.var 3 "x")

/-- A call of `k` with the function, and of what it returns with the function again. -/
def twice : Expr Label := .call 0 (.call 1 (.var 4 "k") sharedFn) sharedFn

/-- As `twice`, with a condition in the last argument that is a number. -/
def brokenTwice : Expr Label :=
  .call 0 (.call 1 (.var 4 "k") sharedFn) (.cond 5 (.int 6 1) sharedFn sharedFn)

/-- The last id comes next. -/
def lastEnv : Env := ({ next := Int64.maxValue } : Env).declare "k" (.var 0)

/-- The ids wrap around after the first one. The annotation takes two of the five variables that
`brokenTwice` needs. -/
theorem infer_accounts_twice :
    (∃ c, (Context.after [.annotate none twice]).infer (some lastEnv) twice =
        (c, .result (.var (Int64.minValue + 2))) ∧ c.count = 4 ∧ twice.takers = 4 ∧
      (Call.first (some lastEnv) twice).taken =
        [Int64.maxValue, Int64.minValue, Int64.minValue + 1, Int64.minValue + 2]) ∧
    ∃ c, (Context.after [.infer (some lastEnv) twice]).annotate (some lastEnv) brokenTwice =
        (c, .error (.conditionNotBool .int (.mismatch .int .bool))) ∧ c.count = 2 ∧
      (Call.first (some lastEnv) brokenTwice).entered = 1 ∧
      (Call.first (some lastEnv) brokenTwice).joined = 1 ∧ brokenTwice.takers = 5 ∧
      (Call.first (some lastEnv) brokenTwice).taken = [Int64.maxValue, Int64.minValue] := by
  have complete : lastEnv.Forall Ty.IsComplete :=
    Env.forall_declare (fun x t h => by cases h) trivial
  obtain ⟨found, -⟩ :=
    infer_accounts [.annotate none twice] (some lastEnv) twice complete (by decide)
  obtain ⟨-, failed⟩ :=
    infer_accounts [.infer (some lastEnv) twice] (some lastEnv) brokenTwice complete (by decide)
  have result : (Context.after [.annotate none twice]).infer (some lastEnv) twice =
      (((Context.after [.annotate none twice]).infer (some lastEnv) twice).1,
        .result (.var (Int64.minValue + 2))) := by cbv
  have error : (Context.after [.infer (some lastEnv) twice]).annotate (some lastEnv) brokenTwice =
      (((Context.after [.infer (some lastEnv) twice]).annotate (some lastEnv) brokenTwice).1,
        .error (.conditionNotBool .int (.mismatch .int .bool))) := by cbv
  have entered : (Call.first (some lastEnv) brokenTwice).entered = 1 := by cbv
  have joined : (Call.first (some lastEnv) brokenTwice).joined = 1 := by cbv
  rw [result] at found
  rw [error] at failed
  -- the numbers of variables come from the expressions, and the ids from these numbers
  have four : twice.takers = 4 := by decide
  have count := Eq.trans found.counted four
  have count' := Eq.trans failed.counted (congrArg₂ (· + ·) entered joined)
  have ids : idsFrom Int64.maxValue 4 =
      [Int64.maxValue, Int64.minValue, Int64.minValue + 1, Int64.minValue + 2] := by decide
  have ids' : idsFrom Int64.maxValue 2 = [Int64.maxValue, Int64.minValue] := by decide
  have taken := found.ids
  have taken' := failed.ids
  rw [count] at taken
  rw [count'] at taken'
  exact ⟨⟨_, result, count, four, taken.trans ids⟩, _, error, count', entered, joined, by decide,
    taken'.trans ids'⟩

end Monotype
