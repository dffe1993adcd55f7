import Monotype.Proofs.Allocation
import Monotype.Proofs.Renaming
import Monotype.Proofs.Reuse

/-!
# Names of parameters and ids of variables

Inference depends neither on the names of parameters nor on the ids of type variables. Both are said
by one statement about two runs: if two expressions are equal up to the names of parameters, and the
environments and supplies of the runs differ by an injective renaming `ρ` of the variables, then the
runs end in the same way up to `ρ` (`correspondsOn`).

Environments are compared along the pairs of parameters in scope, since a name may denote different
parameters in the two expressions. Supplies are compared on the variables that will be taken. These
may wrap around, and they may be in use already, so nothing is assumed about the environments but
that no type is missing.
-/

namespace Monotype

open Function

variable {α α' β β' γ γ' : Type} {ρ : VarId → VarId}

/-! ## Supplies and environments -/

/-- The supplies have handed out equally many variables, and `ρ` takes each of the next `k`
variables of the one to that of the other. -/
structure Supply.Renames (ρ : VarId → VarId) (k : Nat) (n m : Supply) : Prop where
  count : m.count = n.count
  next : ∀ j < k, ρ (n.skip j).next = (m.skip j).next

namespace Supply.Renames

variable {n m : Supply} {j k : Nat}

theorem mono (h : Renames ρ k n m) (le : j ≤ k) : Renames ρ j n m :=
  ⟨h.count, fun i hi => h.next i (by omega)⟩

theorem head (h : Renames ρ (k + 1) n m) : ρ n.next = m.next := by
  have h0 := h.next 0 (by omega)
  rwa [skip_zero, skip_zero] at h0

theorem fresh (h : Renames ρ (k + 1) n m) : Renames ρ k n.fresh.2 m.fresh.2 := by
  refine ⟨congrArg (· + 1) h.count, fun j hj => ?_⟩
  have hj' := h.next (1 + j) (by omega)
  rw [skip_add, skip_add] at hj'
  exact hj'

end Supply.Renames

/-- Environments without missing types in which names that denote the same are declared alike, up to
`ρ`. The parameters in scope are declared, so two names without a declaration that denote the same
are equal. -/
structure Env.Renames (ρ : VarId → VarId) (scope : List (String × String)) (env env' : Env) :
    Prop where
  left : env.Forall Ty.IsComplete
  right : env'.Forall Ty.IsComplete
  find : ∀ x y, Expr.SameName scope x y → env'.find? y = (env.find? x).map (Ty.rename ρ)
  undeclared : ∀ x y, Expr.SameName scope x y → env.find? x = none → x = y

namespace Env.Renames

variable {scope : List (String × String)} {env env' : Env} {s : Subst}

theorem declare (h : Renames ρ scope env env') (x y : String) (v : VarId) :
    Renames ρ ((x, y) :: scope) (env.declare x (.var v)) (env'.declare y (.var (ρ v))) := by
  refine ⟨forall_declare h.left trivial, forall_declare h.right trivial, fun a b hab => ?_,
    fun a b hab => ?_⟩
  · rw [find?_declare, find?_declare]
    rcases hab with ⟨rfl, rfl⟩ | ⟨ha, hb, hab⟩
    · rw [if_pos rfl, if_pos rfl]
      rfl
    · rw [if_neg (Ne.symm ha), if_neg (Ne.symm hb)]
      exact h.find a b hab
  · rw [find?_declare]
    rcases hab with ⟨rfl, rfl⟩ | ⟨ha, -, hab⟩
    · rw [if_pos rfl]
      exact nofun
    · rw [if_neg (Ne.symm ha)]
      exact h.undeclared a b hab

theorem exists_apply (h : Renames ρ scope env env') (inj : Injective ρ)
    (hs : s.Forall Ty.IsComplete) :
    ∃ env₁ env₁', env.apply s = .ok env₁ ∧ env'.apply (s.rename ρ) = .ok env₁' ∧
      Renames ρ scope env₁ env₁' := by
  obtain ⟨env₁, h₁, left⟩ := Env.exists_apply Ty.hereditary_isComplete h.left hs
  obtain ⟨env₁', h₁', right⟩ := Env.exists_apply Ty.hereditary_isComplete h.right (hs.rename inj)
  refine ⟨env₁, env₁', h₁, h₁', left, right, fun x y hxy => ?_, fun x y hxy hx => ?_⟩
  · exact find?_apply_map h₁ h₁' (h.find x y hxy) fun t u => Subst.apply_rename inj
  · rcases (find?_of_apply h₁).2 x with ⟨ht, -⟩ | ⟨t, u, -, -, hu⟩
    · exact h.undeclared x y hxy ht
    · rw [hu] at hx
      cases hx

end Env.Renames

/-! ## Two computations -/

/-- Renames the variables that a failure shows. The position stays. -/
def Failure.rename (ρ : VarId → VarId) (f : Failure) : Failure :=
  ⟨⟨f.error.rename ρ, f.site⟩, f.subst.rename ρ⟩

/-- Both computations end with results that are related, or both fail in the same way up to `ρ`
after equally many variables were taken. -/
inductive Corresponds (ρ : VarId → VarId) (R : β → β' → Prop) :
    Except Stop β → Except Stop β' → Prop where
  | ok {b : β} {b' : β'} (related : R b b') : Corresponds ρ R (.ok b) (.ok b')
  | failed {f f' : Failure} {n n' : Supply} (renamed : f' = f.rename ρ)
      (count : n'.count = n.count) : Corresponds ρ R (.error (.failed f n)) (.error (.failed f' n'))

namespace Corresponds

variable {R : β → β' → Prop} {S : γ → γ' → Prop} {x : Except Stop β} {x' : Except Stop β'}
  {k : β → Except Stop γ} {k' : β' → Except Stop γ'} {n m : Supply} {s s' : Subst}

theorem bind (hx : Corresponds ρ R x x')
    (hk : ∀ b b', x = .ok b → R b b' → Corresponds ρ S (k b) (k' b')) :
    Corresponds ρ S (x >>= k) (x' >>= k') := by
  cases hx with
  | ok related => exact hk _ _ rfl related
  | failed renamed count => exact .failed renamed count

/-- A step that can only fault, and does not. -/
theorem step {y : Except Fault β} {y' : Except Fault β'} {b : β} {b' : β'} (hy : y = .ok b)
    (hy' : y' = .ok b') (hk : Corresponds ρ S (k b) (k' b')) :
    Corresponds ρ S (guarded n y >>= k) (guarded m y' >>= k') := by
  subst hy hy'
  exact hk

/-- An equation between two types. -/
theorem equation {a b a' b' : Ty} {describe describe' : UnifyError → InferError}
    {k : Subst → Except Stop γ} {k' : Subst → Except Stop γ'} (inj : Injective ρ)
    (ha : a.IsComplete) (hb : b.IsComplete) (ea : a' = a.rename ρ) (eb : b' = b.rename ρ)
    (es : s' = s.rename ρ) (count : m.count = n.count)
    (hd : ∀ e, describe' (e.rename ρ) = (describe e).rename ρ)
    (hk : ∀ u : Subst, u.Forall Ty.IsComplete → Corresponds ρ S (k u) (k' (u.rename ρ))) :
    Corresponds ρ S ((unify a b).mapError (.ofUnify describe s n) >>= k)
      ((unify a' b').mapError (.ofUnify describe' s' m) >>= k') := by
  subst ea eb es
  rcases unify_rename inj ha hb with ⟨u, hu, hc, hu'⟩ | ⟨e, he, he'⟩
  · rw [hu, hu']
    exact hk u hc
  · rw [he, he']
    refine .failed ?_ count
    rw [hd]
    rfl

/-- The first part of an expression. -/
theorem inside (h : Corresponds ρ R x x') (step : Step) :
    Corresponds ρ R (x.mapError (.inside step)) (x'.mapError (.inside step)) := by
  cases h with
  | ok related => exact .ok related
  | failed renamed count =>
    subst renamed
    exact .failed rfl count

/-- A later part. -/
theorem after {p : β → Prop} (h : Corresponds ρ R x x') (inj : Injective ρ) (hx : Total p x)
    (hs : s.Forall Ty.IsComplete) (es : s' = s.rename ρ) (step : Step) :
    Corresponds ρ R (x.mapError fun e => (e.inside step).after s)
      (x'.mapError fun e => (e.inside step).after s') := by
  subst es
  cases h with
  | ok related => exact .ok related
  | failed renamed count =>
    subst renamed
    obtain ⟨s₁, hs₁, -, hs₁'⟩ := Subst.exists_compose_rename inj hs hx
    simp only [mapError_error, Stop.inside, Stop.after, Failure.rename, hs₁, hs₁']
    exact .failed rfl count

end Corresponds

/-! ## Inference -/

/-- Two results that differ by `ρ`, with `k` variables still to be taken. -/
structure Typed.Renames (ρ : VarId → VarId) (k : Nat) (r : Typed α) (r' : Typed α') : Prop where
  type : r'.type = r.type.rename ρ
  subst : r'.subst = r.subst.rename ρ
  supply : r.supply.Renames ρ k r'.supply

/-- Inference of the expression corresponds to that of all expressions that are equal to it up to
the names of parameters. -/
def CorrespondsOn (ρ : VarId → VarId) (e : Expr α) : Prop :=
  ∀ {α' : Type} {e' : Expr α'} {scope : List (String × String)} {env env' : Env} {n m : Supply}
    {k : Nat},
    Expr.AlphaEq scope e e' → env.Renames ρ scope env' → n.Renames ρ (e.demand + k) m →
    Corresponds ρ (Typed.Renames ρ k) (infer env n e) (infer env' m e')

theorem correspondsOn_var (inj : Injective ρ) (l : α) (x : String) :
    CorrespondsOn ρ (.var l x) := by
  intro α' e' scope env env' n m k alpha henv hn
  cases e' with
  | var l' y =>
    have hn' := hn.mono (Nat.le_add_left k _)
    have empty : ∅ = (∅ : Subst).rename ρ := (Subst.rename_empty inj).symm
    rw [infer_var, infer_var, Mode.var, Mode.var]
    refine .step (Env.lookup_eq Ty.hereditary_isComplete henv.left x)
      (Env.lookup_eq Ty.hereditary_isComplete henv.right y) ?_
    rw [henv.find x y alpha]
    cases hx : env.find? x with
    | none =>
      obtain rfl := henv.undeclared x y alpha hx
      exact .failed (congrArg (Failure.mk ⟨.undeclared x, []⟩) empty) hn'.count
    | some t => exact .ok ⟨rfl, empty, hn'⟩
  | missing | int | bool | fn | call | cond | foreign => exact alpha.elim

theorem correspondsOn_fn (inj : Injective ρ) {body : Expr α} (ih : CorrespondsOn ρ body) (l : α)
    (x : String) : CorrespondsOn ρ (.fn l x body) := by
  intro α' e' scope env env' n m k alpha henv hn
  cases e' with
  | fn l' y body' =>
    have hn₁ : n.Renames ρ (body.demand + k + 1) m := hn.mono (by rw [Expr.demand]; omega)
    have henv₁ := henv.declare x y n.next
    rw [hn₁.head] at henv₁
    rw [infer_fn, infer_fn, Mode.fn, Mode.fn]
    refine ((ih alpha henv₁ hn₁.fresh).inside .body).bind fun b b' hb h => ?_
    have hc := (totalOn body _ henv₁.left).of_ok (mapError_eq_ok_iff.1 hb)
    obtain ⟨param, hparam, -, hparam'⟩ := Subst.exists_apply_rename inj hc.subst (.var n.next)
    rw [Ty.rename_var, hn₁.head, ← h.subst] at hparam'
    exact .step hparam hparam' (.ok ⟨by rw [h.type]; rfl, h.subst, h.supply⟩)
  | missing | int | bool | var | call | cond | foreign => exact alpha.elim

theorem correspondsOn_call (inj : Injective ρ) {callee arg : Expr α} (ihf : CorrespondsOn ρ callee)
    (iha : CorrespondsOn ρ arg) (l : α) : CorrespondsOn ρ (.call l callee arg) := by
  intro α' e' scope env env' n m k alpha henv hn
  cases e' with
  | call l' callee' arg' =>
    obtain ⟨alphaf, alphaa⟩ := alpha
    simp only [Expr.demand, Nat.add_assoc] at hn
    rw [infer_call, infer_call, Mode.call, Mode.call]
    refine ((ihf alphaf henv hn).inside .callee).bind fun f f' hf h => ?_
    have hcf := (totalOn callee n henv.left).of_ok (mapError_eq_ok_iff.1 hf)
    obtain ⟨env₁, env₁', henv₁, henv₁', same⟩ := henv.exists_apply inj hcf.subst
    rw [← h.subst] at henv₁'
    have totala := totalOn arg f.supply same.left
    refine .step henv₁ henv₁'
      (((iha alphaa same h.supply).after inj totala hcf.subst h.subst .arg).bind
      fun a a' ha h₁ => ?_)
    have hca := totala.of_ok (mapError_eq_ok_iff.1 ha)
    obtain ⟨s, hs, hcs, hs'⟩ := Subst.exists_compose_rename inj hcf.subst hca.subst
    obtain ⟨ft, hft, hcft, hft'⟩ := Subst.exists_apply_rename inj hca.subst f.type
    rw [← h.subst, ← h₁.subst] at hs'
    rw [← h.type, ← h₁.subst] at hft'
    -- the variable for the result is the first of those that the supplies still have in common
    have hn₁ : a.supply.Renames ρ (k + 1) a'.supply := h₁.supply.mono (by omega)
    have target : Ty.arrow a'.type (.var a'.supply.next) =
        (Ty.arrow a.type (.var a.supply.next)).rename ρ := by
      rw [Ty.rename_arrow, Ty.rename_var, hn₁.head, h₁.type]
    refine .step hs hs'
      (.step hft hft' (.equation inj (hcft hcf.type) ⟨hca.type, trivial⟩ rfl target rfl
      hn₁.fresh.count (fun _ => rfl) fun u hu => ?_))
    obtain ⟨t, ht, -, ht'⟩ := Subst.exists_apply_rename inj hu (.var a.supply.next)
    obtain ⟨s₁, hs₁, -, hs₁'⟩ := Subst.exists_compose_rename inj hcs hu
    rw [Ty.rename_var, hn₁.head] at ht'
    exact .step ht ht' (.step hs₁ hs₁' (.ok ⟨rfl, rfl, hn₁.fresh⟩))
  | missing | int | bool | var | fn | cond | foreign => exact alpha.elim

theorem correspondsOn_cond (inj : Injective ρ) {test yes no : Expr α} (ihc : CorrespondsOn ρ test)
    (ihy : CorrespondsOn ρ yes) (ihn : CorrespondsOn ρ no) (l : α) :
    CorrespondsOn ρ (.cond l test yes no) := by
  intro α' e' scope env env' n m k alpha henv hn
  cases e' with
  | cond l' test' yes' no' =>
    obtain ⟨alphac, alphay, alphan⟩ := alpha
    simp only [Expr.demand, Nat.add_assoc] at hn
    rw [infer_cond, infer_cond, Mode.cond, Mode.cond]
    refine ((ihc alphac henv hn).inside .test).bind fun c c' hc h => ?_
    have hcc := (totalOn test n henv.left).of_ok (mapError_eq_ok_iff.1 hc)
    refine .equation inj hcc.type trivial h.type rfl h.subst h.supply.count
      (fun _ => by rw [h.type]; rfl) fun u hu => ?_
    obtain ⟨s₁, hs₁, hcs₁, hs₁'⟩ := Subst.exists_compose_rename inj hcc.subst hu
    obtain ⟨env₁, env₁', henv₁, henv₁', same₁⟩ := henv.exists_apply inj hcs₁
    rw [← h.subst] at hs₁'
    have totaly := totalOn yes c.supply same₁.left
    refine .step hs₁ hs₁' (.step henv₁ henv₁'
      (((ihy alphay same₁ h.supply).after inj totaly hcs₁ rfl .yes).bind fun y y' hy h => ?_))
    have hcy := totaly.of_ok (mapError_eq_ok_iff.1 hy)
    obtain ⟨s₂, hs₂, hcs₂, hs₂'⟩ := Subst.exists_compose_rename inj hcs₁ hcy.subst
    -- the last branch starts from the environment of the whole, not from that of the first branch
    obtain ⟨env₂, env₂', henv₂, henv₂', same₂⟩ := henv.exists_apply inj hcs₂
    rw [← h.subst] at hs₂'
    have totaln := totalOn no y.supply same₂.left
    refine .step hs₂ hs₂' (.step henv₂ henv₂'
      (((ihn alphan same₂ h.supply).after inj totaln hcs₂ rfl .no).bind fun z z' hz h₁ => ?_))
    have hcz := totaln.of_ok (mapError_eq_ok_iff.1 hz)
    obtain ⟨s₃, hs₃, hcs₃, hs₃'⟩ := Subst.exists_compose_rename inj hcs₂ hcz.subst
    obtain ⟨yt, hyt, hcyt, hyt'⟩ := Subst.exists_apply_rename inj hcz.subst y.type
    rw [← h₁.subst] at hs₃'
    rw [← h.type, ← h₁.subst] at hyt'
    refine .step hs₃ hs₃' (.step hyt hyt' (.equation inj (hcyt hcy.type) hcz.type rfl h₁.type rfl
      h₁.supply.count (fun _ => by rw [h₁.type]; rfl) fun w hw => ?_))
    obtain ⟨t, ht, -, ht'⟩ := Subst.exists_apply_rename inj hw z.type
    obtain ⟨s, hs, -, hs'⟩ := Subst.exists_compose_rename inj hcs₃ hw
    rw [← h₁.type] at ht'
    exact .step ht ht' (.step hs hs' (.ok ⟨rfl, rfl, h₁.supply⟩))
  | missing | int | bool | var | fn | call | foreign => exact alpha.elim

/-- **Runs correspond.** -/
theorem correspondsOn (inj : Injective ρ) (e : Expr α) : CorrespondsOn ρ e := by
  have empty : ∅ = (∅ : Subst).rename ρ := (Subst.rename_empty inj).symm
  induction e with
  | missing =>
    intro α' e' scope env env' n m k alpha henv hn
    cases e' with
    | missing => exact .failed (congrArg (Failure.mk ⟨.unhandled none, []⟩) empty) hn.count
    | int | bool | var | fn | call | cond | foreign => exact alpha.elim
  | foreign l kind =>
    intro α' e' scope env env' n m k alpha henv hn
    cases e' with
    | foreign l' kind' =>
      obtain rfl : kind = kind' := alpha
      exact .failed (congrArg (Failure.mk ⟨.unhandled (some kind), []⟩) empty) hn.count
    | missing | int | bool | var | fn | call | cond => exact alpha.elim
  | int l i =>
    intro α' e' scope env env' n m k alpha henv hn
    cases e' with
    | int l' i' => exact .ok ⟨rfl, empty, hn.mono (Nat.le_add_left k _)⟩
    | missing | bool | var | fn | call | cond | foreign => exact alpha.elim
  | bool l b =>
    intro α' e' scope env env' n m k alpha henv hn
    cases e' with
    | bool l' b' => exact .ok ⟨rfl, empty, hn.mono (Nat.le_add_left k _)⟩
    | missing | int | var | fn | call | cond | foreign => exact alpha.elim
  | var l x => exact correspondsOn_var inj l x
  | fn l x body ih => exact correspondsOn_fn inj ih l x
  | call l callee arg ihf iha => exact correspondsOn_call inj ihf iha l
  | cond l test yes no ihc ihy ihn => exact correspondsOn_cond inj ihc ihy ihn l

/-! ## Contexts -/

namespace Context

variable {c d : Context} {env env' : Option Env} {e e' : Expr Label}

/-- In this context, inference finds the type. The substitution found and the number of variables
taken are shown after it, and no error. -/
def Finds (c : Context) (env : Option Env) (e : Expr Label) (t : Ty) (s : Subst) (k : Nat) : Prop :=
  (c.infer env e).2 = .result t ∧ (c.infer env e).1.view = ⟨none, none, s, k⟩

/-- In this context, inference fails because of the expression `d`. The error is shown after it, and
`d` unless it is missing, with the substitution found before and the number of variables taken. -/
def Blames (c : Context) (env : Option Env) (e : Expr Label) (error : InferError) (d : Expr Label)
    (s : Subst) (k : Nat) : Prop :=
  (c.infer env e).2 = .error error ∧ (c.infer env e).1.view = ⟨some error, d.shown?, s, k⟩

/-- In this context, inference fails because of the expression at the position. -/
def Rejects (c : Context) (env : Option Env) (e : Expr Label) (error : InferError) (site : Path)
    (s : Subst) (k : Nat) : Prop :=
  ∃ d, e.at? site = some d ∧ c.Blames env e error d s k

theorem Clean.finds (hc : c.Clean) (he : e ≠ .missing) {r : Typed Label} {t : Ty}
    (h : Monotype.infer (env.getD ∅) ⟨(env.getD ∅).next, 0⟩ e = .ok r)
    (ht : r.subst.apply r.type = .ok t) : c.Finds env e t r.subst r.supply.count := by
  obtain ⟨herror, hinvalid, -, -⟩ := View.mk.inj hc.reset.1
  obtain ⟨l, hrun, -⟩ := c.exists_run_eq env he
  rw [hc.start_eq, h, conclude, ht] at hrun
  unfold Finds Context.infer
  rw [hrun]
  refine ⟨rfl, ?_⟩
  show View.mk c.reset.error c.reset.invalid _ _ = _
  rw [herror, hinvalid]
  rfl

theorem Clean.blames (hc : c.Clean) (he : e ≠ .missing) {f : Failure} {n : Supply}
    (h : Monotype.infer (env.getD ∅) ⟨(env.getD ∅).next, 0⟩ e = .error (.failed f n))
    {d : Expr Label} (hd : e.at? f.site = some d) : c.Blames env e f.error d f.subst n.count := by
  obtain ⟨l, hrun, -⟩ := c.exists_run_eq env he
  rw [hc.start_eq, h] at hrun
  unfold Blames Context.infer
  rw [hrun, ← offending_eq hd]
  exact ⟨rfl, rfl⟩

theorem Clean.rejects (hc : c.Clean) (he : e ≠ .missing) {f : Failure} {n : Supply}
    (h : Monotype.infer (env.getD ∅) ⟨(env.getD ∅).next, 0⟩ e = .error (.failed f n)) :
    c.Rejects env e f.error f.site f.subst n.count := by
  obtain ⟨d, hd⟩ := (infer_eq_failed_iff.1 h).exists_at?
  exact ⟨d, hd, hc.blames he h hd⟩

theorem Clean.rejects_missing (hc : c.Clean) (env : Option Env) :
    c.Rejects env .missing .emptyExpr [] ∅ 0 := by
  obtain ⟨-, hinvalid, hsubst, hcount⟩ := View.mk.inj hc.reset.1
  refine ⟨.missing, rfl, rfl, ?_⟩
  show View.mk _ c.reset.invalid c.reset.subst c.reset.count = _
  rw [hinvalid, hsubst, hcount]
  rfl

/-- Runs in two contexts. -/
theorem Clean.infer_renames (hc : c.Clean) (hd : d.Clean) (env env' : Option Env)
    (inj : Injective ρ) (alpha : Expr.AlphaEq [] e e')
    (henv : (env.getD ∅).Renames ρ [] (env'.getD ∅))
    (next : ∀ j < e.demand, ρ ((env.getD ∅).next + .ofNat j) = (env'.getD ∅).next + .ofNat j) :
    (∃ t s k, c.Finds env e t s k ∧ d.Finds env' e' (t.rename ρ) (s.rename ρ) k) ∨
    ∃ error site s k, c.Rejects env e error site s k ∧
      d.Rejects env' e' (error.rename ρ) site (s.rename ρ) k := by
  by_cases he : e = .missing
  · subst he
    cases e' with
    | missing =>
      have h := hd.rejects_missing env'
      rw [← Subst.rename_empty inj] at h
      exact .inr ⟨.emptyExpr, [], ∅, 0, hc.rejects_missing env, h⟩
    | int | bool | var | fn | call | cond | foreign => exact alpha.elim
  have he' : e' ≠ .missing := by
    rintro rfl
    cases e with
    | missing => exact he rfl
    | int | bool | var | fn | call | cond | foreign => exact alpha
  have hn : Supply.Renames ρ (e.demand + 0) ⟨(env.getD ∅).next, 0⟩ ⟨(env'.getD ∅).next, 0⟩ :=
    ⟨rfl, next⟩
  have ends := correspondsOn inj e alpha henv hn
  have total := totalOn e ⟨(env.getD ∅).next, 0⟩ henv.left
  generalize h : Monotype.infer (env.getD ∅) ⟨(env.getD ∅).next, 0⟩ e = out at ends
  generalize h' : Monotype.infer (env'.getD ∅) ⟨(env'.getD ∅).next, 0⟩ e' = out' at ends
  cases ends with
  | @ok r r' related =>
    obtain ⟨t, ht, -, ht'⟩ := Subst.exists_apply_rename inj (total.of_ok h).subst r.type
    rw [← related.subst, ← related.type] at ht'
    have found := hd.finds he' h' ht'
    rw [related.subst, related.supply.count] at found
    exact .inl ⟨t, r.subst, r.supply.count, hc.finds he h ht, found⟩
  | @failed f f' n n' renamed count =>
    subst renamed
    have rejected := hd.rejects he' h'
    rw [count] at rejected
    exact .inr ⟨f.error, f.site, f.subst, n.count, hc.rejects he h, rejected⟩

end Context

/-! ## Names of parameters -/

theorem Env.renames_self {env : Env} (h : env.Forall Ty.IsComplete) : env.Renames id [] env := by
  refine ⟨h, h, fun x y hxy => ?_, fun x y hxy _ => hxy⟩
  obtain rfl : x = y := hxy
  rw [Ty.rename_eq_id, Option.map_id]
  rfl

/-- **Parameters may be renamed.** Of two expressions that are equal up to the names of parameters,
both have the same type and give the same substitution, or both fail with the same error, at the
same position and with the same substitution. Equally many variables are taken. -/
theorem infer_alphaEq (history history' : List Context.Action) (env : Option Env)
    (e e' : Expr Label) (complete : (env.getD ∅).Forall Ty.IsComplete)
    (alpha : Expr.AlphaEq [] e e') :
    (∃ t s k, (Context.after history).Finds env e t s k ∧
      (Context.after history').Finds env e' t s k) ∨
    ∃ error site s k, (Context.after history).Rejects env e error site s k ∧
      (Context.after history').Rejects env e' error site s k := by
  have clean := Context.clean_after history
  have clean' := Context.clean_after history'
  have ends := clean.infer_renames clean' env env injective_id alpha (Env.renames_self complete)
    fun _ _ => rfl
  simp only [Ty.rename_id, Subst.rename_id, InferError.rename_id] at ends
  exact ends

/-- The names `x` and `y` change places in a term with the free name `k`. In the other, both
parameters take the name `k`, so that the inner one hides the outer one and the declaration. -/
theorem infer_alphaEq_exchanged :
    ({} : Context).Finds (some openEnv)
      (.fn 0 "y" (.fn 1 "x" (.call 2 (.var 3 "y") (.call 4 (.var 5 "k") (.var 6 "x")))))
      (.arrow (.arrow (.var 3) (.var 4)) (.arrow (.var 2) (.var 4)))
      (.ofList [(0, .arrow (.var 2) (.var 3)), (1, .arrow (.var 3) (.var 4))]) 4 ∧
    ∃ site, ({} : Context).Rejects (some openEnv)
        (.fn 0 "x" (.fn 1 "y" (.call 2 (.var 3 "y") (.var 4 "y"))))
        (.unify (.occurs 2 (.arrow (.var 2) (.var 3)))) site ∅ 3 ∧
      ({} : Context).Rejects (some openEnv)
        (.fn 0 "k" (.fn 1 "k" (.call 2 (.var 3 "k") (.var 4 "k"))))
        (.unify (.occurs 2 (.arrow (.var 2) (.var 3)))) site ∅ 3 := by
  have complete := isFresh_openEnv.isComplete
  constructor
  · have ends := infer_alphaEq [] [] (some openEnv)
      (.fn 0 "x" (.fn 1 "y" (.call 2 (.var 3 "x") (.call 4 (.var 5 "k") (.var 6 "y")))))
      (.fn 0 "y" (.fn 1 "x" (.call 2 (.var 3 "y") (.call 4 (.var 5 "k") (.var 6 "x")))))
      complete (by simp [Expr.AlphaEq, Expr.SameName])
    have run : (({} : Context).infer (some openEnv)
        (.fn 0 "x" (.fn 1 "y" (.call 2 (.var 3 "x") (.call 4 (.var 5 "k") (.var 6 "y")))))).2 =
        .result (.arrow (.arrow (.var 3) (.var 4)) (.arrow (.var 2) (.var 4))) := by cbv
    have view : (({} : Context).infer (some openEnv)
        (.fn 0 "x" (.fn 1 "y" (.call 2 (.var 3 "x") (.call 4 (.var 5 "k") (.var 6 "y")))))).1.view =
        ⟨none, none,
          .ofList [(0, .arrow (.var 2) (.var 3)), (1, .arrow (.var 3) (.var 4))], 4⟩ := by cbv
    rcases ends with ⟨t, s, k, ⟨hout, hview⟩, found⟩ | ⟨error, site, s, k, ⟨d, hd, hout, -⟩, -⟩
    · cases run.symm.trans hout
      cases view.symm.trans hview
      exact found
    · cases run.symm.trans hout
  · have ends := infer_alphaEq [] [] (some openEnv)
      (.fn 0 "x" (.fn 1 "y" (.call 2 (.var 3 "y") (.var 4 "y"))))
      (.fn 0 "k" (.fn 1 "k" (.call 2 (.var 3 "k") (.var 4 "k"))))
      complete (by simp [Expr.AlphaEq, Expr.SameName])
    have run : (({} : Context).infer (some openEnv)
        (.fn 0 "x" (.fn 1 "y" (.call 2 (.var 3 "y") (.var 4 "y"))))).2 =
        .error (.unify (.occurs 2 (.arrow (.var 2) (.var 3)))) := by cbv
    have subst : (({} : Context).infer (some openEnv)
        (.fn 0 "x" (.fn 1 "y" (.call 2 (.var 3 "y") (.var 4 "y"))))).1.subst = ∅ := by cbv
    have count : (({} : Context).infer (some openEnv)
        (.fn 0 "x" (.fn 1 "y" (.call 2 (.var 3 "y") (.var 4 "y"))))).1.count = 3 := by cbv
    rcases ends with ⟨t, s, k, ⟨hout, -⟩, -⟩ | ⟨error, site, s, k, ⟨d, hd, hout, view⟩, rejected⟩
    · cases run.symm.trans hout
    · cases run.symm.trans hout
      obtain rfl : ∅ = s := subst.symm.trans (congrArg Context.View.subst view)
      obtain rfl : 3 = k := count.symm.trans (congrArg Context.View.count view)
      exact ⟨site, ⟨d, hd, hout, view⟩, rejected⟩

/-! ## Ids of variables -/

namespace Expr

theorem sameName_self {scope : List (String × String)} (h : ∀ p ∈ scope, p.1 = p.2) (x : String) :
    SameName scope x x := by
  induction scope with
  | nil => rfl
  | cons p scope ih =>
    obtain ⟨a, b⟩ := p
    obtain rfl : a = b := h (a, b) List.mem_cons_self
    by_cases hx : x = a
    · exact .inl ⟨hx, hx⟩
    · exact .inr ⟨hx, hx, ih fun p hp => h p (List.mem_cons_of_mem _ hp)⟩

theorem alphaEq_self {scope : List (String × String)} (h : ∀ p ∈ scope, p.1 = p.2) (e : Expr α) :
    AlphaEq scope e e := by
  induction e generalizing scope with
  | missing => trivial
  | int | bool | foreign => rfl
  | var l x => exact sameName_self h x
  | fn l x body ih =>
    refine ih fun p hp => ?_
    rcases List.mem_cons.1 hp with rfl | hp
    · rfl
    · exact h p hp
  | call l callee arg ihf iha => exact ⟨ihf h, iha h⟩
  | cond l test yes no ihc ihy ihn => exact ⟨ihc h, ihy h, ihn h⟩

end Expr

/-- The environment with the variables of all declared types renamed, and another next variable. -/
def Env.renumber (ρ : VarId → VarId) (next : VarId) (env : Env) : Env :=
  { env.subst fun v => .var (ρ v) with next := next }

theorem Env.find?_renumber (ρ : VarId → VarId) (next : VarId) (env : Env) (x : String) :
    (env.renumber ρ next).find? x = (env.find? x).map (Ty.rename ρ) :=
  env.find?_subst (fun v => .var (ρ v)) x

theorem Env.renames_renumber {env : Env} (h : env.Forall Ty.IsComplete) (ρ : VarId → VarId)
    (next : VarId) : env.Renames ρ [] (env.renumber ρ next) := by
  refine ⟨h, fun x u hu => ?_, fun x y hxy => ?_, fun x y hxy _ => hxy⟩
  · rw [find?_renumber] at hu
    obtain ⟨t, ht, rfl⟩ := Option.map_eq_some_iff.1 hu
    exact (h x t ht).rename ρ
  · obtain rfl : x = y := hxy
    exact env.find?_renumber ρ next x

/-- **Variables may be renumbered.** An injective renaming of the variables of an environment, which
also takes the variables that inference will take from it to those taken from another next variable,
changes nothing but the ids. Either both runs find a type, and the second has the renamed type and
the renamed substitution, or both fail at the same position, with the renamed error and the renamed
substitution. Texts do not change, and equally many variables are taken. The ids may wrap around in
either run. -/
theorem infer_renumber (history history' : List Context.Action) (env : Option Env) (e : Expr Label)
    (ρ : VarId → VarId) (next : VarId) (inj : Injective ρ)
    (complete : (env.getD ∅).Forall Ty.IsComplete)
    (fresh : ∀ k < e.demand, ρ ((env.getD ∅).next + .ofNat k) = next + .ofNat k) :
    (∃ t s k, (Context.after history).Finds env e t s k ∧
      (Context.after history').Finds (some ((env.getD ∅).renumber ρ next)) e
        (t.rename ρ) (s.rename ρ) k ∧
      (t.rename ρ).print = t.print) ∨
    ∃ error site s k, (Context.after history).Rejects env e error site s k ∧
      (Context.after history').Rejects (some ((env.getD ∅).renumber ρ next)) e (error.rename ρ) site
        (s.rename ρ) k ∧
      (error.rename ρ).message = error.message := by
  have clean := Context.clean_after history
  have clean' := Context.clean_after history'
  have alpha : Expr.AlphaEq [] e e := Expr.alphaEq_self (fun p hp => absurd hp List.not_mem_nil) e
  have henv := Env.renames_renumber complete ρ next
  have ends := clean.infer_renames clean' env (some _) inj alpha henv fresh
  rcases ends with ⟨t, s, k, found, found'⟩ | ⟨error, site, s, k, rejected, rejected'⟩
  · exact .inl ⟨t, s, k, found, found', Ty.print_rename inj t⟩
  · exact .inr ⟨error, site, s, k, rejected, rejected', error.message_rename inj⟩

/-- The variables 1 and 2 that are taken become the greatest id and, after it, the least one. -/
theorem infer_renumber_wrapping :
    ({} : Context).Finds (some (openEnv.renumber (· + 9223372036854775806) 9223372036854775807))
      (.fn 0 "x" (.call 1 (.var 2 "k") (.var 3 "x")))
      (.arrow (.var 9223372036854775807) (.var (-9223372036854775808)))
      (.singleton 9223372036854775806
        (.arrow (.var 9223372036854775807) (.var (-9223372036854775808)))) 2 := by
  have complete := isFresh_openEnv.isComplete
  have inj : Injective fun v : VarId => v + 9223372036854775806 := fun v w h =>
    (Int64.add_left_inj _).1 h
  have run :
      (({} : Context).infer (some openEnv) (.fn 0 "x" (.call 1 (.var 2 "k") (.var 3 "x")))).2 =
      .result (.arrow (.var 1) (.var 2)) := by cbv
  have view : (({} : Context).infer (some openEnv)
      (.fn 0 "x" (.call 1 (.var 2 "k") (.var 3 "x")))).1.view =
      ⟨none, none, .singleton 0 (.arrow (.var 1) (.var 2)), 2⟩ := by cbv
  have ends := infer_renumber [] [] (some openEnv) (.fn 0 "x" (.call 1 (.var 2 "k") (.var 3 "x")))
    (· + 9223372036854775806) 9223372036854775807 inj complete (by decide)
  rcases ends with ⟨t, s, k, ⟨hout, hview⟩, found, -⟩ | ⟨error, site, s, k, ⟨d, hd, hout, -⟩, -⟩
  · cases run.symm.trans hout
    cases view.symm.trans hview
    rw [Subst.rename_singleton inj] at found
    exact found
  · cases run.symm.trans hout

end Monotype
