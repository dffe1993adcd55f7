import Monotype.Context

/-!
# How inference ends

If the inference of an expression has a result, so has every step of it. `FnRun`, `CallRun` and
`CondRun` name what is found on the way and say which step finds it, for the three forms of
expression that have parts. By `infer_fn_ok`, `infer_call_ok` and `infer_cond_ok`, every result is
that of such a run. The fields have the names that the values have in `Mode.fn`, `Mode.call` and
`Mode.cond`.

`Fails` has one rule for each place at which inference can fail, with what was found before it, and
one for each part that can fail in turn. `infer_eq_failed_iff` says that these are all. A failure is
at a position of the expression (`Fails.exists_at?`), and what a context shows of it is the
expression there, or nothing if that is missing (`Context.offending_eq`).
-/

namespace Monotype

variable {α β γ : Type}

/-! ## Results -/

section Results

variable {env : Env} {n : Supply} {l : α} {r : Typed α}

/-- The inference of a function, if it has a result. -/
structure FnRun (env : Env) (n : Supply) (x : String) (body : Expr α) where
  b : Typed α
  param : Ty
  b_eq : infer (env.declare x (.var n.next)) n.fresh.2 body = .ok b
  param_eq : b.subst.apply (.var n.next) = .ok param

/-- The inference of a call, if it has a result. The argument is inferred in `env₁`, and `s₁` joins
what both parts require. -/
structure CallRun (env : Env) (n : Supply) (callee arg : Expr α) where
  f : Typed α
  env₁ : Env
  a : Typed α
  s₁ : Subst
  ft : Ty
  u : Subst
  t : Ty
  s : Subst
  f_eq : infer env n callee = .ok f
  env₁_eq : env.apply f.subst = .ok env₁
  a_eq : infer env₁ f.supply arg = .ok a
  s₁_eq : f.subst.compose a.subst = .ok s₁
  ft_eq : a.subst.apply f.type = .ok ft
  u_eq : unify ft (.arrow a.type (.var a.supply.next)) = .ok u
  t_eq : u.apply (.var a.supply.next) = .ok t
  s_eq : s₁.compose u = .ok s

/-- The inference of a conditional, if it has a result. The branches are inferred in `env₁` and
`env₂`, and `s₁`, `s₂` and `s₃` are what is required after the condition and each branch. -/
structure CondRun (env : Env) (n : Supply) (test yes no : Expr α) where
  c : Typed α
  u : Subst
  s₁ : Subst
  env₁ : Env
  y : Typed α
  s₂ : Subst
  env₂ : Env
  z : Typed α
  s₃ : Subst
  yt : Ty
  w : Subst
  t : Ty
  s : Subst
  c_eq : infer env n test = .ok c
  u_eq : unify c.type .bool = .ok u
  s₁_eq : c.subst.compose u = .ok s₁
  env₁_eq : env.apply s₁ = .ok env₁
  y_eq : infer env₁ c.supply yes = .ok y
  s₂_eq : s₁.compose y.subst = .ok s₂
  env₂_eq : env.apply s₂ = .ok env₂
  z_eq : infer env₂ y.supply no = .ok z
  s₃_eq : s₂.compose z.subst = .ok s₃
  yt_eq : z.subst.apply y.type = .ok yt
  w_eq : unify yt z.type = .ok w
  t_eq : w.apply z.type = .ok t
  s_eq : s₃.compose w = .ok s

/-- What is found for the function. -/
def FnRun.result {x : String} {body : Expr α} (run : FnRun env n x body) (l : α) : Typed α where
  type := .arrow run.param run.b.type
  subst := run.b.subst
  supply := run.b.supply
  tree := .fn (l, .arrow run.param run.b.type) x run.b.tree

/-- What is found for the call. -/
def CallRun.result {callee arg : Expr α} (run : CallRun env n callee arg) (l : α) : Typed α where
  type := run.t
  subst := run.s
  supply := run.a.supply.fresh.2
  tree := .call (l, run.t) run.f.tree run.a.tree

/-- What is found for the conditional. -/
def CondRun.result {test yes no : Expr α} (run : CondRun env n test yes no) (l : α) : Typed α where
  type := run.t
  subst := run.s
  supply := run.z.supply
  tree := .cond (l, run.t) run.c.tree run.y.tree run.z.tree

theorem infer_var_ok {x : String} (h : infer env n (.var l x) = .ok r) :
    ∃ t, env.lookup x = .ok (some t) ∧ r = ⟨t, ∅, n, .var (l, t) x⟩ := by
  obtain ⟨o, ho, h⟩ := bind_eq_ok_iff.1 h
  cases o with
  | none => cases h
  | some t => exact ⟨t, mapError_eq_ok_iff.1 ho, (Except.ok.inj h).symm⟩

theorem infer_fn_ok {x : String} {body : Expr α} (h : infer env n (.fn l x body) = .ok r) :
    ∃ run : FnRun env n x body, r = run.result l := by
  simp only [infer_fn, Mode.fn, Mode.plain, guarded, bind_eq_ok_iff, mapError_eq_ok_iff] at h
  obtain ⟨b, hb, param, hparam, h⟩ := h
  exact ⟨⟨b, param, hb, hparam⟩, (Except.ok.inj h).symm⟩

theorem infer_call_ok {callee arg : Expr α} (h : infer env n (.call l callee arg) = .ok r) :
    ∃ run : CallRun env n callee arg, r = run.result l := by
  simp only [infer_call, Mode.call, Mode.plain, guarded, bind_eq_ok_iff, mapError_eq_ok_iff] at h
  obtain ⟨f, hf, env₁, henv₁, a, ha, s₁, hs₁, ft, hft, u, hu, t, ht, s, hs, h⟩ := h
  exact ⟨⟨f, env₁, a, s₁, ft, u, t, s, hf, henv₁, ha, hs₁, hft, hu, ht, hs⟩, (Except.ok.inj h).symm⟩

theorem infer_cond_ok {test yes no : Expr α} (h : infer env n (.cond l test yes no) = .ok r) :
    ∃ run : CondRun env n test yes no, r = run.result l := by
  simp only [infer_cond, Mode.cond, Mode.plain, guarded, bind_eq_ok_iff, mapError_eq_ok_iff] at h
  obtain ⟨c, hc, u, hu, s₁, hs₁, env₁, henv₁, y, hy, s₂, hs₂, env₂, henv₂, z, hz, s₃, hs₃, yt, hyt,
    w, hw, t, ht, s, hs, h⟩ := h
  exact ⟨⟨c, u, s₁, env₁, y, s₂, env₂, z, s₃, yt, w, t, s, hc, hu, hs₁, henv₁, hy, hs₂, henv₂, hz,
    hs₃, hyt, hw, ht, hs⟩, (Except.ok.inj h).symm⟩

end Results

/-! ## Failures -/

/-- Inference fails, and leaves the supply. -/
inductive Fails : Env → Supply → Expr α → Failure → Supply → Prop where
  | missing {env : Env} {n : Supply} : Fails env n .missing ⟨⟨.unhandled none, []⟩, ∅⟩ n
  | foreign {env : Env} {n : Supply} {l : α} {kind : String} :
      Fails env n (.foreign l kind) ⟨⟨.unhandled (some kind), []⟩, ∅⟩ n
  | undeclared {env : Env} {n : Supply} {l : α} {x : String} :
      env.find? x = none → Fails env n (.var l x) ⟨⟨.undeclared x, []⟩, ∅⟩ n
  | body {env : Env} {n m : Supply} {l : α} {x : String} {body : Expr α} {f : Failure} :
      Fails (env.declare x (.var n.next)) n.fresh.2 body f m →
      Fails env n (.fn l x body) ⟨⟨f.error, .body :: f.site⟩, f.subst⟩ m
  | callee {env : Env} {n m : Supply} {l : α} {callee arg : Expr α} {f : Failure} :
      Fails env n callee f m →
      Fails env n (.call l callee arg) ⟨⟨f.error, .callee :: f.site⟩, f.subst⟩ m
  | arg {env env' : Env} {n m : Supply} {l : α} {callee arg : Expr α} {r : Typed α} {f : Failure}
      {s : Subst} :
      infer env n callee = .ok r → env.apply r.subst = .ok env' → Fails env' r.supply arg f m →
      r.subst.compose f.subst = .ok s →
      Fails env n (.call l callee arg) ⟨⟨f.error, .arg :: f.site⟩, s⟩ m
  | call {env env' : Env} {n : Supply} {l : α} {callee arg : Expr α} {r a : Typed α} {s : Subst}
      {t : Ty} {cause : UnifyError} :
      infer env n callee = .ok r → env.apply r.subst = .ok env' → infer env' r.supply arg = .ok a →
      r.subst.compose a.subst = .ok s → a.subst.apply r.type = .ok t →
      unify t (.arrow a.type (.var a.supply.next)) = .error (.error cause) →
      Fails env n (.call l callee arg) ⟨⟨.unify cause, []⟩, s⟩ a.supply.fresh.2
  | test {env : Env} {n m : Supply} {l : α} {test yes no : Expr α} {f : Failure} :
      Fails env n test f m →
      Fails env n (.cond l test yes no) ⟨⟨f.error, .test :: f.site⟩, f.subst⟩ m
  | condition {env : Env} {n : Supply} {l : α} {test yes no : Expr α} {c : Typed α}
      {cause : UnifyError} :
      infer env n test = .ok c → unify c.type .bool = .error (.error cause) →
      Fails env n (.cond l test yes no) ⟨⟨.conditionNotBool c.type cause, []⟩, c.subst⟩ c.supply
  | yes {env env₁ : Env} {n m : Supply} {l : α} {test yes no : Expr α} {c : Typed α}
      {u s₁ s : Subst} {f : Failure} :
      infer env n test = .ok c → unify c.type .bool = .ok u → c.subst.compose u = .ok s₁ →
      env.apply s₁ = .ok env₁ → Fails env₁ c.supply yes f m → s₁.compose f.subst = .ok s →
      Fails env n (.cond l test yes no) ⟨⟨f.error, .yes :: f.site⟩, s⟩ m
  | no {env env₁ env₂ : Env} {n m : Supply} {l : α} {test yes no : Expr α} {c y : Typed α}
      {u s₁ s₂ s : Subst} {f : Failure} :
      infer env n test = .ok c → unify c.type .bool = .ok u → c.subst.compose u = .ok s₁ →
      env.apply s₁ = .ok env₁ → infer env₁ c.supply yes = .ok y → s₁.compose y.subst = .ok s₂ →
      env.apply s₂ = .ok env₂ → Fails env₂ y.supply no f m → s₂.compose f.subst = .ok s →
      Fails env n (.cond l test yes no) ⟨⟨f.error, .no :: f.site⟩, s⟩ m
  | branches {env env₁ env₂ : Env} {n : Supply} {l : α} {test yes no : Expr α} {c y z : Typed α}
      {u s₁ s₂ s₃ : Subst} {t : Ty} {cause : UnifyError} :
      infer env n test = .ok c → unify c.type .bool = .ok u → c.subst.compose u = .ok s₁ →
      env.apply s₁ = .ok env₁ → infer env₁ c.supply yes = .ok y → s₁.compose y.subst = .ok s₂ →
      env.apply s₂ = .ok env₂ → infer env₂ y.supply no = .ok z → s₂.compose z.subst = .ok s₃ →
      z.subst.apply y.type = .ok t → unify t z.type = .error (.error cause) →
      Fails env n (.cond l test yes no) ⟨⟨.branchMismatch t z.type cause, []⟩, s₃⟩ z.supply

section Steps

variable {x : Except Stop β} {k : β → Except Stop γ} {n m : Supply} {f : Failure} {s : Subst}

/-- A step that can only fault. -/
theorem guarded_bind_eq_failed_iff {y : Except Fault β} :
    guarded n y >>= k = .error (.failed f m) ↔ ∃ b, y = .ok b ∧ k b = .error (.failed f m) := by
  cases y <;> simp [guarded]

/-- An equation between two types. -/
theorem equation_bind_eq_failed_iff {a b : Ty} {describe : UnifyError → InferError}
    {k : Subst → Except Stop γ} :
    (unify a b).mapError (.ofUnify describe s n) >>= k = .error (.failed f m) ↔
      (∃ cause, unify a b = .error (.error cause) ∧ ⟨⟨describe cause, []⟩, s⟩ = f ∧ n = m) ∨
        ∃ u, unify a b = .ok u ∧ k u = .error (.failed f m) := by
  match unify a b with
  | .ok u => simp
  | .error (.error cause) => simp [Stop.ofUnify, Stop.here]
  | .error (.fault f') => simp [Stop.ofUnify]

/-- The first part of an expression. -/
theorem inside_bind_eq_failed_iff {step : Step} :
    x.mapError (.inside step) >>= k = .error (.failed f m) ↔
      (∃ g, x = .error (.failed g m) ∧ ⟨⟨g.error, step :: g.site⟩, g.subst⟩ = f) ∨
        ∃ b, x = .ok b ∧ k b = .error (.failed f m) := by
  match x with
  | .ok b => simp
  | .error (.failed g m') =>
    rw [mapError_error, error_bind, Stop.inside]
    constructor
    · intro h
      cases h
      exact .inl ⟨g, rfl, rfl⟩
    · rintro (⟨g', h, rfl⟩ | ⟨b, h, -⟩)
      · cases h
        rfl
      · cases h
  | .error (.faulted f' blame m') => simp [Stop.inside]

/-- A later part: if it fails, what was found before the part is joined. -/
theorem after_bind_eq_failed_iff {step : Step} :
    (x.mapError fun e => (e.inside step).after s) >>= k = .error (.failed f m) ↔
      (∃ g s', x = .error (.failed g m) ∧ s.compose g.subst = .ok s' ∧
        ⟨⟨g.error, step :: g.site⟩, s'⟩ = f) ∨ ∃ b, x = .ok b ∧ k b = .error (.failed f m) := by
  match x with
  | .ok b => simp
  | .error (.failed g m') =>
    cases hs : s.compose g.subst with
    | ok s' =>
      simp only [mapError_error, error_bind, Stop.inside, Stop.after, hs]
      constructor
      · intro h
        cases h
        exact .inl ⟨g, s', rfl, hs, rfl⟩
      · rintro (⟨g', s'', h, hs', rfl⟩ | ⟨b, h, -⟩)
        · cases h
          cases hs.symm.trans hs'
          rfl
        · cases h
    | error e => simp [Stop.inside, Stop.after, hs]
  | .error (.faulted f' blame m') => simp [Stop.inside, Stop.after]

end Steps

theorem Env.lookup_eq_ok_none_iff {env : Env} {x : String} :
    env.lookup x = .ok none ↔ env.find? x = none := by
  unfold lookup
  cases env.find? x with
  | none => simp
  | some t => cases t <;> simp [Ty.read, Except.map]

section Failures

variable {env : Env} {n m : Supply} {e : Expr α} {f : Failure}

/-- The failures of an expression are those that the rules give. -/
def FailsOn (e : Expr α) : Prop :=
  ∀ {env : Env} {n m : Supply} {f : Failure},
    infer env n e = .error (.failed f m) ↔ Fails env n e f m

theorem failsOn_var (l : α) (x : String) : FailsOn (.var l x) := by
  intro env n m f
  rw [infer_var, Mode.var]
  dsimp only [Mode.plain]
  rw [guarded_bind_eq_failed_iff]
  constructor
  · rintro ⟨o, ho, h⟩
    cases o with
    | none =>
      cases h
      exact .undeclared (Env.lookup_eq_ok_none_iff.1 ho)
    | some t => cases h
  · intro h
    cases h with
    | undeclared hx => exact ⟨none, Env.lookup_eq_ok_none_iff.2 hx, rfl⟩

theorem failsOn_fn {body : Expr α} (ih : FailsOn body) (l : α) (x : String) :
    FailsOn (.fn l x body) := by
  intro env n m f
  simp only [infer_fn, Mode.fn, Mode.plain, inside_bind_eq_failed_iff, guarded_bind_eq_failed_iff]
  constructor
  · rintro (⟨g, hg, rfl⟩ | ⟨b, -, param, -, h⟩)
    · exact .body (ih.1 hg)
    · cases h
  · intro h
    cases h with
    | body h => exact .inl ⟨_, ih.2 h, rfl⟩

theorem failsOn_call {callee arg : Expr α} (ihf : FailsOn callee) (iha : FailsOn arg) (l : α) :
    FailsOn (.call l callee arg) := by
  intro env n m f
  simp only [infer_call, Mode.call, Mode.plain, inside_bind_eq_failed_iff,
    after_bind_eq_failed_iff, equation_bind_eq_failed_iff, guarded_bind_eq_failed_iff]
  constructor
  · rintro (⟨g, hg, rfl⟩ | ⟨r, hr, env', henv, ⟨g, s, hg, hs, rfl⟩ | ⟨a, ha, s, hs, t, ht, h⟩⟩)
    · exact .callee (ihf.1 hg)
    · exact .arg hr henv (iha.1 hg) hs
    · rcases h with ⟨cause, hcause, rfl, rfl⟩ | ⟨u, -, t', -, s', -, h⟩
      · exact .call hr henv ha hs ht hcause
      · cases h
  · intro h
    cases h with
    | callee hg => exact .inl ⟨_, ihf.2 hg, rfl⟩
    | arg hr henv hg hs => exact .inr ⟨_, hr, _, henv, .inl ⟨_, _, iha.2 hg, hs, rfl⟩⟩
    | call hr henv ha hs ht hcause =>
      exact .inr ⟨_, hr, _, henv, .inr ⟨_, ha, _, hs, _, ht, .inl ⟨_, hcause, rfl, rfl⟩⟩⟩

theorem failsOn_cond {test yes no : Expr α} (ihc : FailsOn test) (ihy : FailsOn yes)
    (ihn : FailsOn no) (l : α) : FailsOn (.cond l test yes no) := by
  intro env n m f
  simp only [infer_cond, Mode.cond, Mode.plain, inside_bind_eq_failed_iff,
    after_bind_eq_failed_iff, equation_bind_eq_failed_iff, guarded_bind_eq_failed_iff]
  constructor
  · rintro (⟨g, hg, rfl⟩ | ⟨c, hc, ⟨cause, hcause, rfl, rfl⟩ | ⟨u, hu, s₁, hs₁, env₁, henv₁, h⟩⟩)
    · exact .test (ihc.1 hg)
    · exact .condition hc hcause
    rcases h with ⟨g, s, hg, hs, rfl⟩ | ⟨y, hy, s₂, hs₂, env₂, henv₂, h⟩
    · exact .yes hc hu hs₁ henv₁ (ihy.1 hg) hs
    rcases h with ⟨g, s, hg, hs, rfl⟩ | ⟨z, hz, s₃, hs₃, t, ht, h⟩
    · exact .no hc hu hs₁ henv₁ hy hs₂ henv₂ (ihn.1 hg) hs
    rcases h with ⟨cause, hcause, rfl, rfl⟩ | ⟨w, -, t', -, s, -, h⟩
    · exact .branches hc hu hs₁ henv₁ hy hs₂ henv₂ hz hs₃ ht hcause
    · cases h
  · intro h
    cases h with
    | test hg => exact .inl ⟨_, ihc.2 hg, rfl⟩
    | condition hc hcause => exact .inr ⟨_, hc, .inl ⟨_, hcause, rfl, rfl⟩⟩
    | yes hc hu hs₁ henv₁ hg hs =>
      exact .inr ⟨_, hc, .inr ⟨_, hu, _, hs₁, _, henv₁, .inl ⟨_, _, ihy.2 hg, hs, rfl⟩⟩⟩
    | no hc hu hs₁ henv₁ hy hs₂ henv₂ hg hs =>
      exact .inr ⟨_, hc, .inr ⟨_, hu, _, hs₁, _, henv₁, .inr ⟨_, hy, _, hs₂, _, henv₂,
        .inl ⟨_, _, ihn.2 hg, hs, rfl⟩⟩⟩⟩
    | branches hc hu hs₁ henv₁ hy hs₂ henv₂ hz hs₃ ht hcause =>
      exact .inr ⟨_, hc, .inr ⟨_, hu, _, hs₁, _, henv₁, .inr ⟨_, hy, _, hs₂, _, henv₂,
        .inr ⟨_, hz, _, hs₃, _, ht, .inl ⟨_, hcause, rfl, rfl⟩⟩⟩⟩⟩

/-- **Failures of inference.** -/
theorem infer_eq_failed_iff : infer env n e = .error (.failed f m) ↔ Fails env n e f m := by
  suffices on : FailsOn e from on
  induction e with
  | missing =>
    intro env n m f
    constructor
    · rintro ⟨⟩
      exact .missing
    · rintro ⟨⟩
      rfl
  | foreign l kind =>
    intro env n m f
    constructor
    · rintro ⟨⟩
      exact .foreign
    · rintro ⟨⟩
      rfl
  | int | bool =>
    intro env n m f
    constructor
    · rintro ⟨⟩
    · rintro ⟨⟩
  | var l x => exact failsOn_var l x
  | fn l x body ih => exact failsOn_fn ih l x
  | call l callee arg ihf iha => exact failsOn_call ihf iha l
  | cond l test yes no ihc ihy ihn => exact failsOn_cond ihc ihy ihn l

/-- A failure is at a position of the expression. -/
theorem Fails.exists_at? (h : Fails env n e f m) : ∃ d, e.at? f.site = some d := by
  induction h with
  | missing | foreign | undeclared | call | condition | branches => exact ⟨_, rfl⟩
  | body _ ih | callee _ ih | test _ ih => exact ih
  | arg _ _ _ _ ih => exact ih
  | yes _ _ _ _ _ _ ih => exact ih
  | no _ _ _ _ _ _ _ _ _ ih => exact ih

end Failures

/-- What is shown of an expression: the expression itself, and nothing if it is missing. -/
def Expr.shown? : Expr α → Option (Expr α)
  | .missing => none
  | d => some d

/-- A context shows the expression at the position of an error, unless it is missing. -/
theorem Context.offending_eq {root d : Expr Label} {site : Path} (h : root.at? site = some d) :
    offending root site = d.shown? := by
  unfold offending
  rw [h]
  cases d <;> rfl

end Monotype
