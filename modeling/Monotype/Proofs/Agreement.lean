import Monotype.Proofs.Inversion
import Monotype.Proofs.Recording
import Monotype.Proofs.Solving

/-!
# Inference by solving

Inference solves the equations of an expression as it meets them, each part in an environment that
was rewritten by what its predecessors required. This is the same as to collect all equations first
and to solve them from first to last: the type, the substitution and, if there is no type, the
error, its position and the substitution found before it. `agreesOn` says so for expressions, and
`Context.run_cases` for contexts.

The comparison of a part starts from the substitution `s` that was found before it. It follows from
the comparison that starts with nothing, in the rewritten environment (`AgreesOn.after`), so the
induction over expressions only has to put parts together.
-/

namespace Monotype

variable {α : Type}

/-! ## The comparison -/

/-- The outcome is that of solving the equations after `s` was found. -/
def Matches (s : Subst) (g : Generated) : Except Stop (Typed α) → Prop
  | .ok r => ∃ t, g.run s = .ok (t, r.subst) ∧ (∃ vs, r.subst.IsSolved vs) ∧
      r.type = r.subst.once t ∧ r.supply.next = g.supply.next
  | .error (.failed f _) => g.run s = .error (.failed f)
  | .error (.faulted _ _ _) => False

/-- The outcome is that of solving the equations after `s` was found, but its substitution does not
contain `s`. -/
def MatchesPart (s : Subst) (g : Generated) : Except Stop (Typed α) → Prop
  | .ok r => ∃ t s', g.run s = .ok (t, s') ∧ s.compose r.subst = .ok s' ∧
      (∃ vs, r.subst.IsSolved vs) ∧ r.type = s'.once t ∧ r.supply.next = g.supply.next
  | .error (.failed f _) => ∃ s', s.compose f.subst = .ok s' ∧
      g.run s = .error (.failed { f with subst := s' })
  | .error (.faulted _ _ _) => False

section Parts

variable {s s' : Subst} {g g' : Generated} {f : Ty → Supply → Generated} {step : Step}
  {out : Except Stop (Typed α)}

theorem Matches.of_run_eq (h : Matches s' g' out) (hrun : g.run s = g'.run s')
    (hsupply : g.supply = g'.supply) : Matches s g out := by
  match out with
  | .ok r =>
    obtain ⟨t, ht, hs, htype, hnext⟩ := h
    exact ⟨t, hrun.trans ht, hs, htype, by rw [hsupply]; exact hnext⟩
  | .error (.failed _ _) => exact hrun.trans h
  | .error (.faulted _ _ _) => exact h

/-- The first part of an expression. -/
theorem Matches.first {k : Typed α → Except Stop (Typed α)} (h : Matches ∅ g out)
    (hk : ∀ a t, g.run ∅ = .ok (t, a.subst) → (∃ vs, a.subst.IsSolved vs) →
      a.type = a.subst.once t → a.supply.next = g.supply.next →
      Matches a.subst (f t g.supply) (k a)) :
    Matches ∅ ((g.inside step).andThen f) (out.mapError (.inside step) >>= k) := by
  match out with
  | .ok a =>
    obtain ⟨t, hrun, hs, htype, hnext⟩ := h
    exact (hk a t hrun hs htype hnext).of_run_eq (Generated.run_part_of_ok hrun)
      (Generated.supply_part_of_ok hrun)
  | .error (.failed _ _) => exact Generated.run_part_of_error h
  | .error (.faulted _ _ _) => exact h

/-- A later part, whose substitution joins the one found before. -/
theorem MatchesPart.later {k : Typed α → Subst → Except Stop (Typed α)} (h : MatchesPart s g out)
    (hk : ∀ a t s', g.run s = .ok (t, s') → s.compose a.subst = .ok s' →
      (∃ vs, a.subst.IsSolved vs) → a.type = s'.once t → a.supply.next = g.supply.next →
      Matches s' (f t g.supply) (k a s')) :
    Matches s ((g.inside step).andThen f)
      ((out.mapError fun e => (e.inside step).after s) >>= fun a =>
        guarded a.supply (s.compose a.subst) >>= fun s' => k a s') := by
  match out with
  | .ok a =>
    obtain ⟨t, s', hrun, hs', hs, htype, hnext⟩ := h
    rw [mapError_ok, ok_bind, hs']
    exact (hk a t s' hrun hs' hs htype hnext).of_run_eq (Generated.run_part_of_ok hrun)
      (Generated.supply_part_of_ok hrun)
  | .error (.failed φ n) =>
    obtain ⟨s', hs', hrun⟩ := h
    simp only [mapError_error, error_bind, Stop.inside, Stop.after, hs']
    exact Generated.run_part_of_error hrun
  | .error (.faulted _ _ _) => exact h

/-- An equation between two types that were rewritten by what was found before. -/
theorem Matches.equation {env : Env} {lo : Int} {l r t a b : Ty} {reason : Reason}
    {describe : UnifyError → InferError} {n m : Supply} {k : Subst → Except Stop (Typed α)}
    (hs : s.SolvedIn env lo n.next.toInt) (hl : l.InScope env lo n.next.toInt)
    (hr : r.InScope env lo n.next.toInt) (ha : a = s.once l) (hb : b = s.once r)
    (hd : describe = fun e => reason.error a b e)
    (hk : ∀ u s', (∃ us, u.IsSolved us) → s.compose u = .ok s' →
      (Generated.require l r reason t n).run s = .ok (t, s') → Matches s' (f t n) (k u)) :
    Matches s ((Generated.require l r reason t n).andThen f)
      ((unify a b).mapError (.ofUnify describe s m) >>= k) := by
  subst ha hb hd
  rcases Generated.run_require hs hl hr reason t with ⟨u, s', hu, hus, hs', hrun⟩ | ⟨e, he, hrun⟩
  · rw [hu]
    refine (hk u s' hus hs' hrun).of_run_eq ?_ rfl
    rw [Generated.run_andThen, hrun]
    rfl
  · rw [he]
    show Generated.run _ _ = _
    rw [Generated.run_andThen, hrun]
    rfl

end Parts

/-- Inference of the expression agrees with solving its equations, in all environments in which the
variables to be handed out are unused. -/
def AgreesOn (e : Expr α) : Prop :=
  ∀ {env : Env} {n m : Supply}, m.next = n.next → env.FreshFor m.next → m.Room e.demand →
    Matches ∅ (generate env m e) (infer env n e)

/-- **Parts.** After `s` was found, inference in the rewritten environment agrees with solving the
equations of the part under `s`. -/
theorem AgreesOn.after {e : Expr α} (he : AgreesOn e) {env : Env} {s : Subst} {lo : Int}
    {k : VarId} {n m : Supply} (hm : m.next = n.next) (fresh : env.FreshFor k)
    (hk : k.toInt ≤ m.next.toInt) (hlo : lo ≤ m.next.toInt) (hs : s.SolvedIn env lo m.next.toInt)
    (room : m.Room e.demand) :
    MatchesPart s (generate env m e) (infer (env.subst s.image) n e) := by
  have hspans := (generate_spans fresh.plain room).mono hlo (Nat.le_refl _)
  have h := he hm (hs.freshFor_subst fresh hk (Int.le_refl _)) room
  rw [generate_subst fresh.plain room fun v hv =>
    Subst.image_of_unbound (hs.unbound fresh hk hv)] at h
  obtain ⟨vs, hvs, hw, -⟩ := hspans.within hs
  have hafter := Generated.run_after hvs hw
  generalize infer (env.subst s.image) n e = out at h ⊢
  match out with
  | .ok r =>
    obtain ⟨t, hrun, ⟨ws, hws⟩, htype, hsupply⟩ := h
    rcases hafter with ⟨t', w, s', -, hrun', hs', hrun''⟩ | ⟨f, s', hrun', -, -⟩
    · rw [hrun] at hrun'
      cases hrun'
      exact ⟨t', s', hrun'', hs', ⟨ws, hws⟩, htype.trans (hws.once_of_compose hs' t').symm, hsupply⟩
    · rw [hrun] at hrun'
      cases hrun'
  | .error (.failed f n') =>
    rcases hafter with ⟨t', w, s', -, hrun', -, -⟩ | ⟨f', s', hrun', hs', hrun''⟩
    · rw [show Generated.run _ _ = _ from h] at hrun'
      cases hrun'
    · rw [show Generated.run _ _ = _ from h] at hrun'
      cases hrun'
      exact ⟨s', hs', hrun''⟩
  | .error (.faulted _ _ _) => exact h

/-! ## Expressions -/

theorem guarded_ok {β : Type} (n : Supply) (b : β) : guarded n (.ok b) = .ok b := rfl

theorem agreesOn_fn {body : Expr α} (ih : AgreesOn body) (l : α) (x : String) :
    AgreesOn (.fn l x body) := by
  intro env n m hm fresh room
  have hb := ih (n := n.fresh.2) (congrArg (· + 1) hm) (fresh.declare room x) room.fresh
  rw [generate_fn, infer_fn, Mode.fn]
  dsimp only [Mode.plain]
  rw [hm] at hb ⊢
  refine hb.first fun b t hrun hs htype hsupply => ?_
  obtain ⟨vs, hvs⟩ := hs
  rw [hvs.apply_eq_once]
  exact ⟨.arrow (.var n.next) t, rfl, ⟨vs, hvs⟩, by rw [htype]; rfl, hsupply⟩

theorem agreesOn_call {callee arg : Expr α} (ihf : AgreesOn callee) (iha : AgreesOn arg) (l : α) :
    AgreesOn (.call l callee arg) := by
  intro env n m hm fresh room
  obtain ⟨roomf, spansf, rooma, spansa', roomv⟩ := spans_call fresh.plain room
  have spansa := spansa'.mono spansf.le (Nat.le_refl _)
  have hle := Int.le_trans spansf.le spansa.le
  rw [generate_call, infer_call, Mode.call]
  dsimp only [Mode.plain]
  refine (ihf hm fresh roomf).first fun f ft hrunf hsolvedf htypef hsupplyf => ?_
  obtain ⟨vs₁, hvs₁⟩ := hsolvedf
  have hs₁ := spansf.solvedIn_of_run (.empty env _ _) hrunf
  rw [hvs₁.apply_env fresh.plain]
  refine (iha.after hsupplyf.symm fresh spansf.le spansf.le hs₁ rooma).later
    fun a t s hruna hs hsolveda htypea hsupplya => ?_
  obtain ⟨vs₂, hvs₂⟩ := hsolveda
  have hs' := spansa.solvedIn_of_run hs₁ hruna
  have spansr := Generated.spans_require_fresh roomv hle
    ((spansf.result ft (Generated.run_eq_ok_iff.1 hrunf).1).mono (Int.le_refl _) spansa.le)
    (spansa.result t (Generated.run_eq_ok_iff.1 hruna).1)
  have hv := Subst.image_of_unbound (hs'.unbound fresh hle (Int.le_refl _))
  rw [hvs₂.apply_eq_once]
  generalize (generate env (generate env m callee).supply arg).supply = n' at *
  show Matches s ((Generated.require ft (.arrow t (.var n'.next)) .call (.var n'.next)
    n'.fresh.2).andThen Generated.done) _
  have hleft : a.subst.once f.type = s.once ft := by rw [htypef, hvs₂.once_of_compose hs]
  -- the variable for the returned type is not bound yet
  have hright : Ty.arrow a.type (.var a.supply.next) = s.once (.arrow t (.var n'.next)) := by
    rw [htypea, hsupplya, Subst.once_eq_subst, Subst.once_eq_subst, Ty.subst, Ty.subst, hv]
  obtain ⟨scopel, scoper⟩ := spansr.constraints _ List.mem_cons_self
  refine Matches.equation (hs'.mono (Int.le_refl _) spansr.le) scopel scoper hleft hright rfl
    fun u s' hsolvedu hsu hrun => ?_
  obtain ⟨us, hus⟩ := hsolvedu
  have hsolved := (spansr.solvedIn_of_run hs' hrun).isSolved
  rw [hus.apply_eq_once, hsu]
  refine ⟨.var n'.next, rfl, hsolved, ?_, congrArg (· + 1) hsupplya⟩
  show u.once (.var a.supply.next) = s'.once (.var n'.next)
  rw [hus.once_of_compose hsu, Subst.once_eq_subst s, Ty.subst, hv, hsupplya]

theorem agreesOn_cond {test yes no : Expr α} (ihc : AgreesOn test) (ihy : AgreesOn yes)
    (ihn : AgreesOn no) (l : α) : AgreesOn (.cond l test yes no) := by
  intro env n m hm fresh room
  obtain ⟨roomc, spansc, roomy, spansy', roomn⟩ := spans_cond fresh.plain room
  have spansy := spansy'.mono spansc.le (Nat.le_refl _)
  have hle := Int.le_trans spansc.le spansy.le
  have spansn := (generate_spans fresh.plain roomn).mono hle (Nat.le_refl _)
  rw [generate_cond, infer_cond, Mode.cond]
  dsimp only [Mode.plain]
  refine (ihc hm fresh roomc).first fun c ct hrunc _ htypec hsupplyc => ?_
  have hsc := spansc.solvedIn_of_run (.empty env _ _) hrunc
  have scopec := spansc.result ct (Generated.run_eq_ok_iff.1 hrunc).1
  refine Matches.equation hsc scopec (.const "bool") htypec rfl rfl
    fun u s₁ _ hsu hrunu => ?_
  have hs₁ := (Generated.spans_require .condition scopec (.const "bool") scopec).solvedIn_of_run
    hsc hrunu
  obtain ⟨vs₁, hvs₁⟩ := hs₁.isSolved
  rw [hsu]
  dsimp only [guarded_ok, ok_bind]
  rw [hvs₁.apply_env fresh.plain]
  refine (ihy.after hsupplyc.symm fresh spansc.le spansc.le hs₁ roomy).later
    fun y yt s₂ hruny hs₂ _ htypey hsupplyy => ?_
  have hs₂' := spansy.solvedIn_of_run hs₁ hruny
  obtain ⟨vs₂, hvs₂⟩ := hs₂'.isSolved
  rw [hvs₂.apply_env fresh.plain]
  refine (ihn.after hsupplyy.symm fresh hle hle hs₂' roomn).later
    fun z nt s₃ hrunn hs₃ hsolvedz htypez hsupplyz => ?_
  obtain ⟨vsz, hvsz⟩ := hsolvedz
  have hs₃' := spansn.solvedIn_of_run hs₂' hrunn
  have scopey :=
    (spansy.result yt (Generated.run_eq_ok_iff.1 hruny).1).mono (Int.le_refl _) spansn.le
  have scopen := spansn.result nt (Generated.run_eq_ok_iff.1 hrunn).1
  rw [hvsz.apply_eq_once]
  generalize
    (generate env (generate env (generate env m test).supply yes).supply no).supply = n' at *
  show Matches s₃ ((Generated.require yt nt .branches nt n').andThen Generated.done) _
  have hyes : z.subst.once y.type = s₃.once yt := by rw [htypey, hvsz.once_of_compose hs₃]
  refine Matches.equation hs₃' scopey scopen hyes htypez rfl fun w s hsolvedw hsw hrunw => ?_
  obtain ⟨ws, hws⟩ := hsolvedw
  have hsolved := ((Generated.spans_require .branches scopey scopen scopen).solvedIn_of_run hs₃'
    hrunw).isSolved
  rw [hws.apply_eq_once, hsw]
  refine ⟨nt, rfl, hsolved, ?_, hsupplyz⟩
  show w.once z.type = s.once nt
  rw [htypez, hws.once_of_compose hsw]

theorem agreesOn (e : Expr α) : AgreesOn e := by
  induction e with
  | missing | foreign => exact fun _ _ _ => rfl
  | int | bool => exact fun hm _ _ => ⟨_, rfl, ⟨[], .empty []⟩, rfl, hm.symm⟩
  | var l x =>
    intro env n m hm fresh _
    simp only [infer_var, Mode.var, Mode.plain, generate,
      Env.lookup_eq Ty.hereditary_isPlain fresh.plain, guarded_ok, ok_bind]
    cases env.find? x with
    | none => exact rfl
    | some t => exact ⟨t, rfl, ⟨[], .empty []⟩, (Subst.once_empty t).symm, hm.symm⟩
  | fn l x body ih => exact agreesOn_fn ih l x
  | call l callee arg ihf iha => exact agreesOn_call ihf iha l
  | cond l test yes no ihc ihy ihn => exact agreesOn_cond ihc ihy ihn l

/-! ## Contexts -/

section Context

variable {c : Context} {env : Option Env} {e : Expr Label}

theorem Context.run_of_ok {r : Typed Label} (he : e ≠ .missing)
    (h : Monotype.infer (env.getD ∅) (c.start env) e = .ok r) {t : Ty}
    (ht : r.subst.apply r.type = .ok t) :
    ∃ c', c.run env e = (c', .result { r with type := t }) ∧ c'.subst = r.subst ∧
      c'.supply = r.supply := by
  obtain ⟨l, hrun, -⟩ := c.exists_run_eq env he
  rw [hrun, h, Context.conclude, ht]
  exact ⟨_, rfl, rfl, rfl⟩

theorem Context.run_of_failed {f : Failure} {n : Supply} (he : e ≠ .missing)
    (h : Monotype.infer (env.getD ∅) (c.start env) e = .error (.failed f n)) :
    ∃ c', c.run env e = (c', .error f.error) ∧ c'.subst = f.subst ∧ c'.supply = n ∧
      c'.error = some f.error ∧ ∃ d, e.at? f.site = some d ∧ c'.invalid = d.shown? := by
  obtain ⟨l, hrun, -⟩ := c.exists_run_eq env he
  obtain ⟨d, hd⟩ := (infer_eq_failed_iff.1 h).exists_at?
  rw [hrun, h]
  exact ⟨_, rfl, rfl, rfl, rfl, d, hd, Context.offending_eq hd⟩

theorem inferBySolving_eq (env : Env) (n : Supply) (e : Expr α) :
    inferBySolving env n e = (generate env n e).run ∅ >>= fun r =>
      (r.2.apply r.1).mapError .faulted >>= fun t => .ok (t, r.2) := by
  unfold inferBySolving Generated.run
  dsimp only
  cases solve ∅ (generate env n e).constraints with
  | error u => rfl
  | ok s => cases (generate env n e).result <;> rfl

/-- How inference ends in a context: with what the equations give, or with the first error that is
met in solving them. -/
theorem Context.run_cases (c : Context) (he : e ≠ .missing) (fresh : (env.getD ∅).IsFresh)
    (room : (env.getD ∅).next.toInt + e.demand ≤ 2 ^ 63 - 1) :
    (∃ r c', Monotype.infer (env.getD ∅) (c.start env) e = .ok r ∧
        c.run env e = (c', .result r) ∧ c'.subst = r.subst ∧
        inferBySolving (env.getD ∅) { next := (env.getD ∅).next } e = .ok (r.type, r.subst)) ∨
      ∃ f c', c.run env e = (c', .error f.error) ∧ c'.subst = f.subst ∧ c'.error = some f.error ∧
        (∃ d, e.at? f.site = some d ∧ c'.invalid = d.shown?) ∧
        inferBySolving (env.getD ∅) { next := (env.getD ∅).next } e = .error (.failed f) := by
  have h := agreesOn e (n := c.start env) (m := { next := (env.getD ∅).next }) rfl fresh
    (Supply.room_of_le room)
  rw [inferBySolving_eq]
  cases ho : Monotype.infer (env.getD ∅) (c.start env) e with
  | ok r =>
    rw [ho] at h
    obtain ⟨t, hrun, ⟨vs, hvs⟩, htype, -⟩ := h
    have happly : r.subst.apply r.type = .ok r.type := by
      rw [hvs.apply_eq_once, htype, hvs.once_once]
    obtain ⟨c', hc', hsubst, -⟩ := Context.run_of_ok he ho happly
    refine .inl ⟨r, c', rfl, hc', hsubst, ?_⟩
    rw [hrun, htype, ok_bind, hvs.apply_eq_once]
    rfl
  | error stop =>
    rw [ho] at h
    cases stop with
    | faulted => exact h.elim
    | failed f n =>
      obtain ⟨c', hc', hsubst, -, herror, hinvalid⟩ := Context.run_of_failed he ho
      refine .inr ⟨f, c', hc', hsubst, herror, hinvalid, ?_⟩
      rw [show Generated.run _ _ = _ from h]
      rfl

/-- A result of a context is one of inference, and comes from solving the equations. -/
theorem Context.of_run_result {c' : Context} {r : Typed Label} (fresh : (env.getD ∅).IsFresh)
    (room : (env.getD ∅).next.toInt + e.demand ≤ 2 ^ 63 - 1) (h : c.run env e = (c', .result r)) :
    e ≠ .missing ∧ Monotype.infer (env.getD ∅) (c.start env) e = .ok r ∧ c'.subst = r.subst ∧
      inferBySolving (env.getD ∅) { next := (env.getD ∅).next } e = .ok (r.type, r.subst) := by
  have he : e ≠ .missing := by
    rintro rfl
    cases h
  rcases c.run_cases he fresh room with ⟨r', c'', hr, h', hs, hsol⟩ | ⟨f, c'', h', -⟩
  · rw [h] at h'
    cases h'
    exact ⟨he, hr, hs, hsol⟩
  · rw [h] at h'
    cases h'

theorem Context.exists_run_of_infer {c' : Context} {t : Ty} (h : c.infer env e = (c', .result t)) :
    ∃ r, c.run env e = (c', .result r) ∧ r.type = t := by
  unfold Context.infer at h
  match hr : c.run env e with
  | (c'', .result r) =>
    rw [hr] at h
    cases h
    exact ⟨r, rfl, rfl⟩
  | (_, .error _) | (_, .fault _) =>
    rw [hr] at h
    cases h

/-- Any other context infers the same type. -/
theorem Context.exists_infer_of_run {c' : Context} {r : Typed Label} (fresh : (env.getD ∅).IsFresh)
    (room : (env.getD ∅).next.toInt + e.demand ≤ 2 ^ 63 - 1) (h : c.run env e = (c', .result r))
    (d : Context) : ∃ d', d.infer env e = (d', .result r.type) := by
  obtain ⟨he, -, -, hsol⟩ := Context.of_run_result fresh room h
  unfold Context.infer
  rcases d.run_cases he fresh room with ⟨r', d', -, hd, -, hsol'⟩ | ⟨f, d', -, -, -, -, hsol'⟩
  · rw [hsol] at hsol'
    rw [hd, (Prod.mk.inj (Except.ok.inj hsol')).1]
    exact ⟨d', rfl⟩
  · rw [hsol] at hsol'
    cases hsol'

/-- **Inference is solving.** In a context, inference ends with the type and the substitution that
come from solving all equations of the expression in order, or with the first error met there and
with the substitution found before it. The expression at the position of the error is shown, unless
it is missing. -/
theorem infer_eq_solving (c : Context) (env : Option Env) (e : Expr Label) (he : e ≠ .missing)
    (fresh : (env.getD ∅).IsFresh)
    (room : (env.getD ∅).next.toInt + e.demand ≤ 2 ^ 63 - 1) :
    match inferBySolving (env.getD ∅) { next := (env.getD ∅).next } e with
    | .ok (t, s) => ∃ c', c.infer env e = (c', .result t) ∧ c'.subst = s
    | .error (.failed f) => ∃ c', c.infer env e = (c', .error f.error) ∧ c'.subst = f.subst ∧
        c'.error = some f.error ∧ ∃ d, e.at? f.site = some d ∧ c'.invalid = d.shown?
    | .error (.faulted _) => False := by
  unfold Context.infer
  rcases c.run_cases he fresh room with ⟨r, c', -, hr, hs, hsol⟩ | ⟨f, c', hr, hs, he, hi, hsol⟩
  · rw [hsol, hr]
    exact ⟨c', rfl, hs⟩
  · rw [hsol, hr]
    exact ⟨c', rfl, hs, he, hi⟩

/-- One name `k`, with a type that is not known yet. -/
def openEnv : Env := ({ next := 1 } : Env).declare "k" (.var 0)

/-- A function of `x`: if `x k` then `k`, else 7. -/
def choice : Expr Label :=
  .fn 0 "x" (.cond 1 (.call 2 (.var 3 "x") (.var 4 "k")) (.var 5 "k") (.int 6 7))

theorem isFresh_openEnv : openEnv.IsFresh := by
  refine Env.forall_declare (fun x t h => ?_) ⟨trivial, fun v hv => ?_⟩
  · have hx : ({ next := 1 } : Env).find? x = none := Std.ExtTreeMap.getElem?_empty
    rw [hx] at h
    cases h
  · obtain rfl : v = 0 := by simpa [Ty.vars] using hv
    show (0 : VarId) < 1
    decide

/-- The substitution has an entry for the declared name, and it is also there if the last branch
uses a name that is not declared. -/
theorem infer_eq_solving_choice :
    (∃ c', ({} : Context).infer (some openEnv) choice =
        (c', .result (.arrow (.arrow .int .bool) .int)) ∧
      c'.subst = .ofList [(0, .int), (1, .arrow .int .bool), (2, .bool)]) ∧
    ∃ c', ({} : Context).infer (some openEnv) (.cond 0 (.var 1 "k") (.var 2 "k") (.var 3 "x")) =
        (c', .error (.undeclared "x")) ∧
      c'.subst = .singleton 0 .bool ∧ c'.error = some (.undeclared "x") ∧
      c'.invalid = some (.var 3 "x") := by
  have h := infer_eq_solving {} (some openEnv) choice nofun isFresh_openEnv (by decide)
  have h' :=
    infer_eq_solving {} (some openEnv) (.cond 0 (.var 1 "k") (.var 2 "k") (.var 3 "x")) nofun
    isFresh_openEnv (by decide)
  rw [show inferBySolving _ _ choice = .ok (.arrow (.arrow .int .bool) .int,
    .ofList [(0, .int), (1, .arrow .int .bool), (2, .bool)]) by cbv] at h
  rw [show inferBySolving _ _ _ =
    .error (.failed ⟨⟨.undeclared "x", [.no]⟩, .singleton 0 .bool⟩) by cbv] at h'
  obtain ⟨c', hout, hsubst, herror, d, hd, hinvalid⟩ := h'
  cases hd
  exact ⟨h, c', hout, hsubst, herror, hinvalid⟩

end Context

end Monotype
