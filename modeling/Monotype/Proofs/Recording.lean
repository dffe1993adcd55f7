import Monotype.Context
import Monotype.Proofs.Resolution

/-!
# What inference records

Recording does not change how inference ends: `inferRecording_follows` says that it ends as `infer`
does, whatever the table holds, as long as there is one. If there is a result, the types recorded
are those in its tree, in the order in which the nodes are left. `Context.exists_run_eq` draws the
consequence for contexts.

The statement is about computations that follow one another, so each step of inference has one
lemma: a step that records nothing, a part, and the node itself.
-/

namespace Monotype

/-! ## Recorders -/

namespace Recorder

variable {s : Recorder}

/-- Records types in order. -/
def recordAll (s : Recorder) (l : List (Label × Ty)) : Recorder :=
  { s with table := if s.active then s.table.map (·.insertMany l) else s.table }

/-- There is a table if types are recorded. -/
def Ready (s : Recorder) : Prop := s.active → s.table.isSome

theorem ready_prepare (s : Recorder) : s.prepare.Ready := by
  intro h
  have active : s.active = true := h
  unfold prepare
  rw [active]
  rfl

@[simp] theorem recordAll_nil (s : Recorder) : s.recordAll [] = s := by
  unfold recordAll
  cases s with
  | mk active table => cases active <;> cases table <;> simp

theorem recordAll_append (s : Recorder) (l k : List (Label × Ty)) :
    s.recordAll (l ++ k) = (s.recordAll l).recordAll k := by
  unfold recordAll
  cases s with
  | mk active table =>
    cases active <;> cases table <;> simp [Std.ExtTreeMap.insertMany_append]

theorem Ready.recordAll (ready : s.Ready) (l : List (Label × Ty)) : (s.recordAll l).Ready := by
  intro h
  have active : s.active = true := h
  unfold Recorder.recordAll
  rw [active, if_pos rfl, Option.isSome_map]
  exact ready active

theorem Ready.record_eq (ready : s.Ready) (l : Label) (t : Ty) :
    s.record l t = .ok (s.recordAll [(l, t)]) := by
  unfold record Recorder.recordAll
  split
  next active =>
    obtain ⟨m, hm⟩ := Option.isSome_iff_exists.1 (ready active)
    rw [hm, Option.map_some, Std.ExtTreeMap.insertMany_list_singleton]
  next => rfl

end Recorder

/-! ## Computations that record -/

namespace Recording

variable {β γ : Type} {s : Recorder} {x : Recording β} {y : Except Stop β}
  {p : β → List (Label × Ty) → Prop} {q : γ → List (Label × Ty) → Prop}

/-- With the recorder `s`, the computation ends as `y`. What it recorded is described by `p`, if
there is a result. -/
def Follows (s : Recorder) (x : Recording β) (y : Except Stop β)
    (p : β → List (Label × Ty) → Prop) : Prop :=
  ∃ l, x.exec s = (y, s.recordAll l) ∧ ∀ b, y = .ok b → p b l

theorem exec_bind (x : Recording β) (k : β → Recording γ) (s : Recorder) :
    (x >>= k).exec s = match x.exec s with
      | (.ok b, s') => (k b).exec s'
      | (.error e, s') => (.error e, s') := by
  show (ExceptT.bindCont k (x.exec s).1) (x.exec s).2 = _
  cases x.exec s with
  | mk out s' => cases out <;> rfl

theorem exec_adapt (x : Recording β) (f : Stop → Stop) (s : Recorder) :
    Recording.exec (x.adapt f) s = ((x.exec s).1.mapError f, (x.exec s).2) := rfl

theorem follows_throw (e : Stop) : Follows s (throw e) (.error e) p :=
  ⟨[], by rw [Recorder.recordAll_nil]; rfl, fun _ h => nomatch h⟩

/-- The node itself. -/
theorem follows_leave {p : Typed Label → List (Label × Ty) → Prop} (ready : s.Ready) {l : Label}
    {r : Typed Label} (hp : p r [(l, r.type)]) : Follows s (leave l r) (.ok r) p := by
  refine ⟨[(l, r.type)], ?_, fun b h => by cases h; exact hp⟩
  have read : Recording.exec get s = (.ok s, s) := rfl
  unfold leave
  rw [exec_bind, read]
  dsimp only
  rw [ready.record_eq]
  rfl

/-- A step that records nothing. -/
theorem Follows.step {k : β → Recording γ} {k' : β → Except Stop γ}
    (h : ∀ b, y = .ok b → Follows s (k b) (k' b) q) :
    Follows s ((y : Recording β) >>= k) (y >>= k') q := by
  match y with
  | .ok b => exact h b rfl
  | .error e => exact follows_throw e

/-- A part. -/
theorem Follows.part {f : Stop → Stop} {k : β → Recording γ} {k' : β → Except Stop γ}
    (hx : Follows s x y p)
    (h : ∀ b l, p b l → Follows (s.recordAll l) (k b) (k' b) fun c l' => q c (l ++ l')) :
    Follows s (x.adapt f >>= k) (y.mapError f >>= k') q := by
  obtain ⟨l, hl, hp⟩ := hx
  unfold Follows
  rw [exec_bind, exec_adapt, hl]
  match y with
  | .ok b =>
    obtain ⟨l', hl', hq⟩ := h b l (hp b rfl)
    exact ⟨l ++ l', by rw [Recorder.recordAll_append]; exact hl', hq⟩
  | .error e => exact ⟨l, rfl, fun _ h => nomatch h⟩

end Recording

/-! ## Inference -/

/-- The labels of the nodes in the order in which they are left: those of the parts come first. -/
def Expr.leaving {α : Type} : Expr α → List α
  | .missing => []
  | .int l _ | .bool l _ | .var l _ | .foreign l _ => [l]
  | .fn l _ e => e.leaving ++ [l]
  | .call l f a => f.leaving ++ (a.leaving ++ [l])
  | .cond l c y n => c.leaving ++ (y.leaving ++ (n.leaving ++ [l]))

open Recording

/-- **Recorded inference.** -/
theorem inferRecording_follows (env : Env) (n : Supply) (e : Expr Label) {s : Recorder}
    (ready : s.Ready) :
    Follows s (inferRecording env n e) (infer env n e) fun r l => l = r.tree.leaving := by
  induction e generalizing env n s with
  | missing | foreign => exact follows_throw _
  | int | bool => exact follows_leave ready rfl
  | var l x =>
    rw [inferRecording, Mode.infer, infer_var, Mode.var, Mode.var]
    refine .step fun o _ => ?_
    cases o with
    | none => exact follows_throw _
    | some t => exact follows_leave ready rfl
  | fn l x body ih =>
    rw [inferRecording, Mode.infer, infer_fn, Mode.fn, Mode.fn]
    refine (ih _ _ ready).part fun b lb hb => .step fun param _ => ?_
    subst hb
    exact follows_leave (ready.recordAll _) rfl
  | call l callee arg ihf iha =>
    rw [inferRecording, Mode.infer, infer_call, Mode.call, Mode.call]
    refine (ihf _ _ ready).part fun f lf hf => .step fun env' _ => ?_
    have ready := ready.recordAll lf
    refine (iha _ _ ready).part fun a la ha => ?_
    subst hf ha
    refine .step fun s _ => .step fun ft _ => .step fun u _ => .step fun t _ => .step fun s' _ => ?_
    exact follows_leave (ready.recordAll _) rfl
  | cond l test yes no ihc ihy ihn =>
    rw [inferRecording, Mode.infer, infer_cond, Mode.cond, Mode.cond]
    refine (ihc _ _ ready).part fun c lc hc =>
      .step fun u _ => .step fun s₁ _ => .step fun env₁ _ => ?_
    have ready := ready.recordAll lc
    refine (ihy _ _ ready).part fun y ly hy => .step fun s₂ _ => .step fun env₂ _ => ?_
    have ready := ready.recordAll ly
    refine (ihn _ _ ready).part fun z lz hz => ?_
    subst hc hy hz
    refine .step fun s₃ _ => .step fun yt _ => .step fun w _ => .step fun t _ => .step fun s _ => ?_
    exact follows_leave (ready.recordAll _) rfl

/-! ## Contexts -/

namespace Context

variable {c : Context} {env : Option Env} {e : Expr Label}

/-- The supply from which a context starts an inference. -/
def start (c : Context) (env : Option Env) : Supply :=
  c.reset.supply.startAt (env.getD ∅).next

/-- A context concludes from what inference finds, and the recorder has the types of the nodes that
were left. -/
theorem exists_run_eq (c : Context) (env : Option Env) (he : e ≠ .missing) :
    ∃ l, c.run env e =
        { c.reset with
          used := true, root := e, recorder := c.reset.recorder.prepare.recordAll l }.conclude e
          (Monotype.infer (env.getD ∅) (c.start env) e) ∧
      ∀ r, Monotype.infer (env.getD ∅) (c.start env) e = .ok r → l = r.tree.leaving := by
  obtain ⟨l, hl, hleft⟩ :=
    inferRecording_follows (env.getD ∅) (c.start env) e c.reset.recorder.ready_prepare
  refine ⟨l, ?_, hleft⟩
  unfold start at hl
  cases e with
  | missing => exact absurd rfl he
  | int | bool | var | fn | call | cond | foreign => simp only [run, hl]; rfl

/-- If types are recorded, the table has those of the tree that was found, over what was there
before. -/
theorem table_of_run {c' : Context} {r : Typed Label} (active : c.recorder.active = true)
    (h : c.run env e = (c', .result r)) :
    c'.recorder.table = some ((c.reset.recorder.table.getD ∅).insertMany r.tree.leaving) := by
  have he : e ≠ .missing := by
    rintro rfl
    cases h
  have active' : c.reset.recorder.active = true := by
    unfold reset
    split <;> exact active
  obtain ⟨l, hrun, hleft⟩ := c.exists_run_eq env he
  rw [h] at hrun
  cases ho : Monotype.infer (env.getD ∅) (c.start env) e with
  | ok o =>
    rw [ho, conclude] at hrun
    cases ht : o.subst.apply o.type with
    | ok t =>
      rw [ht] at hrun
      cases hrun
      obtain rfl := hleft o ho
      show (c.reset.recorder.prepare.recordAll o.tree.leaving).table = _
      unfold Recorder.recordAll Recorder.prepare
      rw [active']
      rfl
    | error f =>
      rw [ht] at hrun
      cases hrun
  | error stop =>
    rw [ho] at hrun
    cases stop <;> cases hrun

end Context

end Monotype
