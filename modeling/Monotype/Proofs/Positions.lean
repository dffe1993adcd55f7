import Monotype.Proofs.Annotation
import Monotype.Proofs.Scope

/-!
# Calls at positions

Inference makes a call for every part of an expression, so there is a call for every position that
it comes to. `Call.at?` computes it from the call for the whole, and `exists_call_at` says that each
position of an expression that has a type has its call: the call has a result, and the result stands
in the tree of the whole at this position. So a fact about all calls is a fact about all types in
the tree.
-/

namespace Monotype

variable {α β : Type}

/-! ## Positions of nodes -/

namespace Expr

/-- The positions of the nodes in pre-order. -/
def positions : Expr α → List Path
  | .missing => []
  | .int _ _ | .bool _ _ | .var _ _ | .foreign _ _ => [[]]
  | .fn _ _ e => [] :: e.positions.map (.body :: ·)
  | .call _ f a => [] :: (f.positions.map (.callee :: ·) ++ a.positions.map (.arg :: ·))
  | .cond _ c y n =>
    [] :: (c.positions.map (.test :: ·) ++ y.positions.map (.yes :: ·) ++
      n.positions.map (.no :: ·))

/-- The label of the node at a position. -/
def labelAt? (e : Expr α) (p : Path) : Option α := (e.at? p).bind label?

theorem map_at?_positions (e : Expr α) : (e.positions.map fun p => e.at? p) = e.nodes.map some := by
  induction e with
  | missing | int | bool | var | foreign => rfl
  | fn l x e ih =>
    rw [positions, nodes, List.map_cons, List.map_cons, List.map_map, ← ih]
    rfl
  | call l f a ihf iha =>
    rw [positions, nodes, List.map_cons, List.map_cons, List.map_append, List.map_append,
      List.map_map, List.map_map, ← ihf, ← iha]
    rfl
  | cond l c y n ihc ihy ihn =>
    rw [positions, nodes, List.map_cons, List.map_cons, List.map_append, List.map_append,
      List.map_append, List.map_append, List.map_map, List.map_map, List.map_map,
      ← ihc, ← ihy, ← ihn]
    rfl

/-- Every node stands at a position. -/
theorem exists_at?_of_mem_nodes {e node : Expr α} (h : node ∈ e.nodes) :
    ∃ p, e.at? p = some node := by
  have mem : some node ∈ e.positions.map fun p => e.at? p := by
    rw [map_at?_positions]
    exact List.mem_map_of_mem h
  obtain ⟨p, -, hp⟩ := List.mem_map.1 mem
  exact ⟨p, hp⟩

theorem filterMap_labelAt? (e : Expr α) : e.positions.filterMap e.labelAt? = e.labels := by
  have h := congrArg (List.filterMap fun d : Option (Expr α) => d.bind label?) e.map_at?_positions
  rw [List.filterMap_map, List.filterMap_map] at h
  exact h

theorem positions_map (f : α → β) (e : Expr α) : (e.map f).positions = e.positions := by
  induction e with
  | missing | int | bool | var | foreign => rfl
  | fn l x e ih => rw [map, positions, positions, ih]
  | call l g a ihf iha => rw [map, positions, positions, ihf, iha]
  | cond l c y n ihc ihy ihn => rw [map, positions, positions, ihc, ihy, ihn]

theorem child?_map (f : α → β) (step : Step) (e : Expr α) :
    (e.map f).child? step = (e.child? step).map (map f) := by
  cases e <;> cases step <;> rfl

theorem at?_map (f : α → β) (p : Path) (e : Expr α) : (e.map f).at? p = (e.at? p).map (map f) := by
  induction p generalizing e with
  | nil => rfl
  | cons step p ih =>
    rw [at?, at?, child?_map]
    cases e.child? step with
    | none => rfl
    | some d => exact ih d

theorem labelAt?_map (f : α → β) (e : Expr α) (p : Path) :
    (e.map f).labelAt? p = (e.labelAt? p).map f := by
  unfold labelAt?
  rw [at?_map]
  cases e.at? p with
  | none => rfl
  | some d => cases d <;> rfl

end Expr

/-! ## The call at a position -/

theorem toOption_eq_some_iff {ε : Type} {x : Except ε β} {b : β} :
    x.toOption = some b ↔ x = .ok b := by
  cases x <;> simp [Except.toOption]

namespace Call

/-- The call that is made for a part, if inference comes to the part. -/
def part? (c : Call α) (step : Step) : Option (Call α) :=
  match c.expr, step with
  | .fn _ x body, .body => some ⟨c.env.declare x (.var c.supply.next), c.supply.fresh.2, body⟩
  | .call _ callee _, .callee => some ⟨c.env, c.supply, callee⟩
  | .call _ callee arg, .arg => do
    let f ← (infer c.env c.supply callee).toOption
    let env ← (c.env.apply f.subst).toOption
    return ⟨env, f.supply, arg⟩
  | .cond _ test _ _, .test => some ⟨c.env, c.supply, test⟩
  | .cond _ test yes _, .yes => do
    let r ← (infer c.env c.supply test).toOption
    let u ← (unify r.type .bool).toOption
    let s₁ ← (r.subst.compose u).toOption
    let env₁ ← (c.env.apply s₁).toOption
    return ⟨env₁, r.supply, yes⟩
  | .cond _ test yes no, .no => do
    let r ← (infer c.env c.supply test).toOption
    let u ← (unify r.type .bool).toOption
    let s₁ ← (r.subst.compose u).toOption
    let env₁ ← (c.env.apply s₁).toOption
    let y ← (infer env₁ r.supply yes).toOption
    let s₂ ← (s₁.compose y.subst).toOption
    let env₂ ← (c.env.apply s₂).toOption
    return ⟨env₂, y.supply, no⟩
  | _, _ => none

/-- The call that is made for the part at a position. -/
def at? : Path → Call α → Option (Call α)
  | [], c => some c
  | step :: p, c => (c.part? step).bind (at? p)

theorem part?_makes {c d : Call α} {step : Step} (h : c.part? step = some d) : c.Makes d := by
  obtain ⟨env, n, e⟩ := c
  cases e with
  | missing | int | bool | var | foreign => cases step <;> cases h
  | fn l x body =>
    cases step with
    | body => cases h; exact .body
    | callee | arg | test | yes | no => cases h
  | call l callee arg =>
    cases step with
    | callee => cases h; exact .callee
    | arg =>
      simp only [part?, Option.bind_eq_bind, Option.bind_eq_some_iff, toOption_eq_some_iff] at h
      obtain ⟨f, hf, env', henv, h⟩ := h
      cases h
      exact .arg hf henv
    | body | test | yes | no => cases h
  | cond l test yes no =>
    cases step with
    | test => cases h; exact .test
    | yes =>
      simp only [part?, Option.bind_eq_bind, Option.bind_eq_some_iff, toOption_eq_some_iff] at h
      obtain ⟨r, hr, u, hu, s₁, hs₁, env₁, henv₁, h⟩ := h
      cases h
      exact .yes hr hu hs₁ henv₁
    | no =>
      simp only [part?, Option.bind_eq_bind, Option.bind_eq_some_iff, toOption_eq_some_iff] at h
      obtain ⟨r, hr, u, hu, s₁, hs₁, env₁, henv₁, y, hy, s₂, hs₂, env₂, henv₂, h⟩ := h
      cases h
      exact .no hr hu hs₁ henv₁ hy hs₂ henv₂
    | body | callee | arg => cases h

section Parts

variable {env env' env₁ env₂ : Env} {n : Supply} {l : α}

theorem part?_arg {callee arg : Expr α} {f : Typed α} (hf : infer env n callee = .ok f)
    (henv : env.apply f.subst = .ok env') :
    (Call.mk env n (.call l callee arg)).part? .arg = some ⟨env', f.supply, arg⟩ := by
  simp only [part?, Option.bind_eq_bind, Option.bind_eq_some_iff, toOption_eq_some_iff]
  exact ⟨f, hf, env', henv, rfl⟩

theorem part?_yes {test yes no : Expr α} {r : Typed α} {u s₁ : Subst}
    (hr : infer env n test = .ok r) (hu : unify r.type .bool = .ok u)
    (hs₁ : r.subst.compose u = .ok s₁) (henv₁ : env.apply s₁ = .ok env₁) :
    (Call.mk env n (.cond l test yes no)).part? .yes = some ⟨env₁, r.supply, yes⟩ := by
  simp only [part?, Option.bind_eq_bind, Option.bind_eq_some_iff, toOption_eq_some_iff]
  exact ⟨r, hr, u, hu, s₁, hs₁, env₁, henv₁, rfl⟩

theorem part?_no {test yes no : Expr α} {r y : Typed α} {u s₁ s₂ : Subst}
    (hr : infer env n test = .ok r) (hu : unify r.type .bool = .ok u)
    (hs₁ : r.subst.compose u = .ok s₁) (henv₁ : env.apply s₁ = .ok env₁)
    (hy : infer env₁ r.supply yes = .ok y) (hs₂ : s₁.compose y.subst = .ok s₂)
    (henv₂ : env.apply s₂ = .ok env₂) :
    (Call.mk env n (.cond l test yes no)).part? .no = some ⟨env₂, y.supply, no⟩ := by
  simp only [part?, Option.bind_eq_bind, Option.bind_eq_some_iff, toOption_eq_some_iff]
  exact ⟨r, hr, u, hu, s₁, hs₁, env₁, henv₁, y, hy, s₂, hs₂, env₂, henv₂, rfl⟩

end Parts

end Call

section Run

variable {env : Env} {n : Supply} {l : α} {test yes no : Expr α}

theorem CondRun.part?_yes (run : CondRun env n test yes no) :
    (Call.mk env n (.cond l test yes no)).part? .yes = some ⟨run.env₁, run.c.supply, yes⟩ :=
  Call.part?_yes run.c_eq run.u_eq run.s₁_eq run.env₁_eq

theorem CondRun.part?_no (run : CondRun env n test yes no) :
    (Call.mk env n (.cond l test yes no)).part? .no = some ⟨run.env₂, run.y.supply, no⟩ :=
  Call.part?_no run.c_eq run.u_eq run.s₁_eq run.env₁_eq run.y_eq run.s₂_eq run.env₂_eq

end Run

namespace Call

/-- The calls at positions are among those that inference makes. -/
theorem reaches_of_at? {c d : Call α} {p : Path} (h : c.at? p = some d) :
    Relation.ReflTransGen Makes c d := by
  induction p generalizing c with
  | nil => cases h; exact .refl
  | cons step p ih =>
    obtain ⟨c', hc', hd⟩ := Option.bind_eq_some_iff.1 h
    exact .head (part?_makes hc') (ih hd)

end Call

/-- A part of an expression that has a type was inferred, with a result that stands in the tree. -/
theorem exists_part {env : Env} {n : Supply} {e part : Expr α} {r : Typed α} {step : Step}
    (h : infer env n e = .ok r) (hpart : e.child? step = some part) :
    ∃ (c : Call α) (r' : Typed α), (Call.mk env n e).part? step = some c ∧ c.expr = part ∧
      c.outcome = .ok r' ∧ r.tree.child? step = some r'.tree := by
  cases e with
  | missing | int | bool | var | foreign => cases step <;> cases hpart
  | fn l x body =>
    obtain ⟨run, rfl⟩ := infer_fn_ok h
    cases step with
    | body =>
      cases hpart
      exact ⟨_, run.b, rfl, rfl, run.b_eq, rfl⟩
    | callee | arg | test | yes | no => cases hpart
  | call l callee arg =>
    obtain ⟨run, rfl⟩ := infer_call_ok h
    cases step with
    | callee =>
      cases hpart
      exact ⟨_, run.f, rfl, rfl, run.f_eq, rfl⟩
    | arg =>
      cases hpart
      exact ⟨_, run.a, Call.part?_arg run.f_eq run.env₁_eq, rfl, run.a_eq, rfl⟩
    | body | test | yes | no => cases hpart
  | cond l test yes no =>
    obtain ⟨run, rfl⟩ := infer_cond_ok h
    cases step with
    | test =>
      cases hpart
      exact ⟨_, run.c, rfl, rfl, run.c_eq, rfl⟩
    | yes =>
      cases hpart
      exact ⟨_, run.y, run.part?_yes, rfl, run.y_eq, rfl⟩
    | no =>
      cases hpart
      exact ⟨_, run.z, run.part?_no, rfl, run.z_eq, rfl⟩
    | body | callee | arg => cases hpart

theorem exists_call_at {env : Env} {n : Supply} {e d : Expr α} {r : Typed α} {p : Path}
    (h : infer env n e = .ok r) (hd : e.at? p = some d) :
    ∃ (c : Call α) (r' : Typed α), (Call.mk env n e).at? p = some c ∧ c.expr = d ∧
      c.outcome = .ok r' ∧ r.tree.at? p = some r'.tree := by
  induction p generalizing env n e r with
  | nil =>
    cases hd
    exact ⟨_, r, rfl, rfl, h, rfl⟩
  | cons step p ih =>
    obtain ⟨part, hpart, hd⟩ := Option.bind_eq_some_iff.1 hd
    obtain ⟨⟨env', n', e'⟩, r', hc, rfl, hr', htree⟩ := exists_part h hpart
    obtain ⟨c, r'', hat, hexpr, hout, htree'⟩ := ih hr' hd
    exact ⟨c, r'', Option.bind_eq_some_iff.2 ⟨_, hc, hat⟩, hexpr, hout,
      Option.bind_eq_some_iff.2 ⟨_, htree, htree'⟩⟩

/-- The root of the tree has the type found. -/
theorem label?_tree {env : Env} {n : Supply} {e : Expr α} {r : Typed α}
    (h : infer env n e = .ok r) : r.tree.label? = e.label?.map (·, r.type) := by
  cases e with
  | missing | foreign => cases h
  | int | bool => cases h; rfl
  | var l x =>
    obtain ⟨t, -, rfl⟩ := infer_var_ok h
    rfl
  | fn l x body =>
    obtain ⟨run, rfl⟩ := infer_fn_ok h
    rfl
  | call l callee arg =>
    obtain ⟨run, rfl⟩ := infer_call_ok h
    rfl
  | cond l test yes no =>
    obtain ⟨run, rfl⟩ := infer_cond_ok h
    rfl

/-- A traversal of an expression that has a type reaches all nodes. -/
theorem walk_of_infer {env : Env} {n : Supply} {e : Expr α} {r : Typed α}
    (h : infer env n e = .ok r) : e.walk = .ok e.nodes := by
  unfold Expr.walk
  rw [List.findSome?_eq_none_iff.2 fun node hnode => ?_]
  obtain ⟨p, hp⟩ := Expr.exists_at?_of_mem_nodes hnode
  obtain ⟨⟨env', n', e'⟩, r', -, rfl, hr', -⟩ := exists_call_at h hp
  cases e' with
  | foreign => cases hr'
  | missing | int | bool | var | fn | call | cond => rfl

/-- Every type in the tree was found by the call at its position. -/
theorem exists_call_of_labelAt? {env : Env} {n : Supply} {e : Expr α} {r : Typed α} {p : Path}
    {l : α} {t : Ty} (h : infer env n e = .ok r) (hp : r.tree.labelAt? p = some (l, t)) :
    ∃ (c : Call α) (r' : Typed α), (Call.mk env n e).at? p = some c ∧ e.at? p = some c.expr ∧
      c.outcome = .ok r' ∧ r'.type = t := by
  obtain ⟨d, hd, hlabel⟩ := Option.bind_eq_some_iff.1 hp
  have he : e.at? p = some (d.map Prod.fst) := by
    rw [← map_fst_tree h, Expr.at?_map, hd]
    rfl
  obtain ⟨c, r', hc, hexpr, hr', htree⟩ := exists_call_at h he
  rw [hd] at htree
  cases htree
  rw [label?_tree hr'] at hlabel
  obtain ⟨k, -, hk⟩ := Option.map_eq_some_iff.1 hlabel
  exact ⟨c, r', hc, hexpr ▸ he, hr', (Prod.mk.inj hk).2⟩

end Monotype
