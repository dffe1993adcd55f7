import Mathlib
import Monotype.Subst.Reach
import Monotype.Subst.Resolved
import Monotype.Typing

/-!
# Resolution of types

Two facts about application that all later arguments rest on.

1. Nothing faults without missing types. For a predicate `p` that passes to the parts of a type and
   excludes a missing one, application and composition answer if all bound types satisfy `p`, and
   their results satisfy it again (`exists_apply`, `exists_compose`, `Env.exists_apply`).
2. A resolved substitution replaces all variables at once: `apply_eq_once`. Composition then is
   composition of functions (`once_of_compose`), and it is associative (`compose_assoc`).

`IsSolved` collects what holds of every substitution that solving equations builds.
-/

namespace Monotype

/-! ## Predicates on the parts of a type -/

/-- The predicate passes between a function type and its parts, and excludes a missing type. -/
structure Ty.Hereditary (p : Ty → Prop) : Prop where
  arrow : ∀ {a r : Ty}, p (.arrow a r) ↔ p a ∧ p r
  missing : ¬ p .missing

theorem Ty.hereditary_isPlain : Ty.Hereditary Ty.IsPlain := ⟨Iff.rfl, id⟩

theorem Ty.hereditary_isComplete : Ty.Hereditary Ty.IsComplete := ⟨Iff.rfl, id⟩

theorem Ty.Hereditary.read_eq {p : Ty → Prop} (hp : Ty.Hereditary p) {t : Ty} (ht : p t) :
    t.read = .ok t :=
  Ty.read_eq_ok_iff.2 ⟨fun e => hp.missing (e ▸ ht), rfl⟩

theorem Ty.Hereditary.subst {p : Ty → Prop} (hp : Ty.Hereditary p) {θ : VarId → Ty} {t : Ty}
    (ht : p t) (hθ : ∀ v ∈ t.vars, p (θ v)) : p (t.subst θ) := by
  induction t with
  | var v => exact hθ v (by simp [vars])
  | arrow a r iha ihr =>
    obtain ⟨ha, hr⟩ := hp.arrow.1 ht
    exact hp.arrow.2 ⟨iha ha fun v hv => hθ v (List.mem_append_left _ hv),
      ihr hr fun v hv => hθ v (List.mem_append_right _ hv)⟩
  | missing | const | foreign => exact ht

namespace Subst

/-- All bound types satisfy a predicate. -/
def Forall (p : Ty → Prop) (s : Subst) : Prop := ∀ v t, s.find? v = some t → p t

variable {p : Ty → Prop} {s : Subst} {vs : List VarId}

theorem forall_empty (p : Ty → Prop) : (∅ : Subst).Forall p := by
  intro v t h
  simp at h

theorem forall_singleton {v : VarId} {t : Ty} (ht : p t) : (singleton v t).Forall p := by
  intro w u h
  rw [find?_singleton] at h
  split at h
  · cases h
    exact ht
  · cases h

/-- Resolution answers, whatever is being resolved. -/
theorem exists_resolve (hp : Ty.Hereditary p) (hs : s.Forall p) (busy : List VarId) (t : Ty) :
    ∃ u, s.resolve busy t = .ok u ∧ (p t → p u) := by
  fun_induction resolve s busy t with
  | case1 busy v hv => exact ⟨_, rfl, id⟩
  | case2 busy v hv hn => exact ⟨_, rfl, id⟩
  | case3 busy v hv t ht ih =>
    have hpt := hs v t ht
    obtain ⟨u, hu, hpu⟩ := ih t
    exact ⟨u, bind_eq_ok_iff.2 ⟨t, hp.read_eq hpt, hu⟩, fun _ => hpu hpt⟩
  | case4 busy a r iha ihr =>
    obtain ⟨a', ha, hpa⟩ := iha
    obtain ⟨r', hr, hpr⟩ := ihr
    refine ⟨.arrow a' r', bind_eq_ok_iff.2 ⟨a', ha, bind_eq_ok_iff.2 ⟨r', hr, rfl⟩⟩, fun h => ?_⟩
    exact hp.arrow.2 ⟨hpa (hp.arrow.1 h).1, hpr (hp.arrow.1 h).2⟩
  | case5 | case6 | case7 => exact ⟨_, rfl, id⟩

theorem exists_apply (hp : Ty.Hereditary p) (hs : s.Forall p) (t : Ty) :
    ∃ u, s.apply t = .ok u ∧ (p t → p u) :=
  exists_resolve hp hs [] t

theorem exists_applyRead (hp : Ty.Hereditary p) (hs : s.Forall p) {t : Ty} (ht : p t) :
    ∃ u, s.applyRead t = .ok u := by
  obtain ⟨u, hu, -⟩ := exists_apply hp hs t
  exact ⟨u, applyRead_eq_ok_iff.2 ⟨fun e => hp.missing (e ▸ ht), hu⟩⟩

theorem exists_compose (hp : Ty.Hereditary p) {older newer : Subst} (ho : older.Forall p)
    (hn : newer.Forall p) : ∃ s, older.compose newer = .ok s ∧ s.Forall p := by
  have answers : ∃ s, older.compose newer = .ok s := by
    unfold compose
    split
    · exact ⟨older, rfl⟩
    · obtain ⟨m, hm⟩ := exists_mapValuesM (f := newer.applyRead) (m := older.entries)
        fun v t ht => exists_applyRead hp hn (ho v t ht)
      exact ⟨⟨newer.entries ∪ m⟩, by rw [hm]; rfl⟩
  obtain ⟨s, hs⟩ := answers
  refine ⟨s, hs, fun v t ht => ?_⟩
  rcases find?_of_compose hs v with ⟨-, h⟩ | ⟨u, u', hu, hu', h⟩
  · exact hn v t (h ▸ ht)
  · obtain ⟨x, hx, hpx⟩ := exists_apply hp hn u
    rw [hu'] at hx
    cases hx
    rw [h] at ht
    cases ht
    exact hpx (ho v u hu)

/-! ## Resolved substitutions -/

/-- What a variable is replaced by. -/
def image (s : Subst) (v : VarId) : Ty := (s.find? v).getD (.var v)

theorem once_eq_subst (s : Subst) (t : Ty) : s.once t = t.subst s.image := rfl

theorem image_of_find? {v : VarId} {t : Ty} (h : s.find? v = some t) : s.image v = t := by
  unfold image; rw [h]; rfl

theorem image_of_unbound {v : VarId} (h : s.find? v = none) : s.image v = .var v := by
  unfold image; rw [h]; rfl

theorem once_eq_self {t : Ty} (h : ∀ v ∈ t.vars, s.find? v = none) : s.once t = t := by
  rw [once_eq_subst, Ty.subst_congr fun v hv => image_of_unbound (h v hv), Ty.subst_var]

@[simp] theorem once_empty (t : Ty) : (∅ : Subst).once t = t :=
  once_eq_self fun v _ => find?_empty v

/-- What a substitution that solves equations between plain types is like: resolved within the
variables of the equations, with plain types only. -/
structure IsSolved (s : Subst) (vs : List VarId) : Prop where
  within : s.ResolvedWithin vs
  plain : s.Forall Ty.IsPlain

theorem resolve_eq_self (busy : List VarId) {t : Ty} (h : ∀ v ∈ t.vars, s.find? v = none) :
    s.resolve busy t = .ok t := by
  induction t with
  | var v => exact resolve_var_unbound (h v (by simp [Ty.vars]))
  | arrow a r iha ihr =>
    exact resolve_arrow_eq_ok_iff.2 ⟨a, r, iha fun v hv => h v (List.mem_append_left _ hv),
      ihr fun v hv => h v (List.mem_append_right _ hv), rfl⟩
  | missing | const | foreign => rw [resolve]

namespace IsSolved

theorem empty (vs : List VarId) : (∅ : Subst).IsSolved vs := ⟨.empty vs, forall_empty _⟩

theorem mono {ws : List VarId} (hs : s.IsSolved vs) (sub : ∀ v ∈ vs, v ∈ ws) : s.IsSolved ws :=
  ⟨fun v t h => ⟨sub v (hs.within v t h).1, fun w hw =>
    ⟨sub w ((hs.within v t h).2 w hw).1, ((hs.within v t h).2 w hw).2⟩⟩, hs.plain⟩

/-- **Application at once.** A resolved substitution replaces every bound variable by its binding,
and there is nothing left to resolve in it. -/
theorem apply_eq_once (hs : s.IsSolved vs) (t : Ty) : s.apply t = .ok (s.once t) := by
  show s.resolve [] t = .ok (s.once t)
  induction t with
  | var v =>
    cases hv : s.find? v with
    | none => rw [resolve_var_unbound hv, once_eq_subst, Ty.subst, image_of_unbound hv]
    | some t =>
      have hr := Ty.hereditary_isPlain.read_eq (hs.plain v t hv)
      have hu := resolve_eq_self [v] fun w hw => ((hs.within v t hv).2 w hw).2
      rw [resolve_var_bound List.not_mem_nil hv, once_eq_subst, Ty.subst, image_of_find? hv]
      exact bind_eq_ok_iff.2 ⟨t, hr, hu⟩
  | arrow a r iha ihr => exact resolve_arrow_eq_ok_iff.2 ⟨_, _, iha, ihr, rfl⟩
  | missing | const | foreign => rw [resolve]; rfl

theorem once_of_apply (hs : s.IsSolved vs) {t u : Ty} (h : s.apply t = .ok u) : u = s.once t := by
  rw [hs.apply_eq_once] at h
  exact (Except.ok.inj h).symm

theorem isPlain_once (hs : s.IsSolved vs) {t : Ty} (ht : t.IsPlain) : (s.once t).IsPlain := by
  refine Ty.hereditary_isPlain.subst ht fun v _ => ?_
  show ((s.find? v).getD (.var v)).IsPlain
  cases hv : s.find? v with
  | none => trivial
  | some u => exact hs.plain v u hv

/-- A variable that is left is unbound; it was there before, or the substitution mentions it. -/
theorem mem_vars_once (hs : s.IsSolved vs) {t : Ty} {w : VarId} (hw : w ∈ (s.once t).vars) :
    s.find? w = none ∧ (w ∈ t.vars ∨ w ∈ vs) :=
  mem_vars_of_apply hs.within (hs.apply_eq_once t) hw

theorem once_once (hs : s.IsSolved vs) (t : Ty) : s.once (s.once t) = s.once t :=
  once_eq_self fun _ hw => (hs.mem_vars_once hw).1

/-! ### Composition -/

/-- The entries of a composition with a resolved substitution. -/
theorem find?_compose {older newer : Subst} (hn : newer.IsSolved vs)
    (h : older.compose newer = .ok s) (v : VarId) :
    s.find? v = ((older.find? v).map newer.once).or (newer.find? v) := by
  rcases find?_of_compose h v with ⟨ho, hs⟩ | ⟨t, u, ho, hu, hs⟩
  · rw [hs, ho]; rfl
  · rw [hs, ho, hn.once_of_apply hu]; rfl

/-- **Composition law.** The composition replaces as the older substitution does, and then as the
newer one. -/
theorem once_of_compose {older newer : Subst} (hn : newer.IsSolved vs)
    (h : older.compose newer = .ok s) (t : Ty) : s.once t = newer.once (older.once t) := by
  rw [once_eq_subst, once_eq_subst, once_eq_subst, Ty.subst_subst]
  refine Ty.subst_congr fun v _ => ?_
  unfold image
  rw [find?_compose hn h]
  cases older.find? v with
  | none => rfl
  | some u => rfl

/-- Composition with a resolved substitution over variables that are not bound yet answers, and the
result is resolved again. -/
theorem exists_compose {older newer : Subst} {ws : List VarId} (ho : older.IsSolved vs)
    (hn : newer.IsSolved ws) (sub : ∀ w ∈ ws, w ∈ vs) (free : ∀ w ∈ ws, older.find? w = none) :
    ∃ s, older.compose newer = .ok s ∧ s.IsSolved vs := by
  obtain ⟨s, hs, hp⟩ := Subst.exists_compose Ty.hereditary_isPlain ho.plain hn.plain
  exact ⟨s, hs, ho.within.compose hn.within sub free hs, hp⟩

theorem of_compose {older newer : Subst} {ws : List VarId} (ho : older.IsSolved vs)
    (hn : newer.IsSolved ws) (sub : ∀ w ∈ ws, w ∈ vs) (free : ∀ w ∈ ws, older.find? w = none)
    (h : older.compose newer = .ok s) : s.IsSolved vs := by
  obtain ⟨x, hx, hs⟩ := ho.exists_compose hn sub free
  rw [h] at hx
  cases hx
  exact hs

end IsSolved

/-- **Associativity.** Both ways to compose three substitutions have the same entries, if the last
two and their composition are resolved. -/
theorem compose_assoc {s₁ s₂ s₃ s₁₂ s₂₃ l r : Subst} {vs₂ vs₃ vs₂₃ : List VarId}
    (h₂ : s₂.IsSolved vs₂) (h₃ : s₃.IsSolved vs₃) (h₂₃ : s₂₃.IsSolved vs₂₃)
    (e₁₂ : s₁.compose s₂ = .ok s₁₂) (el : s₁₂.compose s₃ = .ok l)
    (e₂₃ : s₂.compose s₃ = .ok s₂₃) (er : s₁.compose s₂₃ = .ok r) : l = r := by
  refine Subst.ext fun v => ?_
  rw [h₃.find?_compose el, h₂.find?_compose e₁₂, h₂₃.find?_compose er, h₃.find?_compose e₂₃]
  cases s₁.find? v with
  | none => rfl
  | some t => exact congrArg some (h₃.once_of_compose e₂₃ t).symm

end Subst

/-! ## Environments -/

theorem Env.ext_find? {env env' : Env} (next : env.next = env'.next)
    (find : ∀ x, env.find? x = env'.find? x) : env = env' := by
  cases env
  cases env'
  cases next
  exact congrArg (Env.mk _) (Std.ExtTreeMap.ext_getElem? fun {x} => find x)

theorem Env.exists_apply {p : Ty → Prop} (hp : Ty.Hereditary p) {env : Env} {s : Subst}
    (he : env.Forall p) (hs : s.Forall p) : ∃ env', env.apply s = .ok env' ∧ env'.Forall p := by
  have answers : ∃ env', env.apply s = .ok env' := by
    rw [Env.apply_eq_mapValuesM]
    split
    · exact ⟨env, rfl⟩
    · obtain ⟨m, hm⟩ := exists_mapValuesM (f := s.applyRead) (m := env.vars)
        fun x t ht => Subst.exists_applyRead hp hs (he x t ht)
      exact ⟨{ env with vars := m }, by rw [hm]; rfl⟩
  obtain ⟨env', h⟩ := answers
  refine ⟨env', h, fun x u hu => ?_⟩
  rcases (Env.find?_of_apply h).2 x with ⟨-, hx⟩ | ⟨t, t', ht, ht', hx⟩
  · rw [hx] at hu
    cases hu
  · obtain ⟨w, hw, hpw⟩ := Subst.exists_apply hp hs t
    rw [ht'] at hw
    cases hw
    rw [hx] at hu
    cases hu
    exact hpw (he x t ht)

/-- Entries that correspond still do after both environments were rewritten, if the types
correspond. -/
theorem Env.find?_apply_map {env env' env₁ env₁' : Env} {s s' : Subst} {x y : String} {f : Ty → Ty}
    (h : env.apply s = .ok env₁) (h' : env'.apply s' = .ok env₁')
    (same : env'.find? y = (env.find? x).map f)
    (rewrite : ∀ t u, s.apply t = .ok u → s'.apply (f t) = .ok (f u)) :
    env₁'.find? y = (env₁.find? x).map f := by
  have hy := (Env.find?_of_apply h').2 y
  rw [same] at hy
  rcases (Env.find?_of_apply h).2 x with ⟨hx, hx₁⟩ | ⟨t, u, hx, hu, hx₁⟩
  · rw [hx] at hy
    rcases hy with ⟨-, hy₁⟩ | ⟨t', u', ht', -, -⟩
    · rw [hx₁, hy₁]
      rfl
    · cases ht'
  · rw [hx] at hy
    rcases hy with ⟨hnone, -⟩ | ⟨t', u', ht', hu', hy₁⟩
    · cases hnone
    · cases ht'
      rw [rewrite t u hu] at hu'
      cases hu'
      rw [hx₁, hy₁]
      rfl

theorem Env.lookup_eq {p : Ty → Prop} (hp : Ty.Hereditary p) {env : Env} (he : env.Forall p)
    (x : String) : env.lookup x = .ok (env.find? x) := by
  unfold Env.lookup
  cases hx : env.find? x with
  | none => rfl
  | some t => simp only [hp.read_eq (he x t hx), Except.map]

/-- If application instantiates the declared types, it instantiates the environment. -/
theorem Env.apply_eq_subst {env : Env} {s : Subst} {θ : VarId → Ty}
    (h : ∀ x t, env.find? x = some t → s.applyRead t = .ok (t.subst θ)) :
    env.apply s = .ok (env.subst θ) := by
  have rewritten : mapValuesM s.applyRead env.vars = .ok (env.subst θ).vars := mapValuesM_eq_map h
  rw [Env.apply_eq_mapValuesM]
  split
  next empty =>
    obtain rfl := Subst.isEmpty_iff.1 empty
    refine congrArg Except.ok (Env.ext_find? rfl fun x => ?_)
    rw [Env.find?_subst]
    cases hx : env.find? x with
    | none => rfl
    | some t =>
      obtain ⟨-, ht⟩ := Subst.applyRead_eq_ok_iff.1 (h x t hx)
      rw [Subst.apply_empty] at ht
      exact congrArg some (Except.ok.inj ht)
  next =>
    rw [rewritten]
    rfl

/-- Application of a resolved substitution to an environment is instantiation. -/
theorem Subst.IsSolved.apply_env {s : Subst} {vs : List VarId} (hs : s.IsSolved vs) {env : Env}
    (he : env.Forall Ty.IsPlain) : env.apply s = .ok (env.subst s.image) :=
  Env.apply_eq_subst fun x t ht => Subst.applyRead_eq_ok_iff.2
    ⟨fun e => Ty.hereditary_isPlain.missing (e ▸ he x t ht), hs.apply_eq_once t⟩

/-! ## Solutions -/

namespace Subst

/-- The instances `θ` agree with every entry: a bound variable and its binding become the same. -/
def Solves (θ : VarId → Ty) (s : Subst) : Prop := ∀ v t, s.find? v = some t → θ v = t.subst θ

variable {θ : VarId → Ty} {s : Subst}

theorem solves_empty (θ : VarId → Ty) : (∅ : Subst).Solves θ := by
  intro v t h
  simp at h

/-- A solution does not see whether a substitution was applied before it. -/
theorem Solves.subst_resolve (hs : s.Solves θ) {busy : List VarId} {t u : Ty}
    (h : s.resolve busy t = .ok u) : u.subst θ = t.subst θ := by
  fun_induction resolve s busy t generalizing u with
  | case1 | case2 | case5 | case6 | case7 => cases h; rfl
  | case3 busy v _ t ht ih =>
    obtain ⟨t', hr, hu⟩ := bind_eq_ok_iff.1 h
    obtain ⟨-, rfl⟩ := Ty.read_eq_ok_iff.1 hr
    rw [ih _ hu]
    exact (hs v t' ht).symm
  | case4 busy a r iha ihr =>
    obtain ⟨a', ha, h⟩ := bind_eq_ok_iff.1 h
    obtain ⟨r', hr, h⟩ := bind_eq_ok_iff.1 h
    cases h
    rw [Ty.subst, Ty.subst, iha ha, ihr hr]

theorem Solves.subst_apply (hs : s.Solves θ) {t u : Ty} (h : s.apply t = .ok u) :
    u.subst θ = t.subst θ :=
  hs.subst_resolve h

theorem Solves.compose {older newer : Subst} (ho : older.Solves θ) (hn : newer.Solves θ)
    (h : older.compose newer = .ok s) : s.Solves θ := by
  intro v t ht
  rcases find?_of_compose h v with ⟨-, hs⟩ | ⟨u, u', hu, hu', hs⟩
  · exact hn v t (hs ▸ ht)
  · rw [hs] at ht
    cases ht
    rw [hn.subst_apply hu']
    exact ho v u hu

/-- A solution of a composition solves both parts, if the newer one binds other variables. -/
theorem Solves.of_compose {older newer : Subst} (hs : s.Solves θ)
    (h : older.compose newer = .ok s)
    (disjoint : ∀ v t, newer.find? v = some t → older.find? v = none) :
    older.Solves θ ∧ newer.Solves θ := by
  have hn : newer.Solves θ := by
    intro v t ht
    rcases find?_of_compose h v with ⟨-, e⟩ | ⟨u, u', hu, -, -⟩
    · exact hs v t (e.trans ht)
    · rw [disjoint v t ht] at hu
      cases hu
  refine ⟨fun v t ht => ?_, hn⟩
  rcases find?_of_compose h v with ⟨e, -⟩ | ⟨u, u', hu, hu', e⟩
  · rw [ht] at e
    cases e
  · rw [ht] at hu
    cases hu
    rw [hs v u' e, hn.subst_apply hu']

/-- In a resolved substitution, a binding reaches only its own variables. -/
theorem ResolvedWithin.mem_vars_of_reaches {vs : List VarId} (hs : s.ResolvedWithin vs)
    {v w : VarId} {t : Ty} (ht : s.find? v = some t) (h : s.Reaches t w) : w ∈ t.vars := by
  induction h with
  | here hw => exact hw
  | next _ hu _ ih =>
    rw [((hs v t ht).2 _ ih).2] at hu
    cases hu

theorem ResolvedWithin.acyclic {vs : List VarId} (hs : s.ResolvedWithin vs) : s.Acyclic := by
  intro v t ht h
  have hv := ((hs v t ht).2 v (hs.mem_vars_of_reaches ht h)).2
  rw [ht] at hv
  cases hv

/-- A resolved substitution solves itself. -/
theorem IsSolved.solves_image {vs : List VarId} (hs : s.IsSolved vs) : s.Solves s.image := by
  intro v t ht
  rw [image_of_find? ht]
  exact (once_eq_self fun w hw => ((hs.within v t ht).2 w hw).2).symm

end Subst

theorem Env.subst_congr {env : Env} {θ η : VarId → Ty}
    (h : ∀ x t, env.find? x = some t → t.subst θ = t.subst η) : env.subst θ = env.subst η := by
  refine Env.ext_find? rfl fun x => ?_
  rw [Env.find?_subst, Env.find?_subst]
  cases hx : env.find? x with
  | none => rfl
  | some t => exact congrArg some (h x t hx)

theorem Env.subst_subst (θ η : VarId → Ty) (env : Env) :
    (env.subst θ).subst η = env.subst fun v => (θ v).subst η := by
  refine Env.ext_find? rfl fun x => ?_
  rw [Env.find?_subst, Env.find?_subst, Env.find?_subst, Option.map_map]
  exact congrArg (Option.map · _) (funext fun t => Ty.subst_subst θ η t)

theorem Env.subst_declare (θ : VarId → Ty) (env : Env) (x : String) (t : Ty) :
    (env.declare x t).subst θ = (env.subst θ).declare x (t.subst θ) := by
  refine Env.ext_find? rfl fun y => ?_
  rw [Env.find?_subst, Env.find?_declare, Env.find?_declare, Env.find?_subst]
  split <;> rfl

end Monotype
