import Monotype.Proofs.Totality
import Monotype.Ty.Print

/-!
# Renaming type variables

Ids order the entries of a substitution and decide in which order they are rewritten, and printed
types take their letters from them. None of this shows in a result: application, composition,
unification and printing commute with every injective renaming `ρ` of the variables
(`exists_apply_rename`, `exists_compose_rename`, `unify_rename`, `Ty.printAll_rename`).

There are finitely many ids, so an injective renaming reaches all of them. Two substitutions are
therefore equal if they agree on the variables `ρ v` (`Subst.ext_rename`).
-/

namespace Monotype

open Function

variable {ρ : VarId → VarId}

/-! ## Types -/

namespace Ty

theorem rename_id (t : Ty) : t.rename id = t := t.subst_var

theorem rename_eq_id : rename id = id := funext rename_id

theorem rename_var (ρ : VarId → VarId) (v : VarId) : (Ty.var v).rename ρ = .var (ρ v) := rfl

theorem rename_arrow (ρ : VarId → VarId) (a r : Ty) :
    (Ty.arrow a r).rename ρ = .arrow (a.rename ρ) (r.rename ρ) := rfl

theorem vars_rename (ρ : VarId → VarId) (t : Ty) : (t.rename ρ).vars = t.vars.map ρ := by
  induction t with
  | arrow a r iha ihr => rw [rename_arrow, vars, vars, iha, ihr, List.map_append]
  | missing | const | var | foreign => rfl

theorem IsComplete.rename {t : Ty} (h : t.IsComplete) (ρ : VarId → VarId) :
    (t.rename ρ).IsComplete :=
  hereditary_isComplete.subst h fun _ _ => trivial

theorem read_rename (ρ : VarId → VarId) (t : Ty) : (t.rename ρ).read = t.read.map (rename ρ) := by
  cases t <;> rfl

theorem rename_eq_var_iff (inj : Injective ρ) {t : Ty} {v : VarId} :
    t.rename ρ = .var (ρ v) ↔ t = .var v := by
  cases t with
  | var w => rw [rename_var, var.injEq, var.injEq, inj.eq_iff]
  | missing | const | arrow | foreign => exact ⟨nofun, nofun⟩

theorem rename_ne_var {t : Ty} (h : ∀ v, t ≠ .var v) (w : VarId) : t.rename ρ ≠ .var w := by
  cases t with
  | var v => exact absurd rfl (h v)
  | missing | const | arrow | foreign => exact nofun

theorem Clash.rename {a b : Ty} (h : a.Clash b) (ρ : VarId → VarId) :
    (a.rename ρ).Clash (b.rename ρ) := by
  refine ⟨rename_ne_var h.left, rename_ne_var h.right, fun m n ha hb => ?_, fun x y z w ha hb => ?_⟩
  · cases a <;> cases ha
    cases b <;> cases hb
    exact h.const m n rfl rfl
  · cases a <;> cases ha
    cases b <;> cases hb
    exact h.arrow _ _ _ _ rfl rfl

end Ty

/-! ## Substitutions -/

namespace Subst

/-- Renames the bound variables, and those of the types they are bound to. -/
def rename (ρ : VarId → VarId) (s : Subst) : Subst :=
  ⟨.ofList (s.toList.map fun e => (ρ e.1, e.2.rename ρ))⟩

theorem find?_rename (inj : Injective ρ) (s : Subst) (v : VarId) :
    (s.rename ρ).find? (ρ v) = (s.find? v).map (Ty.rename ρ) := by
  have mem : ∀ u, (ρ v, u) ∈ s.toList.map (fun e => (ρ e.1, e.2.rename ρ)) ↔
      ∃ t, s.find? v = some t ∧ t.rename ρ = u := by
    intro u
    rw [List.mem_map]
    constructor
    · rintro ⟨⟨w, t⟩, ht, e⟩
      obtain ⟨hw, rfl⟩ := Prod.mk.inj e
      obtain rfl := inj hw
      exact ⟨t, mem_toList.1 ht, rfl⟩
    · rintro ⟨t, ht, rfl⟩
      exact ⟨(v, t), mem_toList.2 ht, rfl⟩
  refine Option.ext fun u => ?_
  rw [Option.map_eq_some_iff, ← mem]
  refine getElem?_ofList_eq_some_iff fun c d hc hd => ?_
  obtain ⟨t, ht, rfl⟩ := (mem c).1 hc
  obtain ⟨t', ht', rfl⟩ := (mem d).1 hd
  rw [ht] at ht'
  cases ht'
  rfl

theorem ext_rename (inj : Injective ρ) {s₁ s₂ : Subst} (h : ∀ v, s₁.find? (ρ v) = s₂.find? (ρ v)) :
    s₁ = s₂ := by
  refine Subst.ext fun w => ?_
  obtain ⟨v, rfl⟩ := Finite.injective_iff_surjective.1 inj w
  exact h v

theorem rename_empty (inj : Injective ρ) : (∅ : Subst).rename ρ = ∅ := by
  refine ext_rename inj fun v => ?_
  rw [find?_rename inj, find?_empty, find?_empty]
  rfl

theorem rename_singleton (inj : Injective ρ) (v : VarId) (t : Ty) :
    (singleton v t).rename ρ = singleton (ρ v) (t.rename ρ) := by
  refine ext_rename inj fun w => ?_
  rw [find?_rename inj, find?_singleton, find?_singleton]
  by_cases h : v = w
  · rw [if_pos h, if_pos (congrArg ρ h)]
    rfl
  · rw [if_neg h, if_neg (inj.ne h)]
    rfl

theorem rename_id (s : Subst) : s.rename id = s := by
  refine Subst.ext fun v => ?_
  have h := s.find?_rename injective_id v
  rw [Ty.rename_eq_id, Option.map_id] at h
  exact h

variable {s older newer : Subst}

theorem Forall.rename (hs : s.Forall Ty.IsComplete) (inj : Injective ρ) :
    (s.rename ρ).Forall Ty.IsComplete := by
  intro w u hu
  obtain ⟨v, rfl⟩ := Finite.injective_iff_surjective.1 inj w
  rw [find?_rename inj] at hu
  obtain ⟨t, ht, rfl⟩ := Option.map_eq_some_iff.1 hu
  exact (hs v t ht).rename ρ

theorem resolve_rename (inj : Injective ρ) (s : Subst) (busy : List VarId) (t : Ty) :
    (s.rename ρ).resolve (busy.map ρ) (t.rename ρ) = (s.resolve busy t).map (Ty.rename ρ) := by
  fun_induction resolve s busy t with
  | case1 busy v hv => exact resolve_var_busy (List.mem_map_of_mem hv)
  | case2 busy v hv hn => exact resolve_var_unbound (by rw [find?_rename inj, hn]; rfl)
  | case3 busy v hv t ht ih =>
    have free : ρ v ∉ busy.map ρ := mt (List.mem_map_of_injective inj).1 hv
    have bound : (s.rename ρ).find? (ρ v) = some (t.rename ρ) := by rw [find?_rename inj, ht]; rfl
    rw [Ty.rename_var, resolve_var_bound free bound, Ty.read_rename]
    cases t.read with
    | error f => rfl
    | ok t' => exact ih t'
  | case4 busy a r iha ihr =>
    rw [Ty.rename_arrow, resolve, iha, ihr]
    cases s.resolve busy a with
    | error f => rfl
    | ok a' => cases s.resolve busy r <;> rfl
  | case5 | case6 | case7 => exact resolve_eq_self _ fun _ hv => absurd hv List.not_mem_nil

theorem apply_rename (inj : Injective ρ) {t u : Ty} (h : s.apply t = .ok u) :
    (s.rename ρ).apply (t.rename ρ) = .ok (u.rename ρ) := by
  have h' := resolve_rename inj s [] t
  rw [show s.resolve [] t = .ok u from h] at h'
  exact h'

/-- Application without missing types, to a type and to the renamed one. -/
theorem exists_apply_rename (inj : Injective ρ) (hs : s.Forall Ty.IsComplete) (t : Ty) :
    ∃ u, s.apply t = .ok u ∧ (t.IsComplete → u.IsComplete) ∧
      (s.rename ρ).apply (t.rename ρ) = .ok (u.rename ρ) := by
  obtain ⟨u, hu, hc⟩ := exists_apply Ty.hereditary_isComplete hs t
  exact ⟨u, hu, hc, apply_rename inj hu⟩

/-- Composition without missing types, of two substitutions and of the renamed ones. -/
theorem exists_compose_rename (inj : Injective ρ) (ho : older.Forall Ty.IsComplete)
    (hn : newer.Forall Ty.IsComplete) :
    ∃ s, older.compose newer = .ok s ∧ s.Forall Ty.IsComplete ∧
      (older.rename ρ).compose (newer.rename ρ) = .ok (s.rename ρ) := by
  obtain ⟨s, hs, hc⟩ := exists_compose Ty.hereditary_isComplete ho hn
  obtain ⟨s', hs', -⟩ := exists_compose Ty.hereditary_isComplete (ho.rename inj) (hn.rename inj)
  refine ⟨s, hs, hc, hs'.trans (congrArg Except.ok (ext_rename inj fun v => ?_))⟩
  have entry := find?_of_compose hs' (ρ v)
  rw [find?_rename inj, find?_rename inj] at entry
  rw [find?_rename inj]
  rcases find?_of_compose hs v with ⟨hov, hsv⟩ | ⟨t, u, hov, hu, hsv⟩
  · rw [hov] at entry
    rcases entry with ⟨-, entry⟩ | ⟨t', u', ht', -⟩
    · rw [entry, hsv]
    · cases ht'
  · rw [hov] at entry
    rcases entry with ⟨hnone, -⟩ | ⟨t', u', ht', hu', entry⟩
    · cases hnone
    · cases ht'
      rw [apply_rename inj hu] at hu'
      cases hu'
      rw [entry, hsv]
      rfl

end Subst

/-! ## Unification -/

/-- Renames the variables that an error shows. -/
def UnifyError.rename (ρ : VarId → VarId) : UnifyError → UnifyError
  | .mismatch expected actual => .mismatch (expected.rename ρ) (actual.rename ρ)
  | .occurs v t => .occurs (ρ v) (t.rename ρ)

/-- The two types unify, and so do the renamed ones, or both pairs fail with an error. -/
def UnifiesAlike (ρ : VarId → VarId) (x y : Except UnifyStop Subst) : Prop :=
  (∃ s, x = .ok s ∧ s.Forall Ty.IsComplete ∧ y = .ok (s.rename ρ)) ∨
    ∃ e, x = .error (.error e) ∧ y = .error (.error (e.rename ρ))

theorem bindVar_rename (inj : Injective ρ) (v : VarId) {t : Ty} (ht : t.IsComplete) :
    UnifiesAlike ρ (bindVar v t) (bindVar (ρ v) (t.rename ρ)) := by
  have mem : ρ v ∈ (t.rename ρ).vars ↔ v ∈ t.vars := by
    rw [Ty.vars_rename, List.mem_map_of_injective inj]
  unfold bindVar
  by_cases he : t = .var v
  · rw [if_pos he, if_pos ((Ty.rename_eq_var_iff inj).2 he)]
    exact .inl ⟨∅, rfl, Subst.forall_empty _, by rw [Subst.rename_empty inj]⟩
  · rw [if_neg he, if_neg (mt (Ty.rename_eq_var_iff inj).1 he)]
    by_cases hv : v ∈ t.vars
    · rw [if_pos hv, if_pos (mem.2 hv)]
      exact .inr ⟨_, rfl, rfl⟩
    · rw [if_neg hv, if_neg (mt mem.1 hv)]
      exact .inl ⟨_, rfl, Subst.forall_singleton ht, by rw [Subst.rename_singleton inj]⟩

/-- **Unification commutes with renaming.** -/
theorem unify_rename (inj : Injective ρ) {a b : Ty} (ha : a.IsComplete) (hb : b.IsComplete) :
    UnifiesAlike ρ (unify a b) (unify (a.rename ρ) (b.rename ρ)) := by
  induction a, b using unify_induction with
  | const m n =>
    show UnifiesAlike ρ _ (unify (.const m) (.const n))
    rw [unify_const]
    split
    · exact .inl ⟨∅, rfl, Subst.forall_empty _, by rw [Subst.rename_empty inj]⟩
    · exact .inr ⟨_, rfl, rfl⟩
  | var v t =>
    rw [Ty.rename_var, unify_var, unify_var]
    exact bindVar_rename inj v hb
  | var' t v ht =>
    rw [Ty.rename_var, unify_var_right ht, unify_var_right (Ty.rename_ne_var ht)]
    exact bindVar_rename inj v ha
  | arrow a r b q ih ihr =>
    rw [Ty.rename_arrow, Ty.rename_arrow, unify_arrow, unify_arrow]
    rcases ih ha.1 hb.1 with ⟨s₁, h₁, hc₁, h₁'⟩ | ⟨e, he, he'⟩
    · obtain ⟨r', hr, hcr, hr'⟩ := Subst.exists_apply_rename inj hc₁ r
      obtain ⟨q', hq, hcq, hq'⟩ := Subst.exists_apply_rename inj hc₁ q
      simp only [h₁, h₁', hr, hr', hq, hq', ok_bind, mapError_ok]
      rcases ihr s₁ r' q' h₁ hr hq (hcr ha.2) (hcq hb.2) with ⟨s₂, h₂, hc₂, h₂'⟩ | ⟨e, he, he'⟩
      · obtain ⟨s, hs, hc, hs'⟩ := Subst.exists_compose_rename inj hc₁ hc₂
        simp only [h₂, h₂', ok_bind, hs, hs']
        exact .inl ⟨s, rfl, hc, rfl⟩
      · rw [he, he']
        exact .inr ⟨e, rfl, rfl⟩
    · rw [he, he']
      exact .inr ⟨e, rfl, rfl⟩
  | clash a b h => exact .inr ⟨_, unify_clash h, unify_clash (h.rename ρ)⟩

/-! ## Printing -/

theorem eraseDups_map (inj : Injective ρ) (l : List VarId) :
    (l.map ρ).eraseDups = l.eraseDups.map ρ := by
  match l with
  | [] => rfl
  | v :: l =>
    have others : (l.map ρ).filter (fun w => !w == ρ v) = (l.filter fun w => !w == v).map ρ := by
      rw [List.filter_map]
      refine congrArg (List.map ρ) (List.filter_congr fun w _ => ?_)
      show (!ρ w == ρ v) = !w == v
      rw [inj.beq_eq]
    rw [List.map_cons, List.eraseDups_cons, List.eraseDups_cons, List.map_cons, others,
      eraseDups_map inj]
termination_by l.length
decreasing_by exact Nat.lt_succ_of_le (List.length_filter_le _ _)

theorem idxOf_map (inj : Injective ρ) (v : VarId) (l : List VarId) :
    (l.map ρ).idxOf (ρ v) = l.idxOf v := by
  induction l with
  | nil => rfl
  | cons w l ih => rw [List.map_cons, List.idxOf_cons, List.idxOf_cons, ih, inj.beq_eq]

namespace Ty

theorem render_rename (name : VarId → String) (nested : Bool) (t : Ty) :
    (t.rename ρ).render name nested = t.render (fun v => name (ρ v)) nested := by
  induction t generalizing nested with
  | arrow a r iha ihr => rw [rename_arrow, render, render, iha, ihr]
  | missing | const | var | foreign => rfl

theorem varOrder_rename (inj : Injective ρ) (ts : List Ty) :
    varOrder (ts.map (rename ρ)) = (varOrder ts).map ρ := by
  unfold varOrder
  rw [← eraseDups_map inj, List.map_flatMap, List.flatMap_map]
  exact congrArg (fun f => (ts.flatMap f).eraseDups) (funext (vars_rename ρ))

/-- **Printing does not depend on ids.** -/
theorem printAll_rename (inj : Injective ρ) (ts : List Ty) :
    printAll (ts.map (rename ρ)) = printAll ts := by
  unfold printAll
  rw [varOrder_rename inj, List.map_map]
  refine List.map_congr_left fun t _ => ?_
  show (t.rename ρ).render _ false = _
  rw [render_rename]
  exact congrArg (render · false t) (funext fun v => by rw [idxOf_map inj])

theorem print_rename (inj : Injective ρ) (t : Ty) : (t.rename ρ).print = t.print :=
  List.head_eq_of_cons_eq (printAll_rename inj [t])

end Ty

/-! ## Errors -/

theorem UnifyError.message_rename (inj : Injective ρ) (e : UnifyError) :
    (e.rename ρ).message = e.message := by
  cases e with
  | mismatch a b =>
    have h : Ty.printAll [a.rename ρ, b.rename ρ] = Ty.printAll [a, b] :=
      Ty.printAll_rename inj [a, b]
    simp only [rename, message, h]
  | occurs v t =>
    have h : Ty.printAll [.var (ρ v), t.rename ρ] = Ty.printAll [.var v, t] :=
      Ty.printAll_rename inj [.var v, t]
    simp only [rename, message, h]

/-- Renames the variables that an error shows. -/
def InferError.rename (ρ : VarId → VarId) : InferError → InferError
  | .undeclared x => .undeclared x
  | .unify cause => .unify (cause.rename ρ)
  | .conditionNotBool actual cause => .conditionNotBool (actual.rename ρ) (cause.rename ρ)
  | .branchMismatch yes no cause => .branchMismatch (yes.rename ρ) (no.rename ρ) (cause.rename ρ)
  | .emptyExpr => .emptyExpr
  | .unhandled kind => .unhandled kind

theorem InferError.rename_id (e : InferError) : e.rename id = e := by
  have cause : ∀ c : UnifyError, c.rename id = c := by
    intro c
    cases c <;> simp only [UnifyError.rename, Ty.rename_id, id_eq]
  cases e <;> simp only [rename, Ty.rename_id, cause]

/-- The text of an error does not depend on ids. -/
theorem InferError.message_rename (inj : Injective ρ) (e : InferError) :
    (e.rename ρ).message = e.message := by
  cases e with
  | undeclared | emptyExpr | unhandled => rw [rename]
  | unify cause => exact cause.message_rename inj
  | conditionNotBool actual cause =>
    unfold rename message
    dsimp only
    rw [Ty.print_rename inj]
  | branchMismatch yes no cause =>
    have h : Ty.printAll [yes.rename ρ, no.rename ρ] = Ty.printAll [yes, no] :=
      Ty.printAll_rename inj [yes, no]
    unfold rename message
    dsimp only
    rw [h]

end Monotype
