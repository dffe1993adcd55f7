import Monotype.Proofs.Resolution
import Monotype.Unify

/-!
# Unification of plain types

Without missing types, unification never faults (`Ty.Hereditary.unify_answers`). Between plain
types, a unifier that it finds is resolved within the variables of the two types and makes them
identical (`once_eq_of_unify`), and it finds one whenever there is an instance in which the types
agree: `exists_unify_of_subst_eq` says that every such instance solves the unifier found.

All three follow `unify_induction`. The returns of two function types are compared after what their
arguments required was applied to them, so the composition law carries each step.
-/

namespace Monotype

variable {a b t : Ty} {v : VarId} {s : Subst} {θ : VarId → Ty}

/-! ## Binding a variable -/

theorem bindVar_cases (h : bindVar v t = .ok s) :
    (t = .var v ∧ s = ∅) ∨ (v ∉ t.vars ∧ s = .singleton v t) := by
  unfold bindVar at h
  split at h
  next e => cases h; exact .inl ⟨e, rfl⟩
  next =>
    split at h
    · cases h
    next hv => cases h; exact .inr ⟨hv, rfl⟩

theorem bindVar_answers {p : Ty → Prop} (v : VarId) (ht : p t) :
    (∃ s, bindVar v t = .ok s ∧ s.Forall p) ∨ ∃ e, bindVar v t = .error (.error e) := by
  unfold bindVar
  split
  · exact .inl ⟨∅, rfl, Subst.forall_empty _⟩
  · split
    · exact .inr ⟨_, rfl⟩
    · exact .inl ⟨_, rfl, Subst.forall_singleton ht⟩

/-- After a variable is bound, it and its binding are the same. -/
theorem once_eq_of_bindVar (h : bindVar v t = .ok s) : s.once (.var v) = s.once t := by
  obtain ⟨rfl, rfl⟩ | ⟨hv, rfl⟩ := bindVar_cases h
  · rfl
  · have hself : (Subst.singleton v t).find? v = some t := by
      rw [Subst.find?_singleton, if_pos rfl]
    have hother : ∀ w ∈ t.vars, (Subst.singleton v t).find? w = none := by
      intro w hw
      rw [Subst.find?_singleton, if_neg fun (e : v = w) => hv (e ▸ hw)]
    rw [Subst.once_eq_self hother]
    exact Subst.image_of_find? hself

/-- The instance of a variable is no greater than that of a type in which it occurs. -/
theorem Ty.size_le_size_subst (θ : VarId → Ty) (hv : v ∈ t.vars) :
    (θ v).size ≤ (t.subst θ).size := by
  induction t with
  | var w =>
    obtain rfl : v = w := by simpa [vars] using hv
    exact Nat.le_refl _
  | arrow a r iha ihr =>
    rw [subst, size]
    rcases List.mem_append.1 hv with hv | hv
    · have := iha hv
      omega
    · have := ihr hv
      omega
  | missing | const | foreign => cases hv

/-- The occurs check is right: in no instance is a variable the same as a type around it. -/
theorem Ty.subst_ne_of_mem_vars (θ : VarId → Ty) (hv : v ∈ t.vars) (ht : t ≠ .var v) :
    θ v ≠ t.subst θ := by
  intro e
  have hsize := congrArg size e
  cases t with
  | var w =>
    obtain rfl : v = w := by simpa [vars] using hv
    exact ht rfl
  | arrow a r =>
    rw [subst, size] at hsize
    rcases List.mem_append.1 hv with hv | hv
    · have := size_le_size_subst θ hv
      omega
    · have := size_le_size_subst θ hv
      omega
  | missing | const | foreign => cases hv

theorem exists_bindVar_of_subst_eq (e : θ v = t.subst θ) :
    ∃ s, bindVar v t = .ok s ∧ s.Solves θ := by
  unfold bindVar
  split
  · exact ⟨∅, rfl, Subst.solves_empty θ⟩
  next ht =>
    rw [if_neg fun hv => Ty.subst_ne_of_mem_vars θ hv ht e]
    refine ⟨_, rfl, fun w u h => ?_⟩
    rw [Subst.find?_singleton] at h
    split at h
    next hw => cases h; rw [← hw]; exact e
    next => cases h

/-! ## Unification -/

theorem unify_arrow_eq_ok_iff {a r b q : Ty} :
    unify (.arrow a r) (.arrow b q) = .ok s ↔
      ∃ s₁ r' q' s₂, unify a b = .ok s₁ ∧ s₁.apply r = .ok r' ∧ s₁.apply q = .ok q' ∧
        unify r' q' = .ok s₂ ∧ s₁.compose s₂ = .ok s := by
  simp only [unify_arrow, bind_eq_ok_iff, mapError_eq_ok_iff]
  constructor
  · rintro ⟨s₁, h₁, r', hr, q', hq, s₂, h₂, h⟩
    exact ⟨s₁, r', q', s₂, h₁, hr, hq, h₂, h⟩
  · rintro ⟨s₁, r', q', s₂, h₁, hr, hq, h₂, h⟩
    exact ⟨s₁, h₁, r', hr, q', hq, s₂, h₂, h⟩

/-- **No faults.** Unification of types without missing parts ends with a unifier or with an error.
What holds of both types and passes to their parts holds of all types in the unifier. -/
theorem Ty.Hereditary.unify_answers {p : Ty → Prop} (hp : Ty.Hereditary p) (ha : p a) (hb : p b) :
    (∃ s, unify a b = .ok s ∧ s.Forall p) ∨ ∃ e, unify a b = .error (.error e) := by
  induction a, b using unify_induction with
  | const m n =>
    rw [unify_const]
    split
    · exact .inl ⟨∅, rfl, Subst.forall_empty _⟩
    · exact .inr ⟨_, rfl⟩
  | var v t => rw [unify_var]; exact bindVar_answers v hb
  | var' t v ht => rw [unify_var_right ht]; exact bindVar_answers v ha
  | arrow a r b q ih ihr =>
    obtain ⟨ha, hr⟩ := hp.arrow.1 ha
    obtain ⟨hb, hq⟩ := hp.arrow.1 hb
    rcases ih ha hb with ⟨s₁, h₁, hs₁⟩ | ⟨e, he⟩
    · obtain ⟨r', hr', hpr⟩ := Subst.exists_apply hp hs₁ r
      obtain ⟨q', hq', hpq⟩ := Subst.exists_apply hp hs₁ q
      rcases ihr s₁ r' q' h₁ hr' hq' (hpr hr) (hpq hq) with ⟨s₂, h₂, hs₂⟩ | ⟨e, he⟩
      · obtain ⟨s, hs, hps⟩ := Subst.exists_compose hp hs₁ hs₂
        exact .inl ⟨s, unify_arrow_eq_ok_iff.2 ⟨s₁, r', q', s₂, h₁, hr', hq', h₂, hs⟩, hps⟩
      · exact .inr ⟨e, by
          simp only [unify_arrow, h₁, hr', hq', he, ok_bind, mapError_ok, error_bind]⟩
    · exact .inr ⟨e, by rw [unify_arrow, he]; rfl⟩
  | clash a b h => exact .inr ⟨_, unify_clash h⟩

/-- A unifier of plain types is resolved within their variables. -/
theorem unify_answers (ha : a.IsPlain) (hb : b.IsPlain) :
    (∃ s, unify a b = .ok s ∧ s.IsSolved (a.vars ++ b.vars)) ∨
      ∃ e, unify a b = .error (.error e) := by
  rcases Ty.hereditary_isPlain.unify_answers ha hb with ⟨s, h, hp⟩ | h
  · exact .inl ⟨s, h, .of_unify h, hp⟩
  · exact .inr h

theorem isSolved_of_unify (ha : a.IsPlain) (hb : b.IsPlain) (h : unify a b = .ok s) :
    s.IsSolved (a.vars ++ b.vars) := by
  rcases unify_answers ha hb with ⟨s', h', hs⟩ | ⟨e, he⟩
  · rw [h] at h'
    cases h'
    exact hs
  · rw [h] at he
    cases he

/-- **Soundness.** A unifier makes the two types identical. -/
theorem once_eq_of_unify (ha : a.IsPlain) (hb : b.IsPlain) (h : unify a b = .ok s) :
    s.once a = s.once b := by
  induction a, b using unify_induction generalizing s with
  | const m n =>
    rw [unify_const] at h
    split at h
    next e => rw [e]
    next => cases h
  | var v t => rw [unify_var] at h; exact once_eq_of_bindVar h
  | var' t v ht => rw [unify_var_right ht] at h; exact (once_eq_of_bindVar h).symm
  | arrow a r b q ih ihr =>
    obtain ⟨s₁, r', q', s₂, h₁, hr, hq, h₂, h⟩ := unify_arrow_eq_ok_iff.1 h
    have hs₁ := isSolved_of_unify ha.1 hb.1 h₁
    obtain rfl := hs₁.once_of_apply hr
    obtain rfl := hs₁.once_of_apply hq
    have hr' := hs₁.isPlain_once ha.2
    have hq' := hs₁.isPlain_once hb.2
    have hs₂ := isSolved_of_unify hr' hq' h₂
    have args : s.once a = s.once b := by
      rw [hs₂.once_of_compose h, hs₂.once_of_compose h, ih ha.1 hb.1 h₁]
    have returns : s.once r = s.once q := by
      rw [hs₂.once_of_compose h, hs₂.once_of_compose h]
      exact ihr s₁ _ _ h₁ hr hq hr' hq' h₂
    show Ty.arrow (s.once a) (s.once r) = Ty.arrow (s.once b) (s.once q)
    rw [args, returns]
  | clash a b hc => rw [unify_clash hc] at h; cases h

/-- Types of different shapes have no common instance. -/
theorem Ty.Clash.subst_ne (h : a.Clash b) (ha : a.IsPlain) (hb : b.IsPlain) (θ : VarId → Ty) :
    a.subst θ ≠ b.subst θ := by
  intro e
  cases a with
  | var v => exact h.left v rfl
  | missing | foreign => exact ha
  | const m =>
    cases b with
    | const n => exact h.const m n rfl rfl
    | var v => exact h.right v rfl
    | arrow => cases e
    | missing | foreign => exact hb
  | arrow x y =>
    cases b with
    | arrow z w => exact h.arrow x y z w rfl rfl
    | var v => exact h.right v rfl
    | const => cases e
    | missing | foreign => exact hb

/-- **Generality.** If the types agree in an instance, there is a unifier, and the instance solves
it. -/
theorem exists_unify_of_subst_eq (ha : a.IsPlain) (hb : b.IsPlain)
    (e : a.subst θ = b.subst θ) : ∃ s, unify a b = .ok s ∧ s.Solves θ := by
  induction a, b using unify_induction with
  | const m n =>
    rw [unify_const, if_pos (Ty.const.inj e)]
    exact ⟨∅, rfl, Subst.solves_empty θ⟩
  | var v t => rw [unify_var]; exact exists_bindVar_of_subst_eq e
  | var' t v ht => rw [unify_var_right ht]; exact exists_bindVar_of_subst_eq e.symm
  | arrow a r b q ih ihr =>
    rw [Ty.subst, Ty.subst] at e
    obtain ⟨ea, er⟩ := Ty.arrow.inj e
    obtain ⟨s₁, h₁, sol₁⟩ := ih ha.1 hb.1 ea
    have hs₁ := isSolved_of_unify ha.1 hb.1 h₁
    have hr := hs₁.apply_eq_once r
    have hq := hs₁.apply_eq_once q
    have er' : (s₁.once r).subst θ = (s₁.once q).subst θ := by
      rw [sol₁.subst_apply hr, sol₁.subst_apply hq, er]
    have hr' := hs₁.isPlain_once ha.2
    have hq' := hs₁.isPlain_once hb.2
    obtain ⟨s₂, h₂, sol₂⟩ := ihr s₁ _ _ h₁ hr hq hr' hq' er'
    have hs₂ := isSolved_of_unify hr' hq' h₂
    obtain ⟨s, hs, -⟩ := Subst.exists_compose Ty.hereditary_isPlain hs₁.plain hs₂.plain
    exact ⟨s, unify_arrow_eq_ok_iff.2 ⟨s₁, _, _, s₂, h₁, hr, hq, h₂, hs⟩, sol₁.compose sol₂ hs⟩
  | clash a b hc => exact absurd e (hc.subst_ne ha hb θ)

/-- **Most general unifiers.** If the types agree in an instance, unification finds a unifier, and
the instance does not see whether it was applied before. So an error means that the types agree in
no instance. -/
theorem unify_mostGeneral (a b : Ty) (ha : a.IsPlain) (hb : b.IsPlain) :
    (∀ θ : VarId → Ty, a.subst θ = b.subst θ →
      ∃ s, unify a b = .ok s ∧ ∀ v, ∃ u, s.apply (.var v) = .ok u ∧ u.subst θ = θ v) ∧
    ∀ stop, unify a b = .error stop → ∀ θ : VarId → Ty, a.subst θ ≠ b.subst θ := by
  constructor
  · intro θ e
    obtain ⟨s, h, sol⟩ := exists_unify_of_subst_eq ha hb e
    have hs := isSolved_of_unify ha hb h
    refine ⟨s, h, fun v => ⟨s.once (.var v), hs.apply_eq_once _, ?_⟩⟩
    exact sol.subst_apply (hs.apply_eq_once (.var v))
  · intro stop hstop θ e
    obtain ⟨s, h, -⟩ := exists_unify_of_subst_eq ha hb e
    rw [h] at hstop
    cases hstop

/-- The types `a → b → a` and `(c → c) → bool → int → int` agree when `a` is `int → int`, `b` is
`bool` and `c` is `int`. The types `a` and `a → int` never agree. -/
theorem unify_mostGeneral_arrows :
    (∃ s, unify (.arrow (.var 0) (.arrow (.var 1) (.var 0)))
        (.arrow (.arrow (.var 2) (.var 2)) (.arrow .bool (.arrow .int .int))) = .ok s ∧
      ∀ v, ∃ u, s.apply (.var v) = .ok u ∧
        u.subst (fun v => if v = 0 then .arrow .int .int else if v = 1 then .bool else .int) =
          if v = 0 then .arrow .int .int else if v = 1 then .bool else .int) ∧
    ∀ θ : VarId → Ty, (Ty.var 0).subst θ ≠ (Ty.arrow (.var 0) .int).subst θ := by
  have herr : unify (.var 0) (.arrow (.var 0) .int) =
      .error (.error (.occurs 0 (.arrow (.var 0) .int))) := by
    rw [unify_var]
    decide
  have agree := unify_mostGeneral (.arrow (.var 0) (.arrow (.var 1) (.var 0)))
    (.arrow (.arrow (.var 2) (.var 2)) (.arrow .bool (.arrow .int .int)))
    ⟨trivial, trivial, trivial⟩ ⟨⟨trivial, trivial⟩, trivial, trivial, trivial⟩
  have differ := unify_mostGeneral (.var 0) (.arrow (.var 0) .int) trivial ⟨trivial, trivial⟩
  exact ⟨agree.1 _ (by decide), differ.2 _ herr⟩

theorem Ty.IsPlain.identical_self (ht : t.IsPlain) : t.identical t = true := by
  induction t with
  | arrow a r iha ihr => rw [identical, iha ht.1, ihr ht.2]; rfl
  | const | var => simp only [identical, beq_self_eq_true]
  | missing | foreign => exact ht.elim

/-- **Unifiers are resolved.** A unifier makes the two types identical. It has only variables of the
two types, and none of those it binds is left in a type bound in it; so it has no cycles, and a type
it was applied to stays the same when it is applied again. -/
theorem unify_sound (a b : Ty) (s : Subst) (ha : a.IsPlain) (hb : b.IsPlain)
    (h : unify a b = .ok s) :
    (∃ u w, s.apply a = .ok u ∧ s.apply b = .ok w ∧ u.identical w = true) ∧
    (∀ v t, s.find? v = some t → (v ∈ a.vars ∨ v ∈ b.vars) ∧
      ∀ w ∈ t.vars, (w ∈ a.vars ∨ w ∈ b.vars) ∧ s.find? w = none) ∧
    s.Acyclic ∧ ∀ t, ∃ u, s.apply t = .ok u ∧ s.apply u = .ok u := by
  have hs := isSolved_of_unify ha hb h
  refine ⟨⟨s.once a, s.once b, hs.apply_eq_once a, hs.apply_eq_once b, ?_⟩, fun v t ht => ?_,
    hs.within.acyclic, fun t => ⟨s.once t, hs.apply_eq_once t, ?_⟩⟩
  · rw [once_eq_of_unify ha hb h]
    exact (hs.isPlain_once hb).identical_self
  · obtain ⟨hv, hw⟩ := hs.within v t ht
    exact ⟨List.mem_append.1 hv, fun w hmem => ⟨List.mem_append.1 (hw w hmem).1, (hw w hmem).2⟩⟩
  · rw [hs.apply_eq_once, hs.once_once]

/-- The types `a → a` and `int → b` require `b` to be `int`, which shows only after `a` is bound. -/
theorem unify_sound_arrow : ∃ s, unify (.arrow (.var 0) (.var 0)) (.arrow .int (.var 1)) = .ok s ∧
    s = .ofList [(0, .int), (1, .int)] ∧
    (∃ u w, s.apply (.arrow (.var 0) (.var 0)) = .ok u ∧ s.apply (.arrow .int (.var 1)) = .ok w ∧
      u.identical w = true) ∧
    (∀ v t, s.find? v = some t → (v ∈ [0, 0] ∨ v ∈ [1]) ∧
      ∀ w ∈ t.vars, (w ∈ [0, 0] ∨ w ∈ [1]) ∧ s.find? w = none) ∧
    s.Acyclic ∧ ∀ t, ∃ u, s.apply t = .ok u ∧ s.apply u = .ok u := by
  have h : unify (.arrow (.var 0) (.var 0)) (.arrow .int (.var 1)) =
      .ok (.ofList [(0, .int), (1, .int)]) := by
    rw [unify_arrow]
    cbv
  exact ⟨_, h, rfl, unify_sound _ _ _ ⟨trivial, trivial⟩ ⟨trivial, trivial⟩ h⟩

end Monotype
