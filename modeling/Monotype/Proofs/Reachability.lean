import Monotype.Proofs.Resolution

/-!
# What application leaves in a type

Resolution expands a variable while the variable is busy, and leaves a busy variable in place. So
what it meets is what can be reached without passing through a busy variable (`ReachesPast`). The
binding of a variable reaches the same whether or not the variable itself may be passed
(`reachesPast_cons_iff`): what lies behind it can be reached from the start of the binding. With
this, each fact follows the recursion of resolution.

1. Resolution faults if and only if a variable bound to a missing type is reached
(`exists_resolve_iff`).
2. A variable that cannot be expanded is left if and only if it is reached (`mem_vars_resolve_iff`).
3. A variable that could be expanded is left if and only if a cycle is reached
   (`exists_expands_resolve_iff`).

`apply_leaves` puts them together, for all substitutions, also for cyclic ones.
-/

namespace Monotype

namespace Subst

variable {s : Subst} {busy : List VarId} {t u x : Ty} {v w : VarId}

/-! ## Reaching past busy variables -/

/-- The variable is bound to the type, and is not busy. -/
def Expands (s : Subst) (busy : List VarId) (v : VarId) (t : Ty) : Prop :=
  v ∉ busy ∧ s.find? v = some t

/-- The variable occurs in the type, or in a type to which a reached variable expands. -/
inductive ReachesPast (s : Subst) (busy : List VarId) (t : Ty) : VarId → Prop where
  | here {v : VarId} : v ∈ t.vars → ReachesPast s busy t v
  | next {v w : VarId} {u : Ty} :
      ReachesPast s busy t v → s.Expands busy v u → w ∈ u.vars → ReachesPast s busy t w

theorem expands_nil : s.Expands [] v t ↔ s.find? v = some t :=
  and_iff_right List.not_mem_nil

theorem expands_cons : s.Expands (v :: busy) w t ↔ w ≠ v ∧ s.Expands busy w t := by
  unfold Expands
  rw [List.mem_cons, not_or, and_assoc]

/-- A variable expands to one type. -/
theorem Expands.eq (h : s.Expands busy v t) (h' : s.find? v = some u) : u = t :=
  Option.some.inj (h'.symm.trans h.2)

theorem reachesPast_nil : s.ReachesPast [] t v ↔ s.Reaches t v := by
  constructor
  · intro h
    induction h with
    | here hv => exact .here hv
    | next _ hu hw ih => exact .next ih hu.2 hw
  · intro h
    induction h with
    | here hv => exact .here hv
    | next _ hu hw ih => exact .next ih (expands_nil.2 hu) hw

theorem ReachesPast.trans (hv : s.ReachesPast busy t v) (hu : s.Expands busy v u)
    (hw : s.ReachesPast busy u w) : s.ReachesPast busy t w := by
  induction hw with
  | here h => exact .next hv hu h
  | next _ hx hmem ih => exact .next ih hx hmem

/-- What is reached past more variables is reached past fewer. -/
theorem ReachesPast.of_cons (h : s.ReachesPast (v :: busy) t w) : s.ReachesPast busy t w := by
  induction h with
  | here hw => exact .here hw
  | next _ hu hw ih => exact .next ih (expands_cons.1 hu).2 hw

/-- What is reached can be reached without passing through a given variable, or that variable is
reached. -/
theorem ReachesPast.cons_or (h : s.ReachesPast busy t w) (v : VarId) :
    s.ReachesPast (v :: busy) t w ∨ s.ReachesPast busy t v := by
  induction h with
  | here hw => exact .inl (.here hw)
  | @next y z u hy hu hz ih =>
    rcases ih with ih | ih
    · by_cases e : y = v
      · exact .inr (e ▸ hy)
      · exact .inl (.next ih (expands_cons.2 ⟨e, hu⟩) hz)
    · exact .inr ih

/-- A binding reaches the same without passing through its variable. -/
theorem reachesPast_cons_iff (h : s.Expands busy v t) :
    s.ReachesPast (v :: busy) t w ↔ s.ReachesPast busy t w := by
  refine ⟨.of_cons, fun hw => ?_⟩
  induction hw with
  | here hw => exact .here hw
  | @next y z u hy hu hz ih =>
    by_cases e : y = v
    · -- back at the variable: go on from the start of its binding
      subst e
      obtain rfl := h.eq hu.2
      exact .here hz
    · exact .next ih (expands_cons.2 ⟨e, hu⟩) hz

/-! ### The forms of a type -/

theorem reachesPast_arrow {a r : Ty} :
    s.ReachesPast busy (.arrow a r) w ↔ s.ReachesPast busy a w ∨ s.ReachesPast busy r w := by
  constructor
  · intro h
    induction h with
    | here hw => exact (List.mem_append.1 hw).imp .here .here
    | next _ hu hz ih => exact ih.imp (fun hy => .next hy hu hz) fun hy => .next hy hu hz
  · rintro (h | h)
    · induction h with
      | here hw => exact .here (List.mem_append_left _ hw)
      | next _ hu hz ih => exact .next ih hu hz
    · induction h with
      | here hw => exact .here (List.mem_append_right _ hw)
      | next _ hu hz ih => exact .next ih hu hz

theorem not_reachesPast (h : t.vars = []) : ¬ s.ReachesPast busy t w := by
  intro hw
  induction hw with
  | here hw => rw [h] at hw; cases hw
  | next _ _ _ ih => exact ih

/-- A variable that does not expand reaches itself only. -/
theorem reachesPast_var_stuck (stuck : ∀ t, ¬ s.Expands busy v t) :
    s.ReachesPast busy (.var v) w ↔ w = v := by
  constructor
  · intro h
    induction h with
    | here hw => simpa [Ty.vars] using hw
    | next _ hu _ ih => exact absurd (ih ▸ hu) (stuck _)
  · rintro rfl
    exact .here (by simp [Ty.vars])

/-- A variable that expands reaches itself, and what its binding reaches. -/
theorem reachesPast_var (h : s.Expands busy v t) :
    s.ReachesPast busy (.var v) w ↔ w = v ∨ s.ReachesPast (v :: busy) t w := by
  rw [reachesPast_cons_iff h]
  have hv : s.ReachesPast busy (.var v) v := .here (by simp [Ty.vars])
  constructor
  · intro hw
    induction hw with
    | here hw => exact .inl (by simpa [Ty.vars] using hw)
    | next _ hu hz ih =>
      rcases ih with rfl | ih
      · obtain rfl := h.eq hu.2
        exact .inr (.here hz)
      · exact .inr (.next ih hu hz)
  · rintro (rfl | hw)
    · exact hv
    · exact hv.trans h hw

/-! ## Resolution -/

theorem not_expands_of_busy (h : v ∈ busy) (t : Ty) : ¬ s.Expands busy v t := fun hv => hv.1 h

theorem not_expands_of_unbound (h : s.find? v = none) (t : Ty) : ¬ s.Expands busy v t := by
  rintro ⟨-, hv⟩
  rw [h] at hv
  cases hv

theorem resolve_var_stuck (stuck : ∀ t, ¬ s.Expands busy v t) :
    s.resolve busy (.var v) = .ok (.var v) := by
  by_cases hv : v ∈ busy
  · exact resolve_var_busy hv
  · cases ht : s.find? v with
    | none => exact resolve_var_unbound ht
    | some t => exact absurd ⟨hv, ht⟩ (stuck t)

theorem resolve_var_eq_ok_iff (h : s.Expands busy v t) :
    s.resolve busy (.var v) = .ok u ↔ t ≠ .missing ∧ s.resolve (v :: busy) t = .ok u := by
  rw [resolve_var_bound h.1 h.2, bind_eq_ok_iff]
  constructor
  · rintro ⟨t', ht', hu⟩
    obtain ⟨hm, rfl⟩ := Ty.read_eq_ok_iff.1 ht'
    exact ⟨hm, hu⟩
  · rintro ⟨hm, hu⟩
    exact ⟨t, Ty.read_eq_ok_iff.2 ⟨hm, rfl⟩, hu⟩

/-- Induction along resolution: a variable that expands is followed by its binding, with the
variable busy. -/
theorem resolve_induction (s : Subst) {P : List VarId → Ty → Prop}
    (leaf : ∀ busy t, t.vars = [] → s.resolve busy t = .ok t → P busy t)
    (stuck : ∀ busy v, (∀ t, ¬ s.Expands busy v t) → P busy (.var v))
    (expand : ∀ busy v t, s.Expands busy v t → P (v :: busy) t → P busy (.var v))
    (arrow : ∀ busy a r, P busy a → P busy r → P busy (.arrow a r)) (busy : List VarId) (t : Ty) :
    P busy t := by
  fun_induction resolve s busy t with
  | case1 busy v hv => exact stuck busy v (not_expands_of_busy hv)
  | case2 busy v _ hn => exact stuck busy v (not_expands_of_unbound hn)
  | case3 busy v hv t ht ih => exact expand busy v t ⟨hv, ht⟩ (ih t)
  | case4 busy a r iha ihr => exact arrow busy a r iha ihr
  | case5 | case6 | case7 => exact leaf _ _ rfl (by rw [resolve])

/-- **Faults.** Resolution answers if and only if it reaches no variable that expands to a missing
type. -/
theorem exists_resolve_iff (s : Subst) (busy : List VarId) (t : Ty) :
    (∃ u, s.resolve busy t = .ok u) ↔
      ∀ v, s.ReachesPast busy t v → ¬ s.Expands busy v .missing := by
  induction busy, t using resolve_induction s with
  | leaf busy t ht hr => exact iff_of_true ⟨t, hr⟩ fun w hw => absurd hw (not_reachesPast ht)
  | stuck busy v hv =>
    refine iff_of_true ⟨_, resolve_var_stuck hv⟩ fun w hw => ?_
    rw [(reachesPast_var_stuck hv).1 hw]
    exact hv _
  | expand busy v t hvt ih =>
    simp only [resolve_var_eq_ok_iff hvt, exists_and_left, ih]
    constructor
    · rintro ⟨hm, hall⟩ w hw hwm
      by_cases e : w = v
      · subst e
        exact hm (hvt.eq hwm.2).symm
      · have hw' := ((reachesPast_var hvt).1 hw).resolve_left e
        exact hall w hw' (expands_cons.2 ⟨e, hwm⟩)
    · intro hall
      refine ⟨?_, fun w hw hwm => ?_⟩
      · rintro rfl
        exact hall v ((reachesPast_var hvt).2 (.inl rfl)) hvt
      · exact hall w ((reachesPast_var hvt).2 (.inr hw)) (expands_cons.1 hwm).2
  | arrow busy a r iha ihr =>
    have parts : (∃ u, s.resolve busy (.arrow a r) = .ok u) ↔
        (∃ a', s.resolve busy a = .ok a') ∧ ∃ r', s.resolve busy r = .ok r' := by
      simp only [resolve_arrow_eq_ok_iff]
      constructor
      · rintro ⟨_, a', r', ha, hr, -⟩
        exact ⟨⟨a', ha⟩, r', hr⟩
      · rintro ⟨⟨a', ha⟩, r', hr⟩
        exact ⟨_, a', r', ha, hr, rfl⟩
    simp only [parts, iha, ihr, reachesPast_arrow, or_imp, forall_and]

/-- **Variables that do not expand.** Such a variable is left if and only if it is reached. -/
theorem mem_vars_resolve_iff (h : s.resolve busy t = .ok u) (hw : ∀ x, ¬ s.Expands busy w x) :
    w ∈ u.vars ↔ s.ReachesPast busy t w := by
  induction busy, t using resolve_induction s generalizing u with
  | leaf busy t ht hr =>
    rw [hr] at h
    cases h
    rw [ht]
    exact iff_of_false List.not_mem_nil (not_reachesPast ht)
  | stuck busy v hv =>
    rw [resolve_var_stuck hv] at h
    cases h
    rw [reachesPast_var_stuck hv, Ty.vars, List.mem_singleton]
  | expand busy v t hvt ih =>
    obtain ⟨-, hu⟩ := (resolve_var_eq_ok_iff hvt).1 h
    have ne : w ≠ v := by
      rintro rfl
      exact hw t hvt
    rw [reachesPast_var hvt, or_iff_right ne]
    exact ih hu fun x hx => hw x (expands_cons.1 hx).2
  | arrow busy a r iha ihr =>
    obtain ⟨a', r', ha, hr, rfl⟩ := resolve_arrow_eq_ok_iff.1 h
    rw [reachesPast_arrow, Ty.vars, List.mem_append, iha ha hw, ihr hr hw]

/-- Some variable reached lies on a cycle. -/
def ReachesCycle (s : Subst) (busy : List VarId) (t : Ty) : Prop :=
  ∃ v x, s.ReachesPast busy t v ∧ s.Expands busy v x ∧ s.ReachesPast busy x v

theorem reachesCycle_arrow {a r : Ty} :
    s.ReachesCycle busy (.arrow a r) ↔ s.ReachesCycle busy a ∨ s.ReachesCycle busy r := by
  unfold ReachesCycle
  simp only [reachesPast_arrow, or_and_right, exists_or]

/-- From a variable that expands, a cycle through it is reached or one that its binding reaches
without passing through it. -/
theorem reachesCycle_var (h : s.Expands busy v t) :
    s.ReachesCycle busy (.var v) ↔ s.ReachesPast busy t v ∨ s.ReachesCycle (v :: busy) t := by
  constructor
  · rintro ⟨w, x, hw, hwx, hxw⟩
    by_cases through : s.ReachesPast busy t v
    · exact .inl through
    · have ne : w ≠ v := by
        rintro rfl
        obtain rfl := h.eq hwx.2
        exact through hxw
      have htw := ((reachesPast_var h).1 hw).resolve_left ne
      -- a cycle that passed through the variable would make the variable reachable from its binding
      have hxw' := (hxw.cons_or v).resolve_right fun hxv => through (htw.of_cons.trans hwx hxv)
      exact .inr ⟨w, x, htw, expands_cons.2 ⟨ne, hwx⟩, hxw'⟩
  · rintro (hv | ⟨w, x, hw, hwx, hxw⟩)
    · exact ⟨v, t, (reachesPast_var h).2 (.inl rfl), h, hv⟩
    · exact ⟨w, x, (reachesPast_var h).2 (.inr hw), (expands_cons.1 hwx).2, hxw.of_cons⟩

/-- **Cycles.** A variable that could be expanded is left if and only if a cycle is reached. -/
theorem exists_expands_resolve_iff (h : s.resolve busy t = .ok u) :
    (∃ w ∈ u.vars, ∃ x, s.Expands busy w x) ↔ s.ReachesCycle busy t := by
  induction busy, t using resolve_induction s generalizing u with
  | leaf busy t ht hr =>
    rw [hr] at h
    cases h
    rw [ht]
    constructor
    · rintro ⟨w, hw, -⟩
      cases hw
    · rintro ⟨w, x, hw, -, -⟩
      exact absurd hw (not_reachesPast ht)
  | stuck busy v hv =>
    rw [resolve_var_stuck hv] at h
    cases h
    constructor
    · rintro ⟨w, hw, x, hx⟩
      obtain rfl : w = v := by simpa [Ty.vars] using hw
      exact absurd hx (hv x)
    · rintro ⟨w, x, hw, hx, -⟩
      obtain rfl := (reachesPast_var_stuck hv).1 hw
      exact absurd hx (hv x)
  | expand busy v t hvt ih =>
    obtain ⟨-, hu⟩ := (resolve_var_eq_ok_iff hvt).1 h
    have itself : v ∈ u.vars ↔ s.ReachesPast busy t v := by
      rw [mem_vars_resolve_iff hu fun x hx => (expands_cons.1 hx).1 rfl, reachesPast_cons_iff hvt]
    rw [reachesCycle_var hvt, ← itself, ← ih hu]
    constructor
    · rintro ⟨w, hw, x, hx⟩
      by_cases e : w = v
      · exact .inl (e ▸ hw)
      · exact .inr ⟨w, hw, x, expands_cons.2 ⟨e, hx⟩⟩
    · rintro (hv | ⟨w, hw, x, hx⟩)
      · exact ⟨v, hv, t, hvt⟩
      · exact ⟨w, hw, x, (expands_cons.1 hx).2⟩
  | arrow busy a r iha ihr =>
    obtain ⟨a', r', ha, hr, rfl⟩ := resolve_arrow_eq_ok_iff.1 h
    rw [reachesCycle_arrow, ← iha ha, ← ihr hr, Ty.vars]
    simp only [List.mem_append, or_and_right, exists_or]

/-! ## Application -/

theorem exists_apply_iff (s : Subst) (t : Ty) :
    (∃ u, s.apply t = .ok u) ↔ ∀ v, s.Reaches t v → s.find? v ≠ some .missing := by
  have h := exists_resolve_iff s [] t
  simp only [reachesPast_nil, expands_nil] at h
  exact h

theorem mem_vars_apply_iff (h : s.apply t = .ok u) (hw : s.find? w = none) :
    w ∈ u.vars ↔ s.Reaches t w := by
  rw [mem_vars_resolve_iff h (not_expands_of_unbound hw), reachesPast_nil]

theorem exists_bound_apply_iff (h : s.apply t = .ok u) :
    (∃ w ∈ u.vars, ∃ x, s.find? w = some x) ↔
      ∃ v x, s.Reaches t v ∧ s.find? v = some x ∧ s.Reaches x v := by
  have h := exists_expands_resolve_iff h
  unfold ReachesCycle at h
  simp only [reachesPast_nil, expands_nil] at h
  exact h

/-- **What application leaves.** Application faults if and only if a variable is reachable that is
bound to a missing type. If it answers, the unbound variables of the answer are the unbound
variables that are reachable, and the answer has a bound variable if and only if some reachable
variable is reachable from its own binding. -/
theorem apply_leaves (s : Subst) (t : Ty) :
    match s.apply t with
    | .error _ => ∃ v, s.Reaches t v ∧ s.find? v = some .missing
    | .ok u =>
      (¬ ∃ v, s.Reaches t v ∧ s.find? v = some .missing) ∧
      (∀ v, v ∈ u.freeVars ∧ s.find? v = none ↔ s.Reaches t v ∧ s.find? v = none) ∧
      ((∃ v x, v ∈ u.freeVars ∧ s.find? v = some x) ↔
        ∃ v x, s.Reaches t v ∧ s.find? v = some x ∧ s.Reaches x v) := by
  have answers := exists_apply_iff s t
  match h : s.apply t with
  | .error f =>
    simp only [h, reduceCtorEq, exists_false, false_iff, not_forall, not_not] at answers
    obtain ⟨v, hv, hm⟩ := answers
    exact ⟨v, hv, hm⟩
  | .ok u =>
    refine ⟨?_, fun v => ?_, ?_⟩
    · rintro ⟨v, hv, hm⟩
      exact answers.1 ⟨u, h⟩ v hv hm
    · rw [Ty.mem_freeVars]
      exact and_congr_left fun hv => mem_vars_apply_iff h hv
    · rw [← exists_bound_apply_iff h]
      simp only [Ty.mem_freeVars, exists_and_left]

/-- On a cycle, the variable at which resolution comes back is left. -/
example : (ofList [(0, .var 1), (1, .arrow (.var 0) (.var 2))]).apply (.var 0) =
    .ok (.arrow (.var 0) (.var 2)) := by cbv

end Subst

end Monotype
