import Monotype.Proofs.Renaming

/-!
# Unification as a relation on types

Unification makes two types identical. `unify_eq_empty_iff` says when nothing has to be done for
this: the unifier is empty exactly if the types are identical already. So no two steps cancel each
other, and no variable is bound to itself.

The order of the two types decides which of two variables is bound to the other, and from there on
the two runs work on types with other variables. `unify_mirrors` compares the runs under a renaming:
if the types are renamed by `ρ` and exchanged, the run ends in the same way, and its result is that
of the first run renamed by some `ρ'`. The induction is along the first run. What unified the
arguments gives the renaming under which the returns are compared.
-/

namespace Monotype

open Function

variable {a b t : Ty} {v : VarId} {s older newer : Subst} {ρ : VarId → VarId}

/-! ## Bound variables -/

namespace Subst

/-- The variables that a substitution binds. -/
def domain (s : Subst) : Finset VarId := s.entries.keys.toFinset

theorem mem_domain : v ∈ s.domain ↔ ∃ t, s.find? v = some t := by
  rw [domain, List.mem_toFinset, Std.ExtTreeMap.mem_keys, Std.ExtTreeMap.mem_iff_isSome_getElem?,
    Option.isSome_iff_exists]
  rfl

theorem card_domain (s : Subst) : s.domain.card = s.size := by
  rw [domain, List.toFinset_card_of_nodup Std.ExtTreeMap.nodup_keys, Std.ExtTreeMap.length_keys,
    size]

theorem domain_eq_empty_iff : s.domain = ∅ ↔ s = ∅ := by
  constructor
  · intro h
    by_contra ne
    obtain ⟨v, hv⟩ := exists_find?_of_ne_empty ne
    exact absurd (mem_domain.2 hv) (h ▸ Finset.notMem_empty v)
  · rintro rfl
    refine Finset.eq_empty_of_forall_notMem fun v hv => ?_
    obtain ⟨t, ht⟩ := mem_domain.1 hv
    rw [find?_empty] at ht
    cases ht

theorem size_eq_zero_iff : s.size = 0 ↔ s = ∅ := by
  rw [← card_domain, Finset.card_eq_zero, domain_eq_empty_iff]

theorem domain_singleton (v : VarId) (t : Ty) : (singleton v t).domain = {v} := by
  ext w
  rw [mem_domain, find?_singleton, Finset.mem_singleton]
  split
  next h => exact ⟨fun _ => h.symm, fun _ => ⟨t, rfl⟩⟩
  next h => exact ⟨nofun, fun e => absurd e.symm h⟩

theorem size_singleton (v : VarId) (t : Ty) : (singleton v t).size = 1 := by
  rw [← card_domain, domain_singleton, Finset.card_singleton]

/-- A composition binds what either part binds: nothing is lost. -/
theorem domain_of_compose (h : older.compose newer = .ok s) :
    s.domain = older.domain ∪ newer.domain := by
  ext v
  rw [Finset.mem_union, mem_domain, mem_domain, mem_domain]
  rcases find?_of_compose h v with ⟨ho, hs⟩ | ⟨t, u, ho, -, hs⟩
  · rw [hs, ho]
    exact ⟨.inr, fun h => h.resolve_left nofun⟩
  · rw [hs, ho]
    exact ⟨fun _ => .inl ⟨t, rfl⟩, fun _ => ⟨u, rfl⟩⟩

/-- The number of entries adds up if no variable is bound twice. -/
theorem size_of_compose (h : older.compose newer = .ok s)
    (disjoint : ∀ v t, newer.find? v = some t → older.find? v = none) :
    s.size = older.size + newer.size := by
  rw [← card_domain, ← card_domain, ← card_domain, domain_of_compose h]
  refine Finset.card_union_of_disjoint (Finset.disjoint_left.2 fun v ho hn => ?_)
  obtain ⟨t, ht⟩ := mem_domain.1 hn
  obtain ⟨u, hu⟩ := mem_domain.1 ho
  rw [disjoint v t ht] at hu
  cases hu

theorem compose_eq_empty_iff : older.compose newer = .ok ∅ ↔ older = ∅ ∧ newer = ∅ := by
  constructor
  · intro h
    have bound := (domain_of_compose h).symm
    rw [domain_eq_empty_iff.2 rfl, Finset.union_eq_empty] at bound
    exact bound.imp domain_eq_empty_iff.1 domain_eq_empty_iff.1
  · rintro ⟨rfl, rfl⟩
    rw [compose, if_pos (isEmpty_iff.2 rfl)]

end Subst

/-! ## Identical types -/

theorem bindVar_eq_empty_iff : bindVar v t = .ok ∅ ↔ t = .var v := by
  constructor
  · intro h
    obtain ⟨ht, -⟩ | ⟨-, hs⟩ := bindVar_cases h
    · exact ht
    · have size := Subst.size_singleton v t
      rw [← hs, Subst.size_eq_zero_iff.2 rfl] at size
      cases size
  · rintro rfl
    exact if_pos rfl

theorem Ty.identical_var_iff : (Ty.var v).identical t = true ↔ t = .var v := by
  cases t with
  | var w => rw [identical, beq_iff_eq, var.injEq, eq_comm]
  | missing | const | arrow | foreign => simp [identical]

theorem Ty.identical_comm (a b : Ty) : a.identical b = b.identical a := by
  induction a generalizing b with
  | arrow a r iha ihr =>
    cases b with
    | arrow b q => rw [identical, identical, iha, ihr]
    | missing | const | var | foreign => rfl
  | const | var =>
    cases b with
    | const | var => simp only [identical, BEq.comm]
    | missing | arrow | foreign => rfl
  | missing | foreign => cases b <;> rfl

/-- Types of different shapes are not identical, unless both are missing. -/
theorem Ty.Clash.identical_eq_false (h : a.Clash b) (ha : a.IsComplete) :
    a.identical b = false := by
  cases a with
  | var v => exact absurd rfl (h.left v)
  | missing => exact ha.elim
  | foreign => rfl
  | const m =>
    cases b with
    | const n => exact absurd rfl (h.const m n rfl)
    | missing | var | arrow | foreign => rfl
  | arrow x y =>
    cases b with
    | arrow z w => exact absurd rfl (h.arrow x y z w rfl)
    | missing | const | var | foreign => rfl

/-- **Nothing to do.** -/
theorem unify_eq_empty_iff (ha : a.IsComplete) (hb : b.IsComplete) :
    unify a b = .ok ∅ ↔ a.identical b = true := by
  induction a, b using unify_induction with
  | const m n =>
    rw [unify_const, Ty.identical, beq_iff_eq]
    split
    next h => exact ⟨fun _ => h, fun _ => rfl⟩
    next h => simp [h]
  | var v t => rw [unify_var, bindVar_eq_empty_iff, Ty.identical_var_iff]
  | var' t v ht =>
    rw [unify_var_right ht, bindVar_eq_empty_iff, Ty.identical_comm, Ty.identical_var_iff]
  | arrow a r b q ih ihr =>
    rw [unify_arrow_eq_ok_iff, Ty.identical, Bool.and_eq_true, ← ih ha.1 hb.1]
    constructor
    · rintro ⟨s₁, r', q', s₂, h₁, hr, hq, h₂, h⟩
      obtain ⟨rfl, rfl⟩ := Subst.compose_eq_empty_iff.1 h
      have returns := ihr ∅ r q h₁ (Subst.apply_empty r) (Subst.apply_empty q) ha.2 hb.2
      rw [Subst.apply_empty] at hr hq
      cases hr
      cases hq
      exact ⟨h₁, returns.1 h₂⟩
    · rintro ⟨h₁, same⟩
      have returns := ihr ∅ r q h₁ (Subst.apply_empty r) (Subst.apply_empty q) ha.2 hb.2
      exact ⟨∅, r, q, ∅, h₁, Subst.apply_empty r, Subst.apply_empty q, returns.2 same,
        Subst.compose_eq_empty_iff.2 ⟨rfl, rfl⟩⟩
  | clash a b h =>
    rw [unify_clash h, h.identical_eq_false ha]
    simp

/-- **Unification does nothing exactly on identical types.** Between types without missing parts,
the unifier has no entries if and only if the types are identical. -/
theorem unify_size_eq_zero_iff (a b : Ty) (ha : a.IsComplete) (hb : b.IsComplete) :
    (∃ s, unify a b = .ok s ∧ s.size = 0) ↔ a.identical b = true := by
  rw [← unify_eq_empty_iff ha hb]
  constructor
  · rintro ⟨s, h, hs⟩
    rw [h, Subst.size_eq_zero_iff.1 hs]
  · intro h
    exact ⟨∅, h, Subst.size_eq_zero_iff.2 rfl⟩

/-- The type `(a → int) → a` unifies with itself at no cost. The types `a → a` and `a → b` do not,
and neither does a type of a foreign kind with itself. -/
theorem unify_size_eq_zero_iff_twice :
    ((∃ s, unify (.arrow (.arrow (.var 0) .int) (.var 0))
        (.arrow (.arrow (.var 0) .int) (.var 0)) = .ok s ∧ s.size = 0) ∧
      (Ty.arrow (.arrow (.var 0) .int) (.var 0)).identical
        (.arrow (.arrow (.var 0) .int) (.var 0)) = true) ∧
    (¬ ∃ s, unify (.arrow (.var 0) (.var 0)) (.arrow (.var 0) (.var 1)) = .ok s ∧ s.size = 0) ∧
    ¬ ∃ s, unify (.foreign "list") (.foreign "list") = .ok s ∧ s.size = 0 := by
  have same : (Ty.arrow (.arrow (.var 0) .int) (.var 0)).identical
      (.arrow (.arrow (.var 0) .int) (.var 0)) = true := by decide
  have complete : (Ty.arrow (.arrow (.var 0) .int) (.var 0)).IsComplete :=
    ⟨⟨trivial, trivial⟩, trivial⟩
  refine ⟨⟨(unify_size_eq_zero_iff _ _ complete complete).2 same, same⟩, fun h => ?_, fun h => ?_⟩
  · exact absurd ((unify_size_eq_zero_iff (.arrow (.var 0) (.var 0)) (.arrow (.var 0) (.var 1))
      ⟨trivial, trivial⟩ ⟨trivial, trivial⟩).1 h) (by decide)
  · exact absurd ((unify_size_eq_zero_iff (.foreign "list") (.foreign "list") trivial trivial).1 h)
      (by decide)

/-! ## Exchanged types -/

/-- The error with the two types of a mismatch exchanged. -/
def UnifyError.exchange : UnifyError → UnifyError
  | .mismatch expected actual => .mismatch actual expected
  | .occurs v t => .occurs v t

/-- Two runs of unification, the second on the renamed types, end alike. Two unifiers have equally
many entries, and what the second makes of a renamed type is a renaming of what the first makes of
the type. The second error is a renaming of the first with its types exchanged. -/
inductive Mirrors (ρ : VarId → VarId) : Except UnifyStop Subst → Except UnifyStop Subst → Prop where
  | unifiers {s s' : Subst} {ρ' : VarId → VarId} (inj : Injective ρ')
      (once_eq : ∀ t, s'.once (t.rename ρ) = (s.once t).rename ρ') (size_eq : s'.size = s.size) :
      Mirrors ρ (.ok s) (.ok s')
  | errors {e : UnifyError} {ρ' : VarId → VarId} (inj : Injective ρ') :
      Mirrors ρ (.error (.error e)) (.error (.error (e.exchange.rename ρ')))

/-- Two substitutions agree up to renaming if they do on variables. -/
theorem once_rename_of_image {s s' : Subst} {ρ ρ' : VarId → VarId}
    (h : ∀ v, s'.image (ρ v) = (s.image v).rename ρ') (t : Ty) :
    s'.once (t.rename ρ) = (s.once t).rename ρ' := by
  rw [Ty.rename, Ty.rename, Subst.once_eq_subst, Subst.once_eq_subst,
    Ty.subst_subst, Ty.subst_subst]
  exact Ty.subst_congr fun v _ => h v

theorem mirrors_empty (inj : Injective ρ) : Mirrors ρ (.ok ∅) (.ok ∅) :=
  .unifiers inj (fun t => by rw [Subst.once_empty, Subst.once_empty]) rfl

/-- A variable is bound to a type in which it does not occur. -/
theorem bindVar_of_notMem (h : v ∉ t.vars) : bindVar v t = .ok (.singleton v t) := by
  have ne : t ≠ .var v := by
    rintro rfl
    exact h (List.mem_singleton.2 rfl)
  rw [bindVar, if_neg ne, if_neg h]

theorem Subst.image_singleton_self (v : VarId) (t : Ty) : (Subst.singleton v t).image v = t :=
  image_of_find? (by rw [find?_singleton, if_pos rfl])

theorem Subst.image_singleton_of_ne {w : VarId} (h : w ≠ v) (t : Ty) :
    (Subst.singleton v t).image w = .var w :=
  image_of_unbound (by rw [find?_singleton, if_neg h.symm])

/-- A variable that both runs bind. -/
theorem bindVar_mirrors (inj : Injective ρ) (v : VarId) (t : Ty) :
    Mirrors ρ (bindVar v t) (bindVar (ρ v) (t.rename ρ)) := by
  have mem : ρ v ∈ (t.rename ρ).vars ↔ v ∈ t.vars := by
    rw [Ty.vars_rename, List.mem_map_of_injective inj]
  by_cases hv : v ∈ t.vars
  · simp only [bindVar, Ty.rename_eq_var_iff inj, if_pos hv, if_pos (mem.2 hv)]
    split
    · exact mirrors_empty inj
    · exact .errors (e := .occurs v t) inj
  · rw [bindVar_of_notMem hv, bindVar_of_notMem (mt mem.1 hv)]
    refine .unifiers inj (once_rename_of_image fun w => ?_) ?_
    · by_cases hw : w = v
      · subst hw
        rw [Subst.image_singleton_self, Subst.image_singleton_self]
      · rw [Subst.image_singleton_of_ne hw, Subst.image_singleton_of_ne (inj.ne hw), Ty.rename_var]
    · rw [Subst.size_singleton, Subst.size_singleton]

/-- Two variables: each run binds the one that it finds on the left. -/
theorem bindVar_var_mirrors (inj : Injective ρ) {v w : VarId} (ne : v ≠ w) :
    Mirrors ρ (bindVar v (.var w)) (bindVar (ρ w) (.var (ρ v))) := by
  rw [bindVar_of_notMem (mt List.mem_singleton.1 ne),
    bindVar_of_notMem (mt List.mem_singleton.1 (inj.ne ne.symm))]
  -- the runs leave different variables, which the renaming exchanges
  refine .unifiers ((Equiv.swap (ρ v) (ρ w)).injective.comp inj)
    (once_rename_of_image fun x => ?_) ?_
  · by_cases hw : x = w
    · subst hw
      rw [Subst.image_singleton_self, Subst.image_singleton_of_ne ne.symm, Ty.rename_var,
        comp_apply, Equiv.swap_apply_right]
    · rw [Subst.image_singleton_of_ne (inj.ne hw)]
      by_cases hv : x = v
      · subst hv
        rw [Subst.image_singleton_self, Ty.rename_var, comp_apply, Equiv.swap_apply_right]
      · rw [Subst.image_singleton_of_ne hv, Ty.rename_var, comp_apply,
          Equiv.swap_apply_of_ne_of_ne (inj.ne hv) (inj.ne hw)]
  · rw [Subst.size_singleton, Subst.size_singleton]

theorem Ty.IsPlain.rename (h : t.IsPlain) (ρ : VarId → VarId) : (t.rename ρ).IsPlain :=
  hereditary_isPlain.subst h fun _ _ => trivial

/-- What unified the arguments and then the returns of two function types is composed without loss:
the second unifier binds other variables. -/
theorem exists_compose_of_unify {a r b q : Ty} {s₁ s₂ : Subst} (ha : (Ty.arrow a r).IsPlain)
    (hb : (Ty.arrow b q).IsPlain) (h₁ : unify a b = .ok s₁)
    (h₂ : unify (s₁.once r) (s₁.once q) = .ok s₂) :
    ∃ s, s₁.compose s₂ = .ok s ∧ (∀ t, s.once t = s₂.once (s₁.once t)) ∧
      s.size = s₁.size + s₂.size := by
  have solved₁ := isSolved_of_unify ha.1 hb.1 h₁
  have solved₂ := isSolved_of_unify (solved₁.isPlain_once ha.2) (solved₁.isPlain_once hb.2) h₂
  obtain ⟨s, hs, -⟩ := Subst.exists_compose Ty.hereditary_isPlain solved₁.plain solved₂.plain
  refine ⟨s, hs, solved₂.once_of_compose hs, Subst.size_of_compose hs fun v t hv => ?_⟩
  rcases List.mem_append.1 (solved₂.within v t hv).1 with hmem | hmem
  · exact (solved₁.mem_vars_once hmem).1
  · exact (solved₁.mem_vars_once hmem).1

theorem unify_const_mirrors (inj : Injective ρ) (m n : String) :
    Mirrors ρ (unify (.const m) (.const n)) (unify (.const n) (.const m)) := by
  rw [unify_const, unify_const]
  split
  next h =>
    rw [if_pos h.symm]
    exact mirrors_empty inj
  next h =>
    rw [if_neg (Ne.symm h)]
    exact .errors (e := .mismatch (.const m) (.const n)) inj

/-- A variable that the first run finds on the left, and the second on the right. -/
theorem unify_var_mirrors (inj : Injective ρ) (v : VarId) (t : Ty) :
    Mirrors ρ (unify (.var v) t) (unify (t.rename ρ) (.var (ρ v))) := by
  rw [unify_var]
  by_cases ht : ∃ w, t = .var w
  · obtain ⟨w, rfl⟩ := ht
    rw [Ty.rename_var, unify_var]
    by_cases e : v = w
    · subst e
      exact bindVar_mirrors inj v (.var v)
    · exact bindVar_var_mirrors inj e
  · rw [unify_var_right (Ty.rename_ne_var fun w e => ht ⟨w, e⟩)]
    exact bindVar_mirrors inj v t

/-- Function types, if their arguments are mirrored, and so are their returns under the renaming
that the arguments require. -/
theorem unify_arrow_mirrors {a r b q : Ty} (ha : (Ty.arrow a r).IsPlain)
    (hb : (Ty.arrow b q).IsPlain) (args : Mirrors ρ (unify a b) (unify (b.rename ρ) (a.rename ρ)))
    (returns : ∀ s₁ ρ₁, unify a b = .ok s₁ → s₁.IsSolved (a.vars ++ b.vars) → Injective ρ₁ →
      Mirrors ρ₁ (unify (s₁.once r) (s₁.once q))
        (unify ((s₁.once q).rename ρ₁) ((s₁.once r).rename ρ₁))) :
    Mirrors ρ (unify (.arrow a r) (.arrow b q))
      (unify ((Ty.arrow b q).rename ρ) ((Ty.arrow a r).rename ρ)) := by
  have ha' : (Ty.arrow (a.rename ρ) (r.rename ρ)).IsPlain := ha.rename ρ
  have hb' : (Ty.arrow (b.rename ρ) (q.rename ρ)).IsPlain := hb.rename ρ
  rw [Ty.rename_arrow, Ty.rename_arrow, unify_arrow, unify_arrow]
  generalize hx : unify a b = x at args
  generalize hy : unify (b.rename ρ) (a.rename ρ) = y at args
  cases args with
  | errors inj₁ => exact .errors inj₁
  | @unifiers s₁ s₁' ρ₁ inj₁ once₁ size₁ =>
    have solved := isSolved_of_unify ha.1 hb.1 hx
    have solved' := isSolved_of_unify hb'.1 ha'.1 hy
    simp only [solved.apply_eq_once, solved'.apply_eq_once, ok_bind, mapError_ok]
    have returns := returns s₁ ρ₁ hx solved inj₁
    rw [← once₁, ← once₁] at returns
    generalize hx₂ : unify (s₁.once r) (s₁.once q) = x₂ at returns
    generalize hy₂ : unify (s₁'.once (q.rename ρ)) (s₁'.once (r.rename ρ)) = y₂ at returns
    cases returns with
    | errors inj₂ => exact .errors inj₂
    | @unifiers s₂ s₂' ρ₂ inj₂ once₂ size₂ =>
      obtain ⟨s, hs, once_s, size_s⟩ := exists_compose_of_unify ha hb hx hx₂
      obtain ⟨s', hs', once_s', size_s'⟩ := exists_compose_of_unify hb' ha' hy hy₂
      simp only [ok_bind, hs, hs', mapError_ok]
      refine .unifiers inj₂ (fun t => ?_) ?_
      · rw [once_s', once₁, once₂, once_s]
      · rw [size_s, size_s', size₁, size₂]

theorem Ty.Clash.symm (h : a.Clash b) : b.Clash a :=
  ⟨h.right, h.left, fun m n hb ha => h.const n m ha hb, fun x y z w hb ha => h.arrow z w x y ha hb⟩

/-- **Exchange up to renaming.** -/
theorem unify_mirrors (inj : Injective ρ) (ha : a.IsPlain) (hb : b.IsPlain) :
    Mirrors ρ (unify a b) (unify (b.rename ρ) (a.rename ρ)) := by
  -- the renaming grows along the first run, so it is not fixed in the induction
  induction a, b using unify_induction generalizing ρ with
  | const m n => exact unify_const_mirrors inj m n
  | var v t => exact unify_var_mirrors inj v t
  | var' t v ht =>
    rw [unify_var_right ht, Ty.rename_var, unify_var]
    exact bindVar_mirrors inj v t
  | arrow a r b q ih ihr =>
    refine unify_arrow_mirrors ha hb (ih inj ha.1 hb.1) fun s₁ ρ₁ h₁ solved inj₁ => ?_
    exact ihr s₁ _ _ h₁ (solved.apply_eq_once r) (solved.apply_eq_once q) inj₁
      (solved.isPlain_once ha.2) (solved.isPlain_once hb.2)
  | clash a b h =>
    rw [unify_clash h, unify_clash (h.symm.rename ρ)]
    exact .errors (e := .mismatch a b) inj

/-- **Unification is symmetric up to renaming.** Exchanged types unify if and only if the types do,
and the two unifiers have the same size and give the same printed type. Otherwise both runs end with
the same kind of error: two occurs checks have the same message, and the types of one mismatch are
those of the other, exchanged and renamed. -/
theorem unify_symmetric (a b : Ty) (ha : a.IsPlain) (hb : b.IsPlain) :
    (∃ s s' u u', unify a b = .ok s ∧ unify b a = .ok s' ∧ s.apply a = .ok u ∧ s'.apply a = .ok u' ∧
      u.print = u'.print ∧ s.size = s'.size) ∨
    (∃ v t v' t', unify a b = .error (.error (.occurs v t)) ∧
      unify b a = .error (.error (.occurs v' t')) ∧
      (UnifyError.occurs v t).message = (UnifyError.occurs v' t').message) ∨
    ∃ expected actual expected' actual' ρ, unify a b = .error (.error (.mismatch expected actual)) ∧
      unify b a = .error (.error (.mismatch expected' actual')) ∧ Injective ρ ∧
      actual' = expected.rename ρ ∧ expected' = actual.rename ρ := by
  have runs := unify_mirrors injective_id ha hb
  rw [Ty.rename_id, Ty.rename_id] at runs
  generalize hx : unify a b = x at runs
  generalize hy : unify b a = y at runs
  cases runs with
  | @unifiers s s' ρ inj once_eq size_eq =>
    have rewritten : s'.once a = (s.once a).rename ρ := by rw [← once_eq, Ty.rename_id]
    refine .inl ⟨s, s', s.once a, s'.once a, rfl, rfl, (isSolved_of_unify ha hb hx).apply_eq_once a,
      (isSolved_of_unify hb ha hy).apply_eq_once a, ?_, size_eq.symm⟩
    rw [rewritten, Ty.print_rename inj]
  | @errors e ρ inj =>
    cases e with
    | occurs v t =>
      have message := (UnifyError.occurs v t).message_rename inj
      exact .inr (.inl ⟨v, t, ρ v, t.rename ρ, rfl, rfl, message.symm⟩)
    | mismatch expected actual =>
      exact .inr (.inr ⟨expected, actual, _, _, ρ, rfl, rfl, inj, rfl, rfl⟩)

/-- The types `a → a` and `b → b` unify in both orders. Of `a → a → int` and `b → bool`, one run
compares `b → int` with `bool`, and the other `bool` with `a → int`. Of `a → a` and `b → b → int`,
one run finds `b` in `b → int`, and the other `a` in `a → int`. -/
theorem unify_symmetric_variables :
    (∃ s s' u u', unify (.arrow (.var 0) (.var 0)) (.arrow (.var 1) (.var 1)) = .ok s ∧
      unify (.arrow (.var 1) (.var 1)) (.arrow (.var 0) (.var 0)) = .ok s' ∧
      s.apply (.arrow (.var 0) (.var 0)) = .ok u ∧ s'.apply (.arrow (.var 0) (.var 0)) = .ok u' ∧
      u.print = u'.print ∧ s.size = s'.size) ∧
    (∃ (expected' actual' : Ty) (ρ : VarId → VarId),
      unify (.arrow (.var 0) (.arrow (.var 0) .int)) (.arrow (.var 1) .bool) =
        .error (.error (.mismatch (.arrow (.var 1) .int) .bool)) ∧
      unify (.arrow (.var 1) .bool) (.arrow (.var 0) (.arrow (.var 0) .int)) =
        .error (.error (.mismatch expected' actual')) ∧
      Injective ρ ∧ actual' = .arrow (.var (ρ 1)) .int ∧ expected' = .bool) ∧
    ∃ v' t', unify (.arrow (.var 0) (.var 0)) (.arrow (.var 1) (.arrow (.var 1) .int)) =
        .error (.error (.occurs 1 (.arrow (.var 1) .int))) ∧
      unify (.arrow (.var 1) (.arrow (.var 1) .int)) (.arrow (.var 0) (.var 0)) =
        .error (.error (.occurs v' t')) ∧
      (UnifyError.occurs 1 (.arrow (.var 1) .int)).message = (UnifyError.occurs v' t').message := by
  have unifies : unify (.arrow (.var 0) (.var 0)) (.arrow (.var 1) (.var 1)) =
      .ok (.singleton 0 (.var 1)) := by
    rw [unify_arrow]
    cbv
  have mismatch : unify (.arrow (.var 0) (.arrow (.var 0) .int)) (.arrow (.var 1) .bool) =
      .error (.error (.mismatch (.arrow (.var 1) .int) .bool)) := by
    rw [unify_arrow]
    cbv
  have occurs : unify (.arrow (.var 0) (.var 0)) (.arrow (.var 1) (.arrow (.var 1) .int)) =
      .error (.error (.occurs 1 (.arrow (.var 1) .int))) := by
    rw [unify_arrow]
    cbv
  refine ⟨?_, ?_, ?_⟩
  · rcases unify_symmetric (.arrow (.var 0) (.var 0)) (.arrow (.var 1) (.var 1)) ⟨trivial, trivial⟩
      ⟨trivial, trivial⟩ with h | ⟨v, t, v', t', h, -⟩ | ⟨e, x, e', x', ρ, h, -⟩
    · exact h
    · cases unifies.symm.trans h
    · cases unifies.symm.trans h
  · rcases unify_symmetric (.arrow (.var 0) (.arrow (.var 0) .int)) (.arrow (.var 1) .bool)
      ⟨trivial, trivial, trivial⟩ ⟨trivial, trivial⟩ with
      ⟨s, s', u, u', h, -⟩ | ⟨v, t, v', t', h, -⟩ | ⟨e, x, e', x', ρ, h, h', inj, ha, he⟩
    · cases mismatch.symm.trans h
    · cases mismatch.symm.trans h
    · cases mismatch.symm.trans h
      exact ⟨e', x', ρ, mismatch, h', inj, ha, he⟩
  · rcases unify_symmetric (.arrow (.var 0) (.var 0)) (.arrow (.var 1) (.arrow (.var 1) .int))
      ⟨trivial, trivial⟩ ⟨trivial, trivial, trivial⟩ with
      ⟨s, s', u, u', h, -⟩ | ⟨v, t, v', t', h, h', message⟩ | ⟨e, x, e', x', ρ, h, -⟩
    · cases occurs.symm.trans h
    · cases occurs.symm.trans h
      exact ⟨v', t', occurs, h', message⟩
    · cases occurs.symm.trans h

end Monotype
