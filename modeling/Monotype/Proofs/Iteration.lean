import Monotype.Proofs.Composition

/-!
# Application in rounds

Application follows a binding to its end as soon as it meets a bound variable, and remembers which
variables are busy. A type can also be rewritten in rounds. A round replaces all bound variables by
their bindings at once, and does not look into what it has put in (`Subst.once`).

If there is no cycle, both come to the same. The rounds that are still needed are at most as many as
there are bound variables that are not busy: the binding of a variable needs one round less than the
variable, and nothing below it comes back to a busy variable (`resolve_eq_iterate`). So one round
for each entry is enough, and further rounds change nothing.
-/

namespace Monotype

namespace Subst

variable {s : Subst} {busy : List VarId} {t x : Ty} {v : VarId}

/-! ## Rounds -/

theorem once_var (h : s.find? v = some x) : s.once (.var v) = x := image_of_find? h

theorem iterate_once_eq_self (h : ∀ v ∈ t.vars, s.find? v = none) (k : Nat) : s.once^[k] t = t :=
  Function.iterate_fixed (once_eq_self h) k

theorem iterate_once_arrow (s : Subst) (a r : Ty) (k : Nat) :
    s.once^[k] (.arrow a r) = .arrow (s.once^[k] a) (s.once^[k] r) := by
  induction k generalizing a r with
  | zero => rfl
  | succ k ih => exact ih (s.once a) (s.once r)

theorem unresolved_nil (s : Subst) : s.unresolved [] = s.size := by
  simp [unresolved, size, Std.ExtTreeMap.length_keys]

/-! ## Resolution -/

theorem Reaches.mono {w : VarId} (h : s.Reaches t w) (sub : ∀ v ∈ t.vars, v ∈ x.vars) :
    s.Reaches x w := by
  induction h with
  | here hv => exact .here (sub _ hv)
  | next _ hu hw ih => exact .next ih hu hw

/-- Below a variable that is expanded, no busy variable is reached. -/
theorem Acyclic.clear_cons (acyclic : s.Acyclic) (h : s.Expands busy v x)
    (clear : ∀ w ∈ busy, ¬ s.Reaches (.var v) w) : ∀ w ∈ v :: busy, ¬ s.Reaches x w := by
  intro w hw hx
  rcases List.mem_cons.1 hw with rfl | hw
  · exact acyclic w x h.2 hx
  · have hv : s.Reaches (.var v) v := .here (by simp [Ty.vars])
    exact clear w hw (hv.trans h.2 hx)

/-- **Resolution in rounds.** -/
theorem resolve_eq_iterate (acyclic : s.Acyclic) (readable : s.Forall (· ≠ .missing))
    (clear : ∀ w ∈ busy, ¬ s.Reaches t w) {k : Nat} (enough : s.unresolved busy ≤ k) :
    s.resolve busy t = .ok (s.once^[k] t) := by
  induction busy, t using resolve_induction s generalizing k with
  | leaf busy t ht hr =>
    rw [hr, iterate_once_eq_self]
    rw [ht]
    exact fun _ hv => nomatch hv
  | stuck busy v hv =>
    -- the variable is not busy, since it is reached
    have unbound : s.find? v = none := by
      refine Option.eq_none_iff_forall_ne_some.2 fun x hx => hv x ⟨fun hbusy => ?_, hx⟩
      exact clear v hbusy (.here (by simp [Ty.vars]))
    rw [resolve_var_stuck hv, iterate_once_eq_self]
    simpa [Ty.vars] using unbound
  | expand busy v x hvx ih =>
    have fewer := unresolved_cons_lt hvx.2 hvx.1
    obtain ⟨j, rfl⟩ : ∃ j, k = j + 1 := ⟨k - 1, by omega⟩
    rw [Function.iterate_succ_apply, once_var hvx.2]
    exact (resolve_var_eq_ok_iff hvx).2
      ⟨readable v x hvx.2, ih (acyclic.clear_cons hvx clear) (by omega)⟩
  | arrow busy a r iha ihr =>
    have clear_arg : ∀ w ∈ busy, ¬ s.Reaches a w := fun w hw h =>
      clear w hw (h.mono fun _ => List.mem_append_left _)
    have clear_ret : ∀ w ∈ busy, ¬ s.Reaches r w := fun w hw h =>
      clear w hw (h.mono fun _ => List.mem_append_right _)
    rw [iterate_once_arrow]
    exact resolve_arrow_eq_ok_iff.2 ⟨_, _, iha clear_arg enough, ihr clear_ret enough, rfl⟩

/-- **Application in rounds.** An acyclic substitution without an unreadable entry makes of a type
what as many rounds make of it as there are entries. So a type stays the same when it is applied
again. -/
theorem apply_eq_iterate (s : Subst) (t : Ty) (acyclic : s.Acyclic)
    (readable : s.Forall (· ≠ .missing)) :
    s.apply t = .ok (s.once^[s.size] t) ∧ s.apply t >>= s.apply = s.apply t := by
  have rounds : ∀ (t : Ty) (k : Nat), s.size ≤ k → s.apply t = .ok (s.once^[k] t) := fun t k hk =>
    resolve_eq_iterate acyclic readable (fun _ hw => absurd hw List.not_mem_nil)
      (by rwa [unresolved_nil])
  refine ⟨rounds t _ (Nat.le_refl _), ?_⟩
  -- a second application is another `s.size` rounds
  calc s.apply t >>= s.apply = s.apply (s.once^[s.size] t) := by
        rw [rounds t _ (Nat.le_refl _), ok_bind]
    _ = .ok (s.once^[s.size + s.size] t) := by
        rw [rounds _ _ (Nat.le_refl _), Function.iterate_add_apply]
    _ = s.apply t := (rounds t _ (Nat.le_add_right _ _)).symm

/-- Each type mentions the variable that is bound next, and a part of the last one is missing. -/
def tower : Subst :=
  .ofList [(0, .arrow (.var 1) (.var 2)), (1, .arrow (.var 2) (.var 3)),
    (2, .arrow .missing (.var 3))]

theorem find?_tower {v : VarId} {t : Ty} (h : tower.find? v = some t) :
    v = 0 ∧ t = .arrow (.var 1) (.var 2) ∨ v = 1 ∧ t = .arrow (.var 2) (.var 3) ∨
      v = 2 ∧ t = .arrow .missing (.var 3) := by
  have entries : tower.toList = [(0, .arrow (.var 1) (.var 2)), (1, .arrow (.var 2) (.var 3)),
      (2, .arrow .missing (.var 3))] := by cbv
  have mem := mem_toList.2 h
  simpa [entries] using mem

/-- All three rounds are needed. -/
theorem apply_eq_iterate_tower :
    tower.size = 3 ∧ tower.apply (.var 0) = .ok (tower.once^[3] (.var 0)) ∧
    tower.once^[3] (.var 0) =
      .arrow (.arrow (.arrow .missing (.var 3)) (.var 3)) (.arrow .missing (.var 3)) ∧
    tower.once^[2] (.var 0) = .arrow (.arrow (.var 2) (.var 3)) (.arrow .missing (.var 3)) ∧
    tower.apply (.var 0) >>= tower.apply = tower.apply (.var 0) := by
  have acyclic : tower.Acyclic := acyclic_of_lt fun v t h => by
    rcases find?_tower h with ⟨rfl, rfl⟩ | ⟨rfl, rfl⟩ | ⟨rfl, rfl⟩ <;> simp [Ty.vars]
  have readable : tower.Forall (· ≠ .missing) := fun v t h => by
    rcases find?_tower h with ⟨-, rfl⟩ | ⟨-, rfl⟩ | ⟨-, rfl⟩ <;> simp
  obtain ⟨rounds, again⟩ := apply_eq_iterate tower (.var 0) acyclic readable
  have size : tower.size = 3 := by cbv
  rw [size] at rounds
  exact ⟨size, rounds, by cbv, by cbv, again⟩

end Subst

end Monotype
