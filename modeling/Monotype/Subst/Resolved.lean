import Monotype.Subst.Apply

/-!
# Resolved substitutions

A substitution is resolved within a list of variables if it mentions only these, and no type bound
in it mentions a variable that it binds. `mem_vars_of_apply` bounds the variables that such a
substitution leaves in a type, and `ResolvedWithin.compose` says that composition keeps the form.
-/

namespace Monotype

namespace Subst

/-- All variables of the substitution are among `vs`, and those of its types are unbound. -/
def ResolvedWithin (s : Subst) (vs : List VarId) : Prop :=
  ∀ v t, s.find? v = some t → v ∈ vs ∧ ∀ w ∈ t.vars, w ∈ vs ∧ s.find? w = none

/-- A variable left by resolution was there already and could not be resolved, or comes from an
entry. -/
theorem mem_vars_of_resolve {s : Subst} {busy : List VarId} {t u : Ty}
    (h : s.resolve busy t = .ok u) {w : VarId} (hw : w ∈ u.vars) :
    (w ∈ t.vars ∧ (s.find? w = none ∨ w ∈ busy)) ∨
      ∃ v x, s.find? v = some x ∧ w ∈ x.vars := by
  fun_induction resolve s busy t generalizing u with
  | case1 busy v hv =>
    cases h
    obtain rfl : w = v := by simpa [Ty.vars] using hw
    exact .inl ⟨hw, .inr hv⟩
  | case2 busy v _ hn =>
    cases h
    obtain rfl : w = v := by simpa [Ty.vars] using hw
    exact .inl ⟨hw, .inl hn⟩
  | case3 busy v _ t ht ih =>
    obtain ⟨t', hr, hu⟩ := bind_eq_ok_iff.1 h
    obtain ⟨_, rfl⟩ := Ty.read_eq_ok_iff.1 hr
    rcases ih _ hu hw with ⟨hmem, _⟩ | hmem
    · exact .inr ⟨v, t', ht, hmem⟩
    · exact .inr hmem
  | case4 busy a r iha ihr =>
    obtain ⟨a', ha, h⟩ := bind_eq_ok_iff.1 h
    obtain ⟨r', hr, h⟩ := bind_eq_ok_iff.1 h
    cases h
    rcases List.mem_append.1 hw with hw | hw
    · exact (iha ha hw).imp_left fun h => ⟨List.mem_append_left _ h.1, h.2⟩
    · exact (ihr hr hw).imp_left fun h => ⟨List.mem_append_right _ h.1, h.2⟩
  | case5 | case6 | case7 => cases h; simp [Ty.vars] at hw

/-- A resolved substitution leaves no variable that it binds. -/
theorem mem_vars_of_apply {s : Subst} {vs : List VarId} (hs : s.ResolvedWithin vs) {t u : Ty}
    (h : s.apply t = .ok u) {w : VarId} (hw : w ∈ u.vars) :
    s.find? w = none ∧ (w ∈ t.vars ∨ w ∈ vs) := by
  rcases mem_vars_of_resolve h hw with ⟨ht, hn⟩ | ⟨v, x, hv, hx⟩
  · exact ⟨hn.resolve_right List.not_mem_nil, .inl ht⟩
  · exact ⟨((hs v x hv).2 w hx).2, .inr ((hs v x hv).2 w hx).1⟩

namespace ResolvedWithin

theorem empty (vs : List VarId) : (∅ : Subst).ResolvedWithin vs := by
  intro v t h
  simp at h

theorem singleton {v : VarId} {t : Ty} {vs : List VarId} (hv : v ∈ vs) (ht : ∀ w ∈ t.vars, w ∈ vs)
    (occurs : v ∉ t.vars) : (Subst.singleton v t).ResolvedWithin vs := by
  intro w x h
  rw [find?_singleton] at h
  split at h
  next e =>
    cases h
    subst e
    refine ⟨hv, fun w hw => ⟨ht w hw, ?_⟩⟩
    rw [find?_singleton, if_neg fun (e : v = w) => occurs (e ▸ hw)]
  next => cases h

/-- The list of variables may be widened. -/
theorem mono {s : Subst} {vs ws : List VarId} (hs : s.ResolvedWithin vs) (sub : ∀ w ∈ vs, w ∈ ws) :
    s.ResolvedWithin ws := by
  intro v t h
  obtain ⟨hv, ht⟩ := hs v t h
  exact ⟨sub v hv, fun w hw => ⟨sub w (ht w hw).1, (ht w hw).2⟩⟩

/-- A newer substitution over variables that the older one does not bind keeps the form. -/
theorem compose {older newer s : Subst} {vs ws : List VarId} (ho : older.ResolvedWithin vs)
    (hn : newer.ResolvedWithin ws) (sub : ∀ w ∈ ws, w ∈ vs) (free : ∀ w ∈ ws, older.find? w = none)
    (h : older.compose newer = .ok s) : s.ResolvedWithin vs := by
  have unbound : ∀ {w}, older.find? w = none → newer.find? w = none → s.find? w = none := by
    intro w how hnw
    rcases find?_of_compose h w with ⟨_, hs⟩ | ⟨t, u, ht, _, _⟩
    · rw [hs, hnw]
    · simp [how] at ht
  intro v x hx
  rcases find?_of_compose h v with ⟨_, hs⟩ | ⟨t, u, ht, hu, hs⟩
  · obtain ⟨hv, hw⟩ := hn v x (hs ▸ hx)
    exact ⟨sub v hv, fun w m => ⟨sub w (hw w m).1, unbound (free w (hw w m).1) (hw w m).2⟩⟩
  · obtain rfl : u = x := by simpa [hs] using hx
    obtain ⟨hv, hw⟩ := ho v t ht
    refine ⟨hv, fun w m => ?_⟩
    obtain ⟨hnw, hmem | hmem⟩ := mem_vars_of_apply hn hu m
    · exact ⟨(hw w hmem).1, unbound (hw w hmem).2 hnw⟩
    · exact ⟨sub w hmem, unbound (free w hmem) hnw⟩

end ResolvedWithin

end Subst

end Monotype
