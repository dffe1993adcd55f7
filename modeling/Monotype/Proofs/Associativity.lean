import Monotype.Proofs.Composition

/-!
# Associativity of composition

Inference composes what it has found with what the next part requires, and the next part may itself
have composed several substitutions. The grouping makes no difference (`Composable.associate`): if
the last two of three substitutions satisfy the conditions of the composition law, both ways to
compose the three have the same entries.

1. The entry for a variable is the rewritten older one, or else the newer one (`find?_of_compose`).
If nothing is missing, rewriting is substitution by what application makes of the variables
(`find?_compose_limit`). The composition law says the same of a type that is rewritten twice.
2. A composition can be built by a loop that binds the older variables in the newer substitution,
one after the other (`overwrite`). Where one of the two has no entries, the loop need not be run
(`compose_eq_overwrite`, `overwrite_empty_left`, `overwrite_empty_right`).
-/

namespace Monotype

namespace Subst

variable {s s₁ s₂ s₃ older newer : Subst} {t : Ty} {v : VarId}

/-! ## Entry by entry -/

/-- An older binding is rewritten. -/
theorem find?_of_compose_bound (h : older.compose newer = .ok s) (ht : older.find? v = some t) :
    ∃ u, newer.apply t = .ok u ∧ s.find? v = some u := by
  rcases find?_of_compose h v with ⟨ho, -⟩ | ⟨t', u, ho, hu, hs⟩
  · rw [ho] at ht
    cases ht
  · rw [ho] at ht
    cases ht
    exact ⟨u, hu, hs⟩

/-- A newer binding is kept, if there is no older one. -/
theorem find?_of_compose_unbound (h : older.compose newer = .ok s) (hv : older.find? v = none) :
    s.find? v = newer.find? v := by
  rcases find?_of_compose h v with ⟨-, hs⟩ | ⟨t, u, ho, -, -⟩
  · exact hs
  · rw [hv] at ho
    cases ho

/-- The entries of a composition with a substitution without missing parts. -/
theorem find?_compose_limit (complete : newer.Forall Ty.IsComplete)
    (h : older.compose newer = .ok s) (v : VarId) :
    s.find? v = ((older.find? v).map fun t => t.subst newer.limit).or (newer.find? v) := by
  cases ho : older.find? v with
  | none => rw [find?_of_compose_unbound h ho, Option.map_none, Option.none_or]
  | some t =>
    obtain ⟨u, hu, hs⟩ := find?_of_compose_bound h ho
    rw [apply_eq_limit complete] at hu
    cases hu
    rw [hs, Option.map_some, Option.some_or]

/-- Both ways to compose the three substitutions answer, and with the same entries. -/
def Associate (s₁ s₂ s₃ : Subst) : Prop :=
  ∃ s₁₂ s₂₃ s, s₁.compose s₂ = .ok s₁₂ ∧ s₂.compose s₃ = .ok s₂₃ ∧ s₁₂.compose s₃ = .ok s ∧
    s₁.compose s₂₃ = .ok s

theorem Composable.associate (h : s₂.Composable s₃) (complete : s₁.Forall Ty.IsComplete) :
    Associate s₁ s₂ s₃ := by
  obtain ⟨s₁₂, h₁₂, complete₁₂⟩ := exists_compose Ty.hereditary_isComplete complete h.older_complete
  obtain ⟨s₂₃, h₂₃, complete₂₃⟩ :=
    exists_compose Ty.hereditary_isComplete h.older_complete h.newer_complete
  obtain ⟨l, hl, -⟩ := exists_compose Ty.hereditary_isComplete complete₁₂ h.newer_complete
  obtain ⟨r, hr, -⟩ := exists_compose Ty.hereditary_isComplete complete complete₂₃
  -- the composition law, for the types bound in the first substitution
  have law : ∀ t : Ty, (t.subst s₂.limit).subst s₃.limit = t.subst s₂₃.limit := fun t => by
    have twice := h.apply_compose h₂₃ t
    rw [apply_eq_limit complete₂₃] at twice
    exact (Except.ok.inj twice).symm
  have same : l = r := by
    ext1 v
    rw [find?_compose_limit h.newer_complete hl, find?_compose_limit h.older_complete h₁₂,
      find?_compose_limit complete₂₃ hr, find?_compose_limit h.newer_complete h₂₃]
    cases s₁.find? v with
    | none => rfl
    | some t => exact congrArg some (law t)
  exact ⟨s₁₂, s₂₃, l, h₁₂, h₂₃, hl, same ▸ hr⟩

/-! ## The loop -/

/-- Binds the variables of the older substitution in the newer one, in order of id, to their
rewritten types. -/
def overwrite (older newer : Subst) : Except Fault Subst :=
  older.toList.foldlM (fun s e => return s.insert e.1 (← newer.applyRead e.2)) newer

theorem insertMany_union (m m' : Std.ExtTreeMap VarId Ty) (l : List (VarId × Ty)) :
    (m ∪ m').insertMany l = m ∪ m'.insertMany l := by
  induction l generalizing m' with
  | nil => simp
  | cons e l ih =>
    have insert : m ∪ m'.insert e.1 e.2 = (m ∪ m').insert e.1 e.2 :=
      Std.ExtTreeMap.union_insert_right_eq_insert_union (p := ⟨e.1, e.2⟩)
    rw [Std.ExtTreeMap.insertMany_cons, Std.ExtTreeMap.insertMany_cons, ← ih, insert]

theorem foldlM_insert (f : Ty → Except Fault Ty) (l : List (VarId × Ty)) (s : Subst) :
    l.foldlM (fun s e => return s.insert e.1 (← f e.2)) s =
      (mapSndM f l).map fun r => ⟨s.entries.insertMany r⟩ := by
  induction l generalizing s with
  | nil => simp [mapSndM, pure, Except.pure, Except.map]
  | cons e l ih =>
    rw [List.foldlM_cons, mapSndM]
    cases hf : f e.2 with
    | error x => rfl
    | ok u =>
      rw [ok_bind, ok_bind]
      refine (ih (s.insert e.1 u)).trans ?_
      cases mapSndM f l with
      | error x => rfl
      | ok r => exact congrArg Except.ok (congrArg Subst.mk Std.ExtTreeMap.insertMany_cons.symm)

theorem overwrite_eq (older newer : Subst) :
    older.overwrite newer =
      (mapValuesM newer.applyRead older.entries).map fun m => ⟨newer.entries ∪ m⟩ := by
  rw [overwrite, foldlM_insert, toList, mapValuesM]
  cases mapSndM newer.applyRead older.entries.toList with
  | error f => rfl
  | ok r =>
    have nothing : newer.entries ∪ ∅ = newer.entries := Std.ExtTreeMap.ext_getElem? fun {k} => by
      rw [Std.ExtTreeMap.getElem?_union, Std.ExtTreeMap.getElem?_empty, Option.none_or]
    have loop : newer.entries.insertMany r = newer.entries ∪ .ofList r := by
      rw [Std.ExtTreeMap.ofList_eq_insertMany_empty, ← insertMany_union, nothing]
    exact congrArg Except.ok (congrArg Subst.mk loop)

theorem compose_eq_overwrite (older newer : Subst) :
    older.compose newer = if newer.isEmpty then .ok older else older.overwrite newer := by
  rw [compose, overwrite_eq]
  cases mapValuesM newer.applyRead older.entries <;> rfl

theorem overwrite_empty_left (newer : Subst) : (∅ : Subst).overwrite newer = .ok newer := rfl

/-- If all entries can be read, the loop changes nothing where there is nothing to compose with. -/
theorem overwrite_empty_right (readable : older.Forall (· ≠ .missing)) :
    older.overwrite ∅ = .ok older := by
  obtain ⟨m, hm⟩ :=
    exists_mapValuesM (f := (∅ : Subst).applyRead) (m := older.entries) fun v t ht =>
    ⟨t, applyRead_eq_ok_iff.2 ⟨readable v t ht, apply_empty t⟩⟩
  rw [overwrite_eq, hm]
  refine congrArg Except.ok (ext fun v => ?_)
  have entry : (⟨(∅ : Subst).entries ∪ m⟩ : Subst).find? v = m[v]?.or ((∅ : Subst).find? v) :=
    Std.ExtTreeMap.getElem?_union
  rw [entry, find?_empty, Option.or_none]
  rcases getElem?_of_mapValuesM hm v with ⟨ho, hn⟩ | ⟨t, u, ho, hu, hn⟩
  · exact hn.trans ho.symm
  · obtain ⟨-, hu⟩ := applyRead_eq_ok_iff.1 hu
    rw [apply_empty] at hu
    cases hu
    exact hn.trans ho.symm

/-- When a composition answers: there is nothing to compose with, or all older types can be read and
rewritten. -/
theorem exists_compose_iff : (∃ s, older.compose newer = .ok s) ↔
    newer = ∅ ∨ ∀ v t, older.find? v = some t → t ≠ .missing ∧ ∃ u, newer.apply t = .ok u := by
  by_cases empty : newer = ∅
  · subst empty
    exact iff_of_true ⟨older, if_pos (isEmpty_iff.2 rfl)⟩ (.inl rfl)
  · rw [compose_eq_overwrite, if_neg (mt isEmpty_iff.1 empty), overwrite_eq, or_iff_right empty]
    constructor
    · rintro ⟨s, hs⟩ v t ht
      cases hm : mapValuesM newer.applyRead older.entries with
      | error f =>
        rw [hm] at hs
        cases hs
      | ok m =>
        rcases getElem?_of_mapValuesM hm v with ⟨ho, -⟩ | ⟨t', u, ho, hu, -⟩
        · cases ht.symm.trans ho
        · cases ht.symm.trans ho
          exact (applyRead_eq_ok_iff.1 hu).imp_right fun hu => ⟨u, hu⟩
    · intro h
      obtain ⟨m, hm⟩ :=
        exists_mapValuesM (f := newer.applyRead) (m := older.entries) fun v t ht => by
        obtain ⟨readable, u, hu⟩ := h v t ht
        exact ⟨u, applyRead_eq_ok_iff.2 ⟨readable, hu⟩⟩
      exact ⟨_, by rw [hm]; rfl⟩

end Subst

/-! ## Associativity -/

/-- **Composition is associative where inference uses it.** Both ways to compose three substitutions
without missing parts answer, with the same entries, if the last two satisfy the conditions of the
composition law. The pairs that inference composes do, in an environment whose next variables are
unused and do not run out, so what is found before can be composed with them one after the other or
at once.

In general, a composition binds a variable to the rewritten older type, if there is one, and else as
the newer substitution does. It answers if and only if there is nothing to compose with, or all
older types can be read and rewritten. It is what the loop gives that overwrites the newer
substitution, with shortcuts if one of the two has no entries. The shortcuts make no difference if
all older types can be read. -/
theorem compose_associative :
    (∀ s₁ s₂ s₃ : Subst, s₁.Forall Ty.IsComplete → s₂.Composable s₃ → Subst.Associate s₁ s₂ s₃) ∧
    (∀ (c : Context) (env : Option Env) (e : Expr Label), (env.getD ∅).IsFresh →
      (env.getD ∅).next.toInt + e.demand ≤ 2 ^ 63 - 1 →
      ∀ older newer, .compose older newer ∈ (inferTraced (env.getD ∅) (c.start env) e).steps →
        ∀ s₁ : Subst, s₁.Forall Ty.IsComplete → Subst.Associate s₁ older newer) ∧
    (∀ older newer s : Subst, older.compose newer = .ok s → ∀ v,
      (∀ t, older.find? v = some t → ∃ u, newer.apply t = .ok u ∧ s.find? v = some u) ∧
      (older.find? v = none → s.find? v = newer.find? v)) ∧
    (∀ older newer : Subst, (∃ s, older.compose newer = .ok s) ↔
      newer = ∅ ∨ ∀ v t, older.find? v = some t → t ≠ .missing ∧ ∃ u, newer.apply t = .ok u) ∧
    (∀ older newer : Subst, older.compose newer =
      if newer.isEmpty then .ok older
      else if older.isEmpty then .ok newer
      else older.overwrite newer) ∧
    (∀ older newer : Subst, older.Forall (· ≠ .missing) →
      older.compose newer = older.overwrite newer) := by
  refine ⟨fun s₁ s₂ s₃ complete h => h.associate complete,
    fun c env e fresh room older newer hop s₁ complete => ?_,
    fun older newer s hs v =>
      ⟨fun t => Subst.find?_of_compose_bound hs, Subst.find?_of_compose_unbound hs⟩,
    fun older newer => Subst.exists_compose_iff, fun older newer => ?_,
    fun older newer readable => ?_⟩
  · have fresh' : (env.getD ∅).FreshFor (c.start env).next := fresh
    have composable : older.Composable newer := composesOn e fresh' (Supply.room_of_le room) _ hop
    exact composable.associate complete
  · rw [Subst.compose_eq_overwrite]
    by_cases empty : older = ∅
    · subst empty
      rw [Subst.overwrite_empty_left, if_pos (Subst.isEmpty_iff.2 rfl)]
    · rw [if_neg (mt Subst.isEmpty_iff.1 empty)]
  · rw [Subst.compose_eq_overwrite]
    by_cases empty : newer = ∅
    · subst empty
      rw [Subst.overwrite_empty_right readable, if_pos (Subst.isEmpty_iff.2 rfl)]
    · rw [if_neg (mt Subst.isEmpty_iff.1 empty)]

/-- Binds a variable that `chained` binds as well, and one to a type that mentions two others of
`chained`. -/
def overlapping : Subst := .ofList [(0, .const "bool"), (6, .arrow (.var 0) (.var 3))]

theorem find?_overlapping {v : VarId} {t : Ty} (h : overlapping.find? v = some t) :
    v = 0 ∧ t = .const "bool" ∨ v = 6 ∧ t = .arrow (.var 0) (.var 3) := by
  have entries : overlapping.toList = [(0, .const "bool"), (6, .arrow (.var 0) (.var 3))] := by cbv
  have mem := Subst.mem_toList.2 h
  simpa [entries] using mem

/-- The first binding of 0 is kept, and 6 is rewritten by both. In `brokenCall`, the last
composition is made after the argument has failed. -/
theorem compose_associative_overlapping :
    overlapping.Forall Ty.IsComplete ∧ chained.Composable refined ∧
    (∃ s₁₂ s₂₃ s, overlapping.compose chained = .ok s₁₂ ∧ chained.compose refined = .ok s₂₃ ∧
      s₁₂.compose refined = .ok s ∧ overlapping.compose s₂₃ = .ok s ∧
      s.find? 0 = some .bool ∧
      s.find? 6 = some (.arrow (.arrow .int (.arrow .bool (.var 4))) .bool)) ∧
    Subst.Associate overlapping (.singleton 0 (.arrow .int (.var 2)))
      (.singleton 1 (.arrow .int (.var 3))) ∧
    overlapping.compose ∅ = overlapping.overwrite ∅ := by
  have complete : overlapping.Forall Ty.IsComplete := fun v t h => by
    rcases find?_overlapping h with ⟨-, rfl⟩ | ⟨-, rfl⟩ <;> simp [Ty.IsComplete]
  have readable : overlapping.Forall (· ≠ .missing) := fun v t h => by
    rcases find?_overlapping h with ⟨-, rfl⟩ | ⟨-, rfl⟩ <;> simp
  obtain ⟨associative, inference, -, -, -, loop⟩ := compose_associative
  refine ⟨complete, composable_chained, ?_, ?_, loop _ _ readable⟩
  · obtain ⟨s₁₂, s₂₃, s, h₁₂, h₂₃, hl, hr⟩ :=
      associative overlapping chained refined complete composable_chained
    have entries :
        ((overlapping.compose chained >>= (·.compose refined)).map fun s =>
          (s.find? 0, s.find? 6)) =
        .ok (some .bool, some (.arrow (.arrow .int (.arrow .bool (.var 4))) .bool)) := by cbv
    rw [h₁₂, ok_bind, hl] at entries
    obtain ⟨first, last⟩ := Prod.ext_iff.1 (Except.ok.inj entries)
    exact ⟨s₁₂, s₂₃, s, h₁₂, h₂₃, hl, hr, first, last⟩
  · have made :
        .compose (.singleton 0 (.arrow .int (.var 2))) (.singleton 1 (.arrow .int (.var 3))) ∈
          (inferTraced twoFns ⟨2, 0⟩ brokenCall).steps :=
      List.mem_of_getLast? (by cbv)
    exact inference {} (some twoFns) brokenCall isFresh_twoFns (by decide) _ _ made
      overlapping complete

end Monotype
