import Monotype.Proofs.Associativity

/-!
# Rewritten environments

Before inference goes on to the next part of an expression, it rewrites the environment by what it
has found. The loop that does this goes through the entries of the map as it was, and stores in the
map those that change. `rewriteLoop_eq` says that it comes to the same as rewriting every type,
whatever test decides that a type has changed, as long as it misses no change. So an environment is
rewritten type by type (`apply_eq_subst_limit`), and rewriting commutes with declarations and with
composition.
-/

namespace Monotype

namespace Env

variable {env : Env} {s newer c : Subst}

/-- Rewrites the declared types in order of name, and declares anew those that `differs` tells apart
from what they were. -/
def rewriteLoop (differs : String → Ty → Ty → Bool) (env : Env) (s : Subst) : Except Fault Env := do
  return { env with vars := ← updateM differs s.applyRead env.toList env.vars }

section Readable

variable (henv : env.Forall (· ≠ .missing)) (hs : s.Forall (· ≠ .missing))

include henv hs

theorem applyRead_eq_subst_limit {x : String} {t : Ty} (ht : env.find? x = some t) :
    s.applyRead t = .ok (t.subst s.limit) :=
  Subst.applyRead_eq_ok_iff.2 ⟨henv x t ht, Subst.apply_eq_subst_limit hs t⟩

/-- **Rewriting is pointwise.** -/
theorem apply_eq_subst_limit : env.apply s = .ok (env.subst s.limit) :=
  apply_eq_subst fun _ _ => applyRead_eq_subst_limit henv hs

/-- The shortcut for a substitution without entries and the test for changes make no difference. -/
theorem rewriteLoop_eq {differs : String → Ty → Ty → Bool}
    (tells : ∀ x t u, differs x t u = false → t = u) :
    env.rewriteLoop differs s = .ok (env.subst s.limit) := by
  have rewritten : mapValuesM s.applyRead env.vars = .ok (env.subst s.limit).vars :=
    mapValuesM_eq_map fun _ _ => applyRead_eq_subst_limit henv hs
  rw [rewriteLoop, toList, updateM_toList tells, rewritten]
  rfl

theorem readable_subst_limit : (env.subst s.limit).Forall (· ≠ .missing) := by
  intro x u hu
  rw [find?_subst, Option.map_eq_some_iff] at hu
  obtain ⟨t, ht, rfl⟩ := hu
  exact Subst.resolve_ne_missing (henv x t ht) (Subst.apply_eq_subst_limit hs t)

/-- **Rewriting and scoping.** -/
theorem apply_declare (x : String) {t : Ty} (ht : t ≠ .missing) :
    (env.declare x t).apply s = .ok ((env.subst s.limit).declare x (t.subst s.limit)) := by
  rw [apply_eq_subst_limit (forall_declare henv ht) hs, subst_declare]

end Readable

/-- **Rewriting and composition.** -/
theorem apply_compose (henv : env.Forall (· ≠ .missing)) (h : s.Compatible newer)
    (hc : s.compose newer = .ok c) :
    env.apply c = .ok ((env.subst s.limit).subst newer.limit) := by
  rw [subst_subst]
  refine apply_eq_subst fun x t ht => Subst.applyRead_eq_ok_iff.2 ⟨henv x t ht, ?_⟩
  rw [h.apply_compose hc, Ty.subst_subst]

/-- **Rewriting an environment.** If all declared types and all bound types can be read, the
environment can be rewritten. The result has the same names, size and next id, and each name has the
type that application makes of the type it had. The loop that declares only changed types anew comes
to this result, whatever test it uses for changes, as long as it misses none. A name may as well be
declared after rewriting, with the rewritten type. And the composition with a newer substitution,
under the conditions of the composition law, rewrites as both do one after the other. -/
theorem apply_pointwise (env : Env) (s : Subst) (henv : env.Forall (· ≠ .missing))
    (hs : s.Forall (· ≠ .missing)) :
    ∃ env', env.apply s = .ok env' ∧ env'.Forall (· ≠ .missing) ∧ env'.next = env.next ∧
      env'.size = env.size ∧ env'.toList.map Prod.fst = env.toList.map Prod.fst ∧
      (∀ x, env.find? x = none → env'.find? x = none) ∧
      (∀ x t, env.find? x = some t → ∃ u, s.apply t = .ok u ∧ env'.find? x = some u) ∧
      (∀ differs : String → Ty → Ty → Bool, (∀ x t u, differs x t u = false → t = u) →
        env.rewriteLoop differs s = .ok env') ∧
      (∀ x t, t ≠ .missing → ∃ u, s.apply t = .ok u ∧
        (env.declare x t).apply s = .ok (env'.declare x u)) ∧
      ∀ newer, s.Compatible newer → ∃ c env'', s.compose newer = .ok c ∧
        env.apply c = .ok env'' ∧ env'.apply newer = .ok env'' := by
  have readable := readable_subst_limit henv hs
  refine ⟨env.subst s.limit, apply_eq_subst_limit henv hs, readable, rfl, Std.ExtTreeMap.size_map,
    ?_, fun x hx => ?_, fun x t ht => ⟨_, Subst.apply_eq_subst_limit hs t, ?_⟩,
    fun differs tells => rewriteLoop_eq henv hs tells,
    fun x t ht => ⟨_, Subst.apply_eq_subst_limit hs t, apply_declare henv hs x ht⟩,
    fun newer h => ?_⟩
  · show ((env.vars.map fun _ t => t.subst s.limit).toList).map Prod.fst = _
    rw [Std.ExtTreeMap.toList_map, List.map_map]
    rfl
  · rw [find?_subst, hx]
    rfl
  · rw [find?_subst, ht]
    rfl
  · obtain ⟨c, hc⟩ := Subst.exists_compose_iff.2 (.inr fun v t ht =>
      ⟨hs v t ht, _, Subst.apply_eq_subst_limit h.newer_readable t⟩)
    exact ⟨c, _, hc, apply_compose henv h hc, apply_eq_subst_limit readable h.newer_readable⟩

/-- A function with a missing result, and a number. -/
def partlyTyped : Env :=
  (({ next := 6 } : Env).declare "k" (.arrow (.var 0) .missing)).declare "n" .int

/-- The type of `n` stays, and that of `k` is rewritten in two steps. The declaration of `k` is
shadowed by one of a variable that both substitutions bind. -/
theorem apply_pointwise_chained :
    partlyTyped.Forall (· ≠ .missing) ∧ chained.Forall (· ≠ .missing) ∧ chained.Compatible refined ∧
    ∃ env', partlyTyped.apply chained = .ok env' ∧ env'.next = 6 ∧ env'.size = 2 ∧
      env'.find? "k" = some (.arrow (.arrow .int (.var 2)) .missing) ∧ env'.find? "n" = some .int ∧
      env'.find? "z" = none ∧ partlyTyped.rewriteLoop (fun _ _ _ => true) chained = .ok env' ∧
      (partlyTyped.declare "k" (.var 3)).apply chained = .ok (env'.declare "k" .bool) ∧
      ∃ c env'', chained.compose refined = .ok c ∧ partlyTyped.apply c = .ok env'' ∧
        env'.apply refined = .ok env'' ∧
        env''.find? "k" = some (.arrow (.arrow .int (.arrow .bool (.var 4))) .missing) := by
  have henv : partlyTyped.Forall (· ≠ .missing) :=
    forall_declare (forall_declare (fun x t h => by cases h) (by simp)) (by simp [Ty.int])
  have hs := composable_chained.older_readable
  have compatible := composable_chained.toCompatible
  obtain ⟨env', henv', readable, hnext, hsize, -, absent, bound, loop, shadowed, composed⟩ :=
    apply_pointwise partlyTyped chained henv hs
  have hk : partlyTyped.find? "k" = some (.arrow (.var 0) .missing) := by cbv
  obtain ⟨k, hk₁, hk'⟩ := bound "k" _ hk
  have hk₁' : chained.apply (.arrow (.var 0) .missing) =
      .ok (.arrow (.arrow .int (.var 2)) .missing) := by
    cbv
  cases hk₁'.symm.trans hk₁
  have hn : partlyTyped.find? "n" = some .int := by cbv
  obtain ⟨i, hi, hn'⟩ := bound "n" _ hn
  have hi' : chained.apply .int = .ok .int := by cbv
  cases hi'.symm.trans hi
  obtain ⟨b, hb, hshadowed⟩ := shadowed "k" (.var 3) (by simp)
  have hb' : chained.apply (.var 3) = .ok .bool := by cbv
  cases hb'.symm.trans hb
  obtain ⟨c, env'', hc, hcomposed, happlied⟩ := composed refined compatible
  refine ⟨henv, hs, compatible, env', henv', hnext, hsize, hk', hn', absent "z" (by cbv),
    loop _ (by simp), hshadowed, c, env'', hc, hcomposed, happlied, ?_⟩
  obtain ⟨w, hw, -, -, -, -, -, bound', -⟩ :=
    apply_pointwise env' refined readable compatible.newer_readable
  cases happlied.symm.trans hw
  obtain ⟨k, hk₂, hk''⟩ := bound' "k" _ hk'
  have hk₂' : refined.apply (.arrow (.arrow .int (.var 2)) .missing) =
      .ok (.arrow (.arrow .int (.arrow .bool (.var 4))) .missing) := by cbv
  cases hk₂'.symm.trans hk₂
  exact hk''

end Env

end Monotype
