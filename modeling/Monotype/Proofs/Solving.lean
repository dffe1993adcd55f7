import Monotype.Proofs.Generation
import Monotype.Proofs.Unification

/-!
# Solving equations

`solve_cons_cases` says what solving one equation can do: its two sides, rewritten by what was found
before, have a unifier that joins the substitution, or they have none and solving ends here. The
rest follows from it by induction on the list.

* `solve_answers`: the substitution stays resolved within the variables of the equations.
* `exists_solve`: an instance that satisfies all equations solves the result.
* `solve_after`: solving equations after a substitution was found is solving their instances, and
  composing with what was found.

`Generated.run` solves the equations of a part. It takes `andThen` to a sequence, and `run_after`
states the last fact for it. `Subst.SolvedIn` says in addition where the variables of a substitution
come from: the environment, or a range of those handed out.
-/

namespace Monotype

variable {s : Subst} {vs : List VarId} {c : Constraint} {cs ds : List Constraint}

/-- Both sides are plain, and their variables are among `vs`. -/
structure Constraint.Within (vs : List VarId) (c : Constraint) : Prop where
  left : c.left.IsPlain
  right : c.right.IsPlain
  vars : ∀ v ∈ c.left.vars ++ c.right.vars, v ∈ vs

/-! ## One equation -/

theorem solve_append (s : Subst) (cs ds : List Constraint) :
    solve s (cs ++ ds) = solve s cs >>= (solve · ds) := by
  induction cs generalizing s with
  | nil => rfl
  | cons c cs ih =>
    simp only [List.cons_append, solve, ih]
    cases s.apply c.left with
    | error f => rfl
    | ok l =>
      cases s.apply c.right with
      | error f => rfl
      | ok r =>
        cases hu : unify l r with
        | error e => simp only [ok_bind, mapError_ok, hu, mapError_error, error_bind]
        | ok u =>
          simp only [ok_bind, mapError_ok, hu]
          cases s.compose u <;> rfl

/-- The two sides of an equation, rewritten, have only variables that are not bound. -/
theorem free_of_once (hs : s.IsSolved vs) (hc : c.Within vs) {v : VarId}
    (hv : v ∈ (s.once c.left).vars ++ (s.once c.right).vars) : v ∈ vs ∧ s.find? v = none := by
  rcases List.mem_append.1 hv with hv | hv
  · obtain ⟨hn, hmem⟩ := hs.mem_vars_once hv
    exact ⟨hmem.elim (fun h => hc.vars v (List.mem_append_left _ h)) id, hn⟩
  · obtain ⟨hn, hmem⟩ := hs.mem_vars_once hv
    exact ⟨hmem.elim (fun h => hc.vars v (List.mem_append_right _ h)) id, hn⟩

/-- **One equation.** -/
theorem solve_cons_cases (hs : s.IsSolved vs) (hc : c.Within vs) :
    (∃ u s', unify (s.once c.left) (s.once c.right) = .ok u ∧
        u.IsSolved ((s.once c.left).vars ++ (s.once c.right).vars) ∧ s.compose u = .ok s' ∧
        s'.IsSolved vs ∧ ∀ cs, solve s (c :: cs) = solve s' cs) ∨
      ∃ e, unify (s.once c.left) (s.once c.right) = .error (.error e) ∧
        ∀ cs, solve s (c :: cs) = .error (.failed
          ⟨⟨c.reason.error (s.once c.left) (s.once c.right) e, c.site⟩, s⟩) := by
  have hl := hs.apply_eq_once c.left
  have hr := hs.apply_eq_once c.right
  rcases unify_answers (hs.isPlain_once hc.left) (hs.isPlain_once hc.right) with
    ⟨u, hu, hsu⟩ | ⟨e, he⟩
  · obtain ⟨s', hs', hsolved⟩ := hs.exists_compose hsu (fun v hv => (free_of_once hs hc hv).1)
      fun v hv => (free_of_once hs hc hv).2
    refine .inl ⟨u, s', hu, hsu, hs', hsolved, fun cs => ?_⟩
    simp only [solve, hl, hr, hu, hs', mapError_ok, ok_bind]
  · refine .inr ⟨e, he, fun cs => ?_⟩
    simp only [solve, hl, hr, he, mapError_ok, mapError_error, ok_bind, error_bind]

/-! ## Lists of equations -/

/-- Solving ends with a resolved substitution, also if an equation fails. -/
theorem solve_answers (hs : s.IsSolved vs) (hc : ∀ c ∈ cs, c.Within vs) :
    (∃ s', solve s cs = .ok s' ∧ s'.IsSolved vs) ∨
      ∃ f, solve s cs = .error (.failed f) ∧ f.subst.IsSolved vs := by
  induction cs generalizing s with
  | nil => exact .inl ⟨s, rfl, hs⟩
  | cons c cs ih =>
    rcases solve_cons_cases hs (hc c List.mem_cons_self) with ⟨u, s', -, -, -, hs', h⟩ | ⟨e, -, h⟩
    · rw [h]
      exact ih hs' fun c' hc' => hc c' (List.mem_cons_of_mem _ hc')
    · rw [h]
      exact .inr ⟨_, rfl, hs⟩

/-- **Generality of solving.** -/
theorem exists_solve {θ : VarId → Ty} (hs : s.IsSolved vs) (hc : ∀ c ∈ cs, c.Within vs)
    (sol : s.Solves θ) (eqs : ∀ c ∈ cs, c.left.subst θ = c.right.subst θ) :
    ∃ s', solve s cs = .ok s' ∧ s'.Solves θ := by
  induction cs generalizing s with
  | nil => exact ⟨s, rfl, sol⟩
  | cons c cs ih =>
    have hc₀ := hc c List.mem_cons_self
    have e₀ : (s.once c.left).subst θ = (s.once c.right).subst θ := by
      rw [sol.subst_apply (hs.apply_eq_once _), sol.subst_apply (hs.apply_eq_once _),
        eqs c List.mem_cons_self]
    obtain ⟨u, hu, solu⟩ :=
      exists_unify_of_subst_eq (hs.isPlain_once hc₀.left) (hs.isPlain_once hc₀.right) e₀
    rcases solve_cons_cases hs hc₀ with ⟨u', s', hu', -, hs', hsolved, h⟩ | ⟨e, he, -⟩
    · rw [hu] at hu'
      cases hu'
      rw [h]
      exact ih hsolved (fun c' hc' => hc c' (List.mem_cons_of_mem _ hc')) (sol.compose solu hs')
        fun c' hc' => eqs c' (List.mem_cons_of_mem _ hc')
    · rw [hu] at he
      cases he

/-- **Solving after.** The equations solved under `s` and what was found since, `w`, give what
their instances by `s` give under `w` alone, composed with `s`. -/
theorem solve_after {w sw : Subst} {ws : List VarId} (hs : s.IsSolved vs) (hw : w.IsSolved ws)
    (free : ∀ v ∈ ws, v ∈ vs ∧ s.find? v = none) (e : s.compose w = .ok sw)
    (hc : ∀ c ∈ cs, c.Within vs ∧ (c.subst s.image).Within ws) :
    (∃ w' s', solve w (cs.map (·.subst s.image)) = .ok w' ∧ s.compose w' = .ok s' ∧
        solve sw cs = .ok s') ∨
      ∃ f s', solve w (cs.map (·.subst s.image)) = .error (.failed f) ∧
        s.compose f.subst = .ok s' ∧ solve sw cs = .error (.failed { f with subst := s' }) := by
  induction cs generalizing w sw with
  | nil => exact .inl ⟨w, sw, rfl, e, rfl⟩
  | cons c cs ih =>
    obtain ⟨hc₀, hc₀'⟩ := hc c List.mem_cons_self
    have composed : ∀ {w : Subst}, w.IsSolved ws → ∃ x, s.compose w = .ok x ∧ x.IsSolved vs :=
      fun hw => hs.exists_compose hw (fun v hv => (free v hv).1) fun v hv => (free v hv).2
    have hsw := hs.of_compose hw (fun v hv => (free v hv).1) (fun v hv => (free v hv).2) e
    -- both runs unify the same two types
    have sides : ∀ t : Ty, w.once (t.subst s.image) = sw.once t :=
      fun t => (hw.once_of_compose e t).symm
    rcases solve_cons_cases hw hc₀' with ⟨u, w', hu, hsu, hw', hsolved, h⟩ | ⟨err, herr, h⟩
    · rcases solve_cons_cases hsw hc₀ with ⟨u', sw', hu', -, hsw', -, h'⟩ | ⟨err, herr, -⟩
      · obtain rfl : u = u' := by
          simp only [Constraint.subst, sides] at hu
          exact Except.ok.inj (hu.symm.trans hu')
        obtain ⟨x, hx, -⟩ := composed hsolved
        obtain rfl := Subst.compose_assoc hw hsu hsolved e hsw' hw' hx
        rw [List.map_cons, h, h']
        exact ih hsolved hx fun c' hc' => hc c' (List.mem_cons_of_mem _ hc')
      · simp only [Constraint.subst, sides] at hu
        rw [herr] at hu
        cases hu
    · rcases solve_cons_cases hsw hc₀ with ⟨u, sw', hu, -⟩ | ⟨err', herr', h'⟩
      · simp only [Constraint.subst, sides] at herr
        rw [herr] at hu
        cases hu
      · simp only [Constraint.subst, sides] at herr h
        rw [herr] at herr'
        cases herr'
        rw [List.map_cons, h', Constraint.subst, h]
        exact .inr ⟨_, sw, rfl, e, rfl⟩

/-! ## Parts -/

/-- How solving ends for a part, seen from the whole. -/
def Unsolved.inside (step : Step) : Unsolved → Unsolved
  | .failed f => .failed { f with site := step :: f.site }
  | .faulted f => .faulted f

theorem solve_inside (step : Step) (s : Subst) (cs : List Constraint) :
    solve s (cs.map fun c => { c with site := step :: c.site }) =
      (solve s cs).mapError (.inside step) := by
  induction cs generalizing s with
  | nil => rfl
  | cons c cs ih =>
    simp only [List.map_cons, solve, ih]
    cases s.apply c.left with
    | error f => rfl
    | ok l =>
      cases s.apply c.right with
      | error f => rfl
      | ok r =>
        cases hu : unify l r with
        | error e =>
          cases e <;>
            simp only [ok_bind, mapError_ok, hu, mapError_error, error_bind, Unsolved.inside]
        | ok u =>
          simp only [ok_bind, mapError_ok, hu]
          cases s.compose u <;> rfl

namespace Generated

variable {g : Generated}

/-- Solves the equations of a part, after a substitution was found. The type is left as collected.
-/
def run (s : Subst) (g : Generated) : Except Unsolved (Ty × Subst) := do
  let s' ← solve s g.constraints
  match g.result with
  | .error b => .error (.failed ⟨b, s'⟩)
  | .ok t => .ok (t, s')

theorem run_eq_ok_iff {t : Ty} {s' : Subst} :
    g.run s = .ok (t, s') ↔ g.result = .ok t ∧ solve s g.constraints = .ok s' := by
  unfold run
  rw [bind_eq_ok_iff]
  cases g.result with
  | error b => simp
  | ok u =>
    constructor
    · rintro ⟨a, h, e⟩
      cases e
      exact ⟨rfl, h⟩
    · rintro ⟨e, h⟩
      cases e
      exact ⟨s', h, rfl⟩

theorem run_inside (step : Step) (s : Subst) (g : Generated) :
    (g.inside step).run s = (g.run s).mapError (.inside step) := by
  unfold run
  simp only [inside, solve_inside]
  cases solve s g.constraints with
  | error e => rfl
  | ok s' => cases g.result <;> rfl

/-- Parts that are put together are solved one after the other. -/
theorem run_andThen (s : Subst) (g : Generated) (f : Ty → Supply → Generated) :
    (g.andThen f).run s = g.run s >>= fun r => (f r.1 g.supply).run r.2 := by
  unfold andThen
  cases hr : g.result with
  | error b =>
    unfold run
    cases solve s g.constraints <;> simp only [hr, ok_bind, error_bind]
  | ok t =>
    unfold run
    simp only [hr, solve_append]
    cases solve s g.constraints <;> rfl

theorem run_part_of_ok {step : Step} {f : Ty → Supply → Generated} {t : Ty} {s' : Subst}
    (h : g.run s = .ok (t, s')) : ((g.inside step).andThen f).run s = (f t g.supply).run s' := by
  rw [run_andThen, run_inside, h]; rfl

theorem supply_part_of_ok {step : Step} {f : Ty → Supply → Generated} {t : Ty} {s' : Subst}
    (h : g.run s = .ok (t, s')) :
    ((g.inside step).andThen f).supply = (f t g.supply).supply := by
  unfold andThen inside
  rw [(run_eq_ok_iff.1 h).1]; rfl

theorem run_part_of_error {step : Step} {f : Ty → Supply → Generated} {e : Unsolved}
    (h : g.run s = .error e) : ((g.inside step).andThen f).run s = .error (e.inside step) := by
  rw [run_andThen, run_inside, h]; rfl

/-- All equations are within `vs`. -/
def Within (vs : List VarId) (g : Generated) : Prop := ∀ c ∈ g.constraints, c.Within vs

/-- **A part after another.** -/
theorem run_after (hs : s.IsSolved vs) (hg : g.Within vs) :
    (∃ t w s', g.result = .ok t ∧ (g.subst s.image).run ∅ = .ok (s.once t, w) ∧
        s.compose w = .ok s' ∧ g.run s = .ok (t, s')) ∨
      ∃ f s', (g.subst s.image).run ∅ = .error (.failed f) ∧ s.compose f.subst = .ok s' ∧
        g.run s = .error (.failed { f with subst := s' }) := by
  have sides : ∀ c ∈ g.constraints, c.Within vs ∧
      (c.subst s.image).Within (vs.filter fun v => (s.find? v).isNone) := by
    intro c hc
    refine ⟨hg c hc, hs.isPlain_once (hg c hc).left, hs.isPlain_once (hg c hc).right,
      fun v hv => ?_⟩
    obtain ⟨hmem, hfree⟩ := free_of_once hs (hg c hc) hv
    exact List.mem_filter.2 ⟨hmem, by rw [hfree]; rfl⟩
  have free : ∀ v ∈ vs.filter (fun v => (s.find? v).isNone), v ∈ vs ∧ s.find? v = none := by
    intro v hv
    obtain ⟨hmem, hn⟩ := List.mem_filter.1 hv
    exact ⟨hmem, Option.isNone_iff_eq_none.1 hn⟩
  have start : s.compose ∅ = .ok s := by
    unfold Subst.compose
    rw [if_pos (Subst.isEmpty_iff.2 rfl)]
  rcases solve_after hs (.empty _) free start sides with ⟨w, s', h, hs', h'⟩ | ⟨f, s', h, hs', h'⟩
  · cases hr : g.result with
    | error b =>
      refine .inr ⟨⟨b, w⟩, s', ?_, hs', ?_⟩
      · simp only [run, subst, h, hr, Except.map, ok_bind]
      · simp only [run, h', hr, ok_bind]
    | ok t =>
      refine .inl ⟨t, w, s', rfl, ?_, hs', ?_⟩
      · simp only [run, subst, h, hr, Except.map, ok_bind, Subst.once_eq_subst]
      · simp only [run, h', hr, ok_bind]
  · refine .inr ⟨f, s', ?_, hs', ?_⟩
    · simp only [run, subst, h, error_bind]
    · simp only [run, h', error_bind]

end Generated

/-! ## Substitutions in scope -/

namespace Subst

/-- Resolved and plain, with variables that occur in the environment or lie in a range. -/
def SolvedIn (env : Env) (lo hi : Int) (s : Subst) : Prop :=
  ∃ vs, s.IsSolved vs ∧ ∀ v ∈ vs, env.Mentions v ∨ (lo ≤ v.toInt ∧ v.toInt < hi)

variable {env : Env} {lo hi lo' hi' : Int} {s : Subst} {n : VarId}

theorem SolvedIn.empty (env : Env) (lo hi : Int) : (∅ : Subst).SolvedIn env lo hi :=
  ⟨[], .empty [], fun _ hv => nomatch hv⟩

theorem SolvedIn.isSolved (hs : s.SolvedIn env lo hi) : ∃ vs, s.IsSolved vs :=
  hs.imp fun _ h => h.1

theorem SolvedIn.mono (hs : s.SolvedIn env lo hi) (hlo : lo' ≤ lo) (hhi : hi ≤ hi') :
    s.SolvedIn env lo' hi' := by
  obtain ⟨vs, hs, scope⟩ := hs
  refine ⟨vs, hs, fun v hv => (scope v hv).imp_right fun h => ?_⟩
  omega

theorem SolvedIn.of_declare {x : String} {v : VarId}
    (hs : s.SolvedIn (env.declare x (.var v)) lo hi) (hlo : lo' ≤ lo) (hv : lo' ≤ v.toInt)
    (hv' : v.toInt < hi) : s.SolvedIn env lo' hi := by
  obtain ⟨vs, hs, scope⟩ := hs
  exact ⟨vs, hs, fun w hw => Env.scope_of_declare (scope w hw) hlo hv hv'⟩

/-- Variables beyond the range are unbound. -/
theorem SolvedIn.unbound (hs : s.SolvedIn env lo hi) (fresh : env.FreshFor n) (hn : n.toInt ≤ hi)
    {v : VarId} (hv : hi ≤ v.toInt) : s.find? v = none := by
  obtain ⟨vs, hs, scope⟩ := hs
  cases h : s.find? v with
  | none => rfl
  | some t =>
    rcases scope v (hs.within v t h).1 with hm | hr
    · have := fresh.lt hm
      omega
    · omega

/-- The rewritten environment is plain, and its variables are below the range. -/
theorem SolvedIn.freshFor_subst (hs : s.SolvedIn env lo hi) (fresh : env.FreshFor n) {m : VarId}
    (hn : n.toInt ≤ m.toInt) (hm : hi ≤ m.toInt) : (env.subst s.image).FreshFor m := by
  obtain ⟨vs, hs, scope⟩ := hs
  intro x u hu
  rw [Env.find?_subst] at hu
  obtain ⟨t, ht, rfl⟩ := Option.map_eq_some_iff.1 hu
  refine ⟨hs.isPlain_once (fresh x t ht).1, fun v hv => Int64.lt_iff_toInt_lt.2 ?_⟩
  rcases (hs.mem_vars_once hv).2 with hv | hv
  · have := fresh.lt ⟨x, t, ht, hv⟩
    omega
  · rcases scope v hv with hm' | hr
    · have := fresh.lt hm'
      omega
    · omega

/-- Types in scope can be added to the variables within which a substitution is resolved. -/
theorem SolvedIn.extend (hs : s.SolvedIn env lo hi) {ws : List VarId}
    (scope : ∀ v ∈ ws, env.Mentions v ∨ (lo ≤ v.toInt ∧ v.toInt < hi)) :
    ∃ vs, s.IsSolved vs ∧ (∀ v ∈ ws, v ∈ vs) ∧
      ∀ v ∈ vs, env.Mentions v ∨ (lo ≤ v.toInt ∧ v.toInt < hi) := by
  obtain ⟨vs, hs, hvs⟩ := hs
  refine ⟨vs ++ ws, hs.mono fun v hv => List.mem_append_left _ hv,
    fun v hv => List.mem_append_right _ hv, fun v hv => ?_⟩
  exact (List.mem_append.1 hv).elim (hvs v) (scope v)

end Subst

namespace Generated

variable {env : Env} {lo : Int} {n : Supply} {k : Nat} {g : Generated} {s s' : Subst}

/-- The equations of a part, after a substitution in scope was found. -/
theorem Spans.within (hg : g.Spans env lo n k) (hs : s.SolvedIn env lo n.next.toInt) :
    ∃ vs, s.IsSolved vs ∧ g.Within vs ∧
      ∀ v ∈ vs, env.Mentions v ∨ (lo ≤ v.toInt ∧ v.toInt < g.supply.next.toInt) := by
  have scope : ∀ v ∈ g.constraints.flatMap (fun c => c.left.vars ++ c.right.vars),
      env.Mentions v ∨ (lo ≤ v.toInt ∧ v.toInt < g.supply.next.toInt) := by
    intro v hv
    obtain ⟨c, hc, hv⟩ := List.mem_flatMap.1 hv
    exact (List.mem_append.1 hv).elim ((hg.constraints c hc).1.vars v)
      ((hg.constraints c hc).2.vars v)
  obtain ⟨vs, hvs, sub, hscope⟩ := (hs.mono (Int.le_refl _) hg.le).extend scope
  refine ⟨vs, hvs, fun c hc => ?_, hscope⟩
  exact ⟨(hg.constraints c hc).1.plain, (hg.constraints c hc).2.plain,
    fun v hv => sub v (List.mem_flatMap.2 ⟨c, hc, hv⟩)⟩

theorem Spans.solvedIn_of_run (hg : g.Spans env lo n k) (hs : s.SolvedIn env lo n.next.toInt)
    {t : Ty} (h : g.run s = .ok (t, s')) : s'.SolvedIn env lo g.supply.next.toInt := by
  obtain ⟨vs, hvs, hw, scope⟩ := hg.within hs
  rcases solve_answers hvs hw with ⟨s'', h', hs''⟩ | ⟨f, h', -⟩
  · rw [(run_eq_ok_iff.1 h).2] at h'
    cases h'
    exact ⟨vs, hs'', scope⟩
  · rw [(run_eq_ok_iff.1 h).2] at h'
    cases h'

/-- One equation at the root. -/
theorem run_require {l r : Ty} (hs : s.SolvedIn env lo n.next.toInt)
    (hl : l.InScope env lo n.next.toInt) (hr : r.InScope env lo n.next.toInt) (reason : Reason)
    (t : Ty) :
    (∃ u s', unify (s.once l) (s.once r) = .ok u ∧ (∃ us, u.IsSolved us) ∧ s.compose u = .ok s' ∧
        (require l r reason t n).run s = .ok (t, s')) ∨
      ∃ e, unify (s.once l) (s.once r) = .error (.error e) ∧ (require l r reason t n).run s =
        .error (.failed ⟨⟨reason.error (s.once l) (s.once r) e, []⟩, s⟩) := by
  obtain ⟨vs, hvs, sub, -⟩ := hs.extend fun v (hv : v ∈ l.vars ++ r.vars) =>
    (List.mem_append.1 hv).elim (hl.vars v) (hr.vars v)
  have hc : Constraint.Within vs ⟨l, r, reason, []⟩ := ⟨hl.plain, hr.plain, sub⟩
  rcases solve_cons_cases hvs hc with ⟨u, s', hu, hsu, hs', -, h⟩ | ⟨e, he, h⟩
  · exact .inl ⟨u, s', hu, ⟨_, hsu⟩, hs', by unfold run require; rw [h]; rfl⟩
  · exact .inr ⟨e, he, by unfold run require; rw [h]; rfl⟩

end Generated

end Monotype
