import Monotype.Proofs.Soundness

/-!
# Annotations

The annotations of an expression are a derivation, written down node by node. In the tree that
inference returns, every node has its type; resolved by the substitution found, the tree is a
derivation (`derivesOn`). If no node occurs twice, the annotations are the labels of that tree
(`getElem?_annotations`), and the typing rules can be read off them (`Derives.isDerivation`).
-/

namespace Monotype

variable {α β : Type}

/-! ## Labels -/

namespace Expr

/-- The labels of the nodes in pre-order. -/
def labels (e : Expr α) : List α := e.nodes.filterMap label?

@[simp] theorem labels_fn (l : α) (x : String) (e : Expr α) :
    (fn l x e).labels = l :: e.labels := rfl

@[simp] theorem labels_call (l : α) (f a : Expr α) :
    (call l f a).labels = l :: (f.labels ++ a.labels) :=
  congrArg (l :: ·) List.filterMap_append

@[simp] theorem labels_cond (l : α) (c y n : Expr α) :
    (cond l c y n).labels = l :: (c.labels ++ y.labels ++ n.labels) := by
  refine congrArg (l :: ·) ?_
  rw [List.filterMap_append, List.filterMap_append]
  rfl

theorem labels_map (f : α → β) (e : Expr α) : (e.map f).labels = e.labels.map f := by
  induction e with
  | missing | int | bool | var | foreign => rfl
  | fn l x e ih => simp [map, ih]
  | call l g a ihf iha => simp [map, ihf, iha]
  | cond l c y n ihc ihy ihn => simp [map, ihc, ihy, ihn]

end Expr

theorem HasType.foreignKind?_eq_none {env : Env} {e : Expr α} {t : Ty} (h : HasType env e t) :
    ∀ node ∈ e.nodes, node.foreignKind? = none := by
  intro node hn
  induction h with
  | int | bool | var => obtain rfl := List.mem_singleton.1 hn; rfl
  | fn _ ih =>
    rcases List.mem_cons.1 hn with rfl | hn
    · rfl
    · exact ih hn
  | call _ _ ihf iha =>
    rcases List.mem_cons.1 hn with rfl | hn
    · rfl
    · exact (List.mem_append.1 hn).elim ihf iha
  | cond _ _ _ ihc ihy ihn =>
    rcases List.mem_cons.1 hn with rfl | hn
    · rfl
    · exact (List.mem_append.1 hn).elim (fun hn => (List.mem_append.1 hn).elim ihc ihy) ihn

/-- A traversal of an expression that has a type reaches all nodes. -/
theorem HasType.walk_eq {env : Env} {e : Expr α} {t : Ty} (h : HasType env e t) :
    e.walk = .ok e.nodes := by
  unfold Expr.walk
  rw [List.findSome?_eq_none_iff.2 h.foreignKind?_eq_none]

/-! ## Derivations by label -/

namespace Annotations

/-- The type of the outermost node. -/
def root? (A : Annotations) (e : Expr Label) : Option Ty := e.label?.bind (A[·]?)

/-- The annotations follow the typing rules. The scope has the parameters around the expression,
innermost first, each with its function, and `p` has the types of the parameters. Any other name has
its declared type, resolved by `s`. -/
def IsDerivation (A : Annotations) (env : Env) (s : Subst) (p : Label → Ty) :
    List (String × Label) → Expr Label → Prop
  | _, .missing | _, .foreign _ _ => False
  | _, .int l _ => A[l]? = some .int
  | _, .bool l _ => A[l]? = some .bool
  | scope, .var l x =>
    match scope.lookup x with
    | some f => A[l]? = some (p f)
    | none => ∃ t u, env.find? x = some t ∧ s.apply t = .ok u ∧ A[l]? = some u
  | scope, .fn l x body =>
    (∃ r, A.root? body = some r ∧ A[l]? = some (.arrow (p l) r)) ∧
      A.IsDerivation env s p ((x, l) :: scope) body
  | scope, .call l callee arg =>
    (∃ a r, A.root? callee = some (.arrow a r) ∧ A.root? arg = some a ∧ A[l]? = some r) ∧
      A.IsDerivation env s p scope callee ∧ A.IsDerivation env s p scope arg
  | scope, .cond l test yes no =>
    (A.root? test = some .bool ∧
        ∃ t, A.root? yes = some t ∧ A.root? no = some t ∧ A[l]? = some t) ∧
      A.IsDerivation env s p scope test ∧ A.IsDerivation env s p scope yes ∧
      A.IsDerivation env s p scope no

end Annotations

section Derives

variable {env env' : Env} {s : Subst} {d : Expr (Label × Ty)} {t : Ty} {A : Annotations}
  {p : Label → Ty} {scope : List (String × Label)}

theorem Derives.root?_eq (h : Derives env d t) (hA : ∀ l u, (l, u) ∈ d.labels → A[l]? = some u) :
    A.root? (d.map Prod.fst) = some t := by
  cases h <;> exact hA _ _ List.mem_cons_self

/-- What the names in scope denote. -/
def Annotations.Binds (env env' : Env) (s : Subst) (p : Label → Ty)
    (scope : List (String × Label)) : Prop :=
  ∀ x u, env'.find? x = some u →
    match scope.lookup x with
    | some f => u = p f
    | none => ∃ t, env.find? x = some t ∧ s.apply t = .ok u

theorem Annotations.Binds.declare (h : Annotations.Binds env env' s p scope) (x : String)
    (l : Label) : Annotations.Binds env (env'.declare x (p l)) s p ((x, l) :: scope) := by
  intro y u hu
  rw [Env.find?_declare] at hu
  rw [List.lookup_cons]
  by_cases e : x = y
  · rw [if_pos e] at hu
    cases hu
    rw [beq_iff_eq.2 e.symm]
  · rw [if_neg e] at hu
    rw [beq_eq_false_iff_ne.2 (Ne.symm e)]
    exact h y u hu

/-- Annotations that agree with a derivation are a derivation. -/
theorem Derives.isDerivation (h : Derives env' d t) (hA : ∀ l u, (l, u) ∈ d.labels → A[l]? = some u)
    (hp : ∀ l a r, A[l]? = some (.arrow a r) → p l = a)
    (binds : Annotations.Binds env env' s p scope) :
    A.IsDerivation env s p scope (d.map Prod.fst) := by
  induction h generalizing scope with
  | int | bool => exact hA _ _ List.mem_cons_self
  | @var _ l x t hx =>
    have hl := hA l t List.mem_cons_self
    have hb := binds x t hx
    simp only [Expr.map, Annotations.IsDerivation]
    cases hs : scope.lookup x with
    | some f =>
      rw [hs] at hb
      exact hl.trans (congrArg some hb)
    | none =>
      rw [hs] at hb
      obtain ⟨t', ht', hu⟩ := hb
      exact ⟨t', t, ht', hu, hl⟩
  | @fn _ l x body a r hbody ih =>
    simp only [Expr.labels_fn, List.mem_cons] at hA
    have hl := hA l _ (.inl rfl)
    obtain rfl := hp l a r hl
    have hA' : ∀ l u, (l, u) ∈ body.labels → A[l]? = some u := fun l u h => hA l u (.inr h)
    exact ⟨⟨r, hbody.root?_eq hA', hl⟩, ih hA' (binds.declare x l)⟩
  | @call _ l f e a r hf he ihf ihe =>
    simp only [Expr.labels_call, List.mem_cons, List.mem_append] at hA
    have hAf : ∀ l u, (l, u) ∈ f.labels → A[l]? = some u := fun l u h => hA l u (.inr (.inl h))
    have hAe : ∀ l u, (l, u) ∈ e.labels → A[l]? = some u := fun l u h => hA l u (.inr (.inr h))
    exact ⟨⟨a, r, hf.root?_eq hAf, he.root?_eq hAe, hA l r (.inl rfl)⟩,
      ihf hAf binds, ihe hAe binds⟩
  | @cond _ l c y n t hc hy hn ihc ihy ihn =>
    simp only [Expr.labels_cond, List.mem_cons, List.mem_append] at hA
    have hAc : ∀ l u, (l, u) ∈ c.labels → A[l]? = some u :=
      fun l u h => hA l u (.inr (.inl (.inl h)))
    have hAy : ∀ l u, (l, u) ∈ y.labels → A[l]? = some u :=
      fun l u h => hA l u (.inr (.inl (.inr h)))
    have hAn : ∀ l u, (l, u) ∈ n.labels → A[l]? = some u := fun l u h => hA l u (.inr (.inr h))
    exact ⟨⟨hc.root?_eq hAc, t, hy.root?_eq hAy, hn.root?_eq hAn, hA l t (.inl rfl)⟩, ihc hAc binds,
      ihy hAy binds, ihn hAn binds⟩

end Derives

/-! ## Annotations of a result -/

/-- Inference leaves the nodes in another order than a traversal visits them, each as often. -/
theorem Expr.perm_leaving (e : Expr α) : e.leaving.Perm e.labels := by
  induction e with
  | missing | int | bool | var | foreign => exact .refl _
  | fn l x e ih =>
    rw [labels_fn, leaving]
    exact (List.perm_append_singleton l _).trans (ih.cons l)
  | call l f a ihf iha =>
    rw [labels_call, leaving, ← List.append_assoc]
    exact (List.perm_append_singleton l _).trans ((ihf.append iha).cons l)
  | cond l c y n ihc ihy ihn =>
    rw [labels_cond, leaving, ← List.append_assoc, ← List.append_assoc]
    exact (List.perm_append_singleton l _).trans (((ihc.append ihy).append ihn).cons l)

/-- What is collected: the resolved types of the nodes of the expression that are in the table. -/
theorem Annotations.getElem?_collect {m A : Annotations} {s : Subst} {e : Expr Label}
    (h : m.collect s e = .ok A) {l : Label} {u : Ty} :
    A[l]? = some u ↔ l ∈ e.labels ∧ ∃ t, m[l]? = some t ∧ s.apply t = .ok u := by
  obtain ⟨nodes, hwalk, h⟩ := bind_eq_ok_iff.1 h
  obtain ⟨es, hes, h⟩ := bind_eq_ok_iff.1 h
  cases h
  obtain rfl : nodes = e.nodes := by
    unfold Expr.walk at hwalk
    split at hwalk <;> cases hwalk
    rfl
  have found : ∀ t, (l, t) ∈ e.labels.filterMap (fun l => m[l]?.map (l, ·)) ↔
      l ∈ e.labels ∧ m[l]? = some t := by
    intro t
    rw [List.mem_filterMap]
    constructor
    · rintro ⟨l', hl', he⟩
      obtain ⟨t', ht', e'⟩ := Option.map_eq_some_iff.1 he
      cases e'
      exact ⟨hl', ht'⟩
    · rintro ⟨hl, ht⟩
      exact ⟨l, hl, by rw [ht]; rfl⟩
  have entries : ∀ w, (l, w) ∈ es ↔ l ∈ e.labels ∧ ∃ t, m[l]? = some t ∧ s.apply t = .ok w := by
    intro w
    constructor
    · intro hw
      obtain ⟨t, ht, hw⟩ := mem_of_mapSndM hes hw
      exact ⟨((found t).1 ht).1, t, ((found t).1 ht).2, hw⟩
    · rintro ⟨hl, t, ht, hw⟩
      obtain ⟨w', hw', hmem⟩ := exists_mem_of_mapSndM hes ((found t).2 ⟨hl, ht⟩)
      rw [hw] at hw'
      cases hw'
      exact hmem
  rw [← entries]
  refine getElem?_ofList_eq_some_iff fun v w hv hw => ?_
  obtain ⟨-, t, ht, hv⟩ := (entries v).1 hv
  obtain ⟨-, t', ht', hw⟩ := (entries w).1 hw
  rw [ht] at ht'
  cases ht'
  rw [hv] at hw
  exact Except.ok.inj hw

/-- **Labels of the tree.** If no node occurs twice, what is collected after the types of a tree
were recorded are the labels of the resolved tree. -/
theorem getElem?_annotations {d : Expr (Label × Ty)} {m A : Annotations} {s : Subst}
    {vs : List VarId} (hs : s.IsSolved vs) (distinct : (d.map Prod.fst).labels.Nodup)
    (h : Annotations.collect (m.insertMany d.leaving) s (d.map Prod.fst) = .ok A) {l : Label}
    {u : Ty} : A[l]? = some u ↔ (l, u) ∈ (d.instantiate s.image).labels := by
  rw [Expr.labels_map] at distinct
  have recorded : ∀ {t}, (l, t) ∈ d.labels → (m.insertMany d.leaving)[l]? = some t := by
    intro t ht
    refine getElem?_insertMany_of_mem (d.perm_leaving.mem_iff.2 ht) fun t' ht' => ?_
    have := List.inj_on_of_nodup_map distinct (d.perm_leaving.mem_iff.1 ht') ht rfl
    exact (Prod.mk.inj this).2
  unfold Expr.instantiate
  rw [Annotations.getElem?_collect h, Expr.labels_map, Expr.labels_map, List.mem_map, List.mem_map]
  constructor
  · rintro ⟨⟨⟨l', t⟩, hmem, rfl⟩, t', ht', hu⟩
    rw [recorded hmem] at ht'
    cases ht'
    exact ⟨(l', t), hmem, by rw [hs.once_of_apply hu]; rfl⟩
  · rintro ⟨⟨l', t⟩, hmem, e⟩
    cases e
    exact ⟨⟨_, hmem, rfl⟩, t, recorded hmem, hs.apply_eq_once t⟩

theorem mem_iff_of_entries {A : Annotations} {d : Expr (Label × Ty)}
    (entries : ∀ {l : Label} {u : Ty}, A[l]? = some u ↔ (l, u) ∈ d.labels) {l : Label} :
    l ∈ A ↔ l ∈ (d.map Prod.fst).labels := by
  rw [Std.ExtTreeMap.mem_iff_isSome_getElem?, Option.isSome_iff_exists, Expr.labels_map,
    List.mem_map]
  constructor
  · rintro ⟨u, hu⟩
    exact ⟨(l, u), entries.1 hu, rfl⟩
  · rintro ⟨⟨l', u⟩, hu, rfl⟩
    exact ⟨u, entries.2 hu⟩

/-- Annotations are collected from the types of the tree that was found, whatever was in the table
before. -/
theorem Context.exists_run_of_annotate {c c' : Context} {env : Option Env} {e : Expr Label}
    {A : Annotations} (h : c.annotate env e = (c', .result A)) :
    ∃ (d : Context) (r : Typed Label) (m : Annotations),
      (c.recording true).run env e = (d, .result r) ∧ d.subst = c'.subst ∧
      Annotations.collect (m.insertMany r.tree.leaving) c'.subst e = .ok A := by
  unfold Context.annotate at h
  match hr : (c.recording true).run env e with
  | (d, .result r) =>
    rw [hr] at h
    have hm := Context.table_of_run rfl hr
    generalize (c.recording true).reset.recorder.table.getD ∅ = m at hm
    dsimp only at h
    rw [hm] at h
    cases hA : Annotations.collect (m.insertMany r.tree.leaving) d.subst e with
    | ok A' =>
      rw [Option.getD_some, hA] at h
      cases h
      exact ⟨d, r, m, rfl, rfl, hA⟩
    | error f =>
      rw [Option.getD_some, hA] at h
      cases h
  | (_, .error _) | (_, .fault _) =>
    rw [hr] at h
    cases h

/-- The argument type of a function, by its label. -/
def Annotations.param (A : Annotations) (l : Label) : Ty :=
  match A[l]? with
  | some (.arrow a _) => a
  | _ => .missing

/-- **Annotations are derivations.** If no node occurs twice, the annotated nodes are those that a
traversal visits, the root has the inferred type, all types are resolved by the substitution found,
and they follow the typing rules. -/
theorem annotate_isDerivation (c c' : Context) (env : Option Env) (e : Expr Label) (A : Annotations)
    (fresh : (env.getD ∅).IsFresh) (room : (env.getD ∅).next.toInt + e.demand ≤ 2 ^ 63 - 1)
    (distinct : e.labels.Nodup) (h : c.annotate env e = (c', .result A)) :
    (∃ nodes, e.walk = .ok nodes ∧ ∀ l : Label, l ∈ A ↔ ∃ node ∈ nodes, node.label? = some l) ∧
    (∀ d : Context, ∃ d' t, d.infer env e = (d', .result t) ∧ A.root? e = some t) ∧
    (∀ (l : Label) (t : Ty), A[l]? = some t → ∀ v ∈ t.vars, c'.subst.find? v = none) ∧
    ∃ p : Label → Ty, A.IsDerivation (env.getD ∅) c'.subst p [] e := by
  obtain ⟨c₁, r, m, hrun, hsubst, hA⟩ := Context.exists_run_of_annotate h
  obtain ⟨⟨vs, hvs⟩, htree, hd⟩ := Context.derives_of_run fresh room hrun
  rw [hsubst] at hvs hd
  have ht := hd.hasType
  rw [Expr.map_fst_instantiate, htree] at ht
  have entries : ∀ {l : Label} {u : Ty}, A[l]? = some u ↔
      (l, u) ∈ (r.tree.instantiate c'.subst.image).labels :=
    getElem?_annotations hvs (htree ▸ distinct) (htree ▸ hA)
  have erased : (r.tree.instantiate c'.subst.image).map Prod.fst = e := by
    rw [Expr.map_fst_instantiate, htree]
  refine ⟨⟨e.nodes, ht.walk_eq, fun l => ?_⟩, fun d => ?_, fun l t hl v hv => ?_, A.param, ?_⟩
  · rw [← List.mem_filterMap]
    show l ∈ A ↔ l ∈ e.labels
    rw [← erased]
    exact mem_iff_of_entries entries
  · obtain ⟨d', hd'⟩ := Context.exists_infer_of_run fresh room hrun d
    refine ⟨d', r.type, hd', ?_⟩
    rw [← erased]
    exact hd.root?_eq fun l u => entries.2
  · obtain ⟨-, t', -, ht'⟩ := (Annotations.getElem?_collect hA).1 hl
    rw [hvs.once_of_apply ht'] at hv
    exact (hvs.mem_vars_once hv).1
  · rw [← erased]
    refine hd.isDerivation (fun l u => entries.2) (fun l a r hl => ?_) fun x u hx => ?_
    · unfold Annotations.param
      rw [hl]
    · rw [Env.find?_subst] at hx
      obtain ⟨t, ht, rfl⟩ := Option.map_eq_some_iff.1 hx
      exact ⟨t, ht, hvs.apply_eq_once t⟩

/-- The types of the nodes of `choice`. -/
def choiceTypes : Annotations :=
  .ofList [(0, Ty.arrow (.arrow .int .bool) .int), (1, Ty.int), (2, Ty.bool),
    (3, Ty.arrow .int .bool), (4, Ty.int), (5, Ty.int), (6, Ty.int)]

theorem annotate_isDerivation_choice :
    ∃ c', ({} : Context).annotate (some openEnv) choice = (c', .result choiceTypes) ∧
      (∃ nodes, choice.walk = .ok nodes ∧
        ∀ l : Label, l ∈ choiceTypes ↔ ∃ node ∈ nodes, node.label? = some l) ∧
      (∀ d : Context, ∃ d' t, d.infer (some openEnv) choice = (d', .result t) ∧
        choiceTypes.root? choice = some t) ∧
      (∀ (l : Label) (t : Ty), choiceTypes[l]? = some t → ∀ v ∈ t.vars, c'.subst.find? v = none) ∧
      ∃ p : Label → Ty, choiceTypes.IsDerivation openEnv c'.subst p [] choice := by
  have h : ({} : Context).annotate (some openEnv) choice =
      ((({} : Context).annotate (some openEnv) choice).1, .result choiceTypes) := by
    cbv
  exact ⟨_, h, annotate_isDerivation {} _ (some openEnv) choice choiceTypes isFresh_openEnv
    (by decide) (by decide) h⟩

end Monotype
