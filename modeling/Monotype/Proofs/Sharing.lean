import Monotype.Proofs.Positions
import Monotype.Proofs.Reuse
import Monotype.Proofs.Totality

/-!
# Annotations of shared nodes

A node may occur at several positions of an expression, under different binders and with a different
type at each. Inference records the type of a node when it leaves it, so the table has the type of
the occurrence that was left last. Annotations are then read in pre-order. No node is a part of
itself, so the occurrence left last is also the last one in pre-order (`lookup_leaving`).

What is recorded for an occurrence is the type that the call of inference for it found
(`exists_call_of_recorded`). `annotate_agrees` says what follows for contexts: annotation ends as
inference does, and each node has the resolved type of its last occurrence.
-/

namespace Monotype

variable {α : Type}

/-! ## Last occurrences -/

namespace Expr

/-- The last position, in pre-order, of the node with a label. -/
def lastAt? [DecidableEq α] (e : Expr α) (l : α) : Option Path :=
  e.positions.reverse.find? fun p => e.labelAt? p = some l

/-- No node is a part of itself: its label is not among those of its parts. -/
def Grounded : Expr α → Prop
  | .missing | .int _ _ | .bool _ _ | .var _ _ | .foreign _ _ => True
  | .fn l _ e => l ∉ e.labels ∧ e.Grounded
  | .call l f a => l ∉ f.labels ++ a.labels ∧ f.Grounded ∧ a.Grounded
  | .cond l c y n => l ∉ c.labels ++ y.labels ++ n.labels ∧ c.Grounded ∧ y.Grounded ∧ n.Grounded

theorem sizeOf_le_of_mem_nodes {e node : Expr α} (h : node ∈ e.nodes) : sizeOf node ≤ sizeOf e := by
  induction e with
  | missing => cases h
  | int | bool | var | foreign => rw [List.mem_singleton.1 h]
  | fn l x e ih =>
    rcases List.mem_cons.1 h with rfl | h
    · exact Nat.le_refl _
    · have := ih h
      rw [fn.sizeOf_spec]
      omega
  | call l f a ihf iha =>
    rcases List.mem_cons.1 h with rfl | h
    · exact Nat.le_refl _
    · have := (List.mem_append.1 h).imp ihf iha
      rw [call.sizeOf_spec]
      omega
  | cond l c y n ihc ihy ihn =>
    rcases List.mem_cons.1 h with rfl | h
    · exact Nat.le_refl _
    · have := (List.mem_append.1 h).imp (fun h => (List.mem_append.1 h).imp ihc ihy) ihn
      rw [cond.sizeOf_spec]
      omega

/-- If the label tells which node it is, then no node is a part of itself: it is larger than its
parts. -/
theorem Grounded.of_identity {e : Expr α}
    (h : ∀ a ∈ e.nodes, ∀ b ∈ e.nodes, a.label? = b.label? → a = b) : e.Grounded := by
  have absent : ∀ {d : Expr α} {l : α} {parts : List (Expr α)},
      (∀ a ∈ d :: parts, ∀ b ∈ d :: parts, a.label? = b.label? → a = b) → d.label? = some l →
      (∀ node ∈ parts, sizeOf node < sizeOf d) → l ∉ parts.filterMap label? := by
    intro d l parts h hl smaller hmem
    obtain ⟨node, hnode, hlabel⟩ := List.mem_filterMap.1 hmem
    obtain rfl := h d List.mem_cons_self node (List.mem_cons_of_mem _ hnode) (hl.trans hlabel.symm)
    exact Nat.lt_irrefl _ (smaller d hnode)
  induction e with
  | missing | int | bool | var | foreign => trivial
  | fn l x e ih =>
    refine ⟨absent h rfl fun node hnode => ?_, ih fun a ha b hb => ?_⟩
    · have := sizeOf_le_of_mem_nodes hnode
      rw [fn.sizeOf_spec]
      omega
    · exact h a (List.mem_cons_of_mem _ ha) b (List.mem_cons_of_mem _ hb)
  | call l f a ihf iha =>
    have root := absent h rfl fun node hnode => by
      have := (List.mem_append.1 hnode).imp sizeOf_le_of_mem_nodes sizeOf_le_of_mem_nodes
      rw [call.sizeOf_spec]
      omega
    rw [List.filterMap_append] at root
    simp only [nodes, List.mem_cons, List.mem_append] at h
    exact ⟨root, ihf fun a ha b hb => h a (.inr (.inl ha)) b (.inr (.inl hb)),
      iha fun a ha b hb => h a (.inr (.inr ha)) b (.inr (.inr hb))⟩
  | cond l c y n ihc ihy ihn =>
    have root := absent h rfl fun node hnode => by
      have := (List.mem_append.1 hnode).imp
        (fun h => (List.mem_append.1 h).imp sizeOf_le_of_mem_nodes sizeOf_le_of_mem_nodes)
        sizeOf_le_of_mem_nodes
      rw [cond.sizeOf_spec]
      omega
    rw [List.filterMap_append, List.filterMap_append] at root
    simp only [nodes, List.mem_cons, List.mem_append] at h
    exact ⟨root, ihc fun a ha b hb => h a (.inr (.inl (.inl ha))) b (.inr (.inl (.inl hb))),
      ihy fun a ha b hb => h a (.inr (.inl (.inr ha))) b (.inr (.inl (.inr hb))),
      ihn fun a ha b hb => h a (.inr (.inr ha)) b (.inr (.inr hb))⟩

end Expr

/-! ## The last write -/

/-- The table has the last type recorded for a label. -/
theorem getElem?_insertMany (m : Annotations) (xs : List (Label × Ty)) (l : Label) :
    (m.insertMany xs)[l]? = (xs.reverse.lookup l).or m[l]? := by
  induction xs generalizing m with
  | nil => simp
  | cons x xs ih =>
    rw [Std.ExtTreeMap.insertMany_cons, ih, List.reverse_cons, List.lookup_append, Option.or_assoc]
    refine congrArg _ ?_
    rw [Std.ExtTreeMap.getElem?_insert, List.lookup_cons, List.lookup_nil]
    by_cases e : l = x.1
    · simp [e]
    · simp [Ne.symm e, beq_eq_false_iff_ne.2 e]

/-- A node that is left after its parts may as well be listed before them, if it is none of them. -/
theorem lookup_append_singleton {x : Label × Ty} {xs ys : List (Label × Ty)} {l : Label}
    (h : xs.reverse.lookup l = ys.reverse.lookup l) (absent : x.1 ∉ ys.map Prod.fst) :
    (xs ++ [x]).reverse.lookup l = (x :: ys).reverse.lookup l := by
  rw [List.reverse_append, List.reverse_singleton, List.singleton_append, List.reverse_cons,
    List.lookup_append, List.lookup_cons, List.lookup_cons, List.lookup_nil, h]
  by_cases e : l = x.1
  · have none : ys.reverse.lookup l = none := by
      refine List.lookup_eq_none_iff.2 fun y hy => bne_iff_ne.2 fun e' => absent ?_
      rw [← e, e']
      exact List.mem_map_of_mem (List.mem_reverse.1 hy)
    rw [none, beq_iff_eq.2 e]
    rfl
  · rw [beq_eq_false_iff_ne.2 e]
    exact (Option.or_none).symm

/-- **The last occurrence.** -/
theorem lookup_leaving {d : Expr (Label × Ty)} (h : (d.map Prod.fst).Grounded) (l : Label) :
    d.leaving.reverse.lookup l = d.labels.reverse.lookup l := by
  induction d with
  | missing | int | bool | var | foreign => rfl
  | fn k x e ih =>
    obtain ⟨absent, he⟩ := h
    rw [Expr.labels_map] at absent
    rw [Expr.leaving, Expr.labels_fn]
    exact lookup_append_singleton (ih he) absent
  | call k f a ihf iha =>
    obtain ⟨absent, hf, ha⟩ := h
    rw [Expr.labels_map, Expr.labels_map, ← List.map_append] at absent
    rw [Expr.leaving, Expr.labels_call, ← List.append_assoc]
    refine lookup_append_singleton ?_ absent
    rw [List.reverse_append, List.reverse_append, List.lookup_append, List.lookup_append,
      ihf hf, iha ha]
  | cond k c y n ihc ihy ihn =>
    obtain ⟨absent, hc, hy, hn⟩ := h
    rw [Expr.labels_map, Expr.labels_map, Expr.labels_map, ← List.map_append,
      ← List.map_append] at absent
    rw [Expr.leaving, Expr.labels_cond, ← List.append_assoc, ← List.append_assoc]
    refine lookup_append_singleton ?_ absent
    simp only [List.reverse_append, List.lookup_append, ihc hc, ihy hy, ihn hn]

theorem lookup_filterMap (f : Path → Option (Label × Ty)) (ps : List Path) (l : Label) :
    (ps.filterMap f).lookup l =
      (ps.find? fun p => (f p).map Prod.fst = some l).bind fun p => (f p).map Prod.snd := by
  induction ps with
  | nil => rfl
  | cons p ps ih =>
    cases hp : f p with
    | none => simp [hp, ih]
    | some x =>
      rw [List.filterMap_cons_some hp, List.lookup_cons, List.find?_cons, hp, Option.map_some]
      by_cases e : l = x.1
      · simp [e, hp]
      · simp [Ne.symm e, beq_eq_false_iff_ne.2 e, ih]

/-- The last type of a label in the tree is the one at its last position. -/
theorem lookup_labels (d : Expr (Label × Ty)) (l : Label) :
    d.labels.reverse.lookup l =
      ((d.map Prod.fst).lastAt? l).bind fun p => (d.labelAt? p).map Prod.snd := by
  unfold Expr.lastAt?
  simp only [← d.filterMap_labelAt?, ← List.filterMap_reverse, lookup_filterMap, Expr.positions_map,
    Expr.labelAt?_map]

theorem Expr.exists_lastAt? {e : Expr Label} {l : Label} (h : l ∈ e.labels) :
    ∃ p, e.lastAt? l = some p ∧ e.labelAt? p = some l := by
  rw [← e.filterMap_labelAt?] at h
  obtain ⟨q, hq, hl⟩ := List.mem_filterMap.1 h
  have found : (e.lastAt? l).isSome :=
    List.find?_isSome.2 ⟨q, List.mem_reverse.2 hq, decide_eq_true hl⟩
  obtain ⟨p, hp⟩ := Option.isSome_iff_exists.1 found
  have at_last := List.find?_some hp
  exact ⟨p, hp, of_decide_eq_true at_last⟩

/-- The call for the last occurrence of a node finds a type, which a substitution resolves to `u`.
-/
def Call.FindsLast (c : Call Label) (s : Subst) (l : Label) (u : Ty) : Prop :=
  ∃ (p : Path) (d : Call Label) (r : Typed Label),
    c.expr.lastAt? l = some p ∧ c.at? p = some d ∧ c.expr.at? p = some d.expr ∧
    Relation.ReflTransGen Makes c d ∧ d.outcome = .ok r ∧ s.apply r.type = .ok u

/-- **What is recorded.** -/
theorem exists_call_of_recorded {env : Env} {n : Supply} {e : Expr Label} {r : Typed Label}
    (h : infer env n e = .ok r) (grounded : e.Grounded) (m : Annotations) {l : Label}
    (hl : l ∈ e.labels) :
    ∃ (p : Path) (c : Call Label) (r' : Typed Label), e.lastAt? l = some p ∧
      (Call.mk env n e).at? p = some c ∧ e.at? p = some c.expr ∧ c.outcome = .ok r' ∧
      (m.insertMany r.tree.leaving)[l]? = some r'.type := by
  have erased := map_fst_tree h
  obtain ⟨p, hlast, hlabel⟩ := Expr.exists_lastAt? hl
  rw [← erased, Expr.labelAt?_map] at hlabel
  obtain ⟨⟨k, t⟩, hp, rfl⟩ := Option.map_eq_some_iff.1 hlabel
  obtain ⟨c, r', hc, hexpr, hr', rfl⟩ := exists_call_of_labelAt? h hp
  refine ⟨p, c, r', hlast, hc, hexpr, hr', ?_⟩
  rw [getElem?_insertMany, lookup_leaving (erased ▸ grounded), lookup_labels, erased, hlast,
    Option.bind_some, hp]
  rfl

/-- The types recorded for the nodes of a tree are in the tree, also if nodes are parts of
themselves. -/
theorem exists_labelAt?_of_recorded {d : Expr (Label × Ty)} {m : Annotations} {l : Label} {t : Ty}
    (hl : l ∈ (d.map Prod.fst).labels) (h : (m.insertMany d.leaving)[l]? = some t) :
    ∃ p, d.labelAt? p = some (l, t) := by
  rw [Expr.labels_map] at hl
  obtain ⟨⟨k, u⟩, hku, rfl⟩ := List.mem_map.1 hl
  have found : (d.leaving.reverse.lookup k).isSome :=
    List.lookup_isSome_iff.2 ⟨(k, u), List.mem_reverse.2 (d.perm_leaving.mem_iff.2 hku),
      beq_self_eq_true k⟩
  obtain ⟨t', ht'⟩ := Option.isSome_iff_exists.1 found
  rw [getElem?_insertMany, ht', Option.some_or] at h
  cases h
  obtain ⟨xs, ys, hleaving, -⟩ := List.lookup_eq_some_iff.1 ht'
  have hmem : (k, t) ∈ d.leaving := by
    rw [← List.mem_reverse, hleaving]
    exact List.mem_append_right _ List.mem_cons_self
  rw [d.perm_leaving.mem_iff, ← d.filterMap_labelAt?] at hmem
  obtain ⟨p, -, hp⟩ := List.mem_filterMap.1 hmem
  exact ⟨p, hp⟩

/-! ## Contexts -/

namespace Context

variable {env : Option Env} {e : Expr Label}

theorem view_reset_recording (c : Context) (active : Bool) :
    (c.recording active).reset.view = c.reset.view := by
  unfold reset recording
  dsimp only
  split <;> rfl

theorem start_recording (c : Context) (active : Bool) (env : Option Env) :
    (c.recording active).start env = c.start env := by
  unfold start reset recording
  dsimp only
  split <;> rfl

/-- Whether types are recorded makes no difference to inference. -/
theorem run_recording (c : Context) (active : Bool) (env : Option Env) (e : Expr Label) :
    ((c.recording active).run env e).2 = (c.run env e).2 ∧
      ((c.recording active).run env e).1.view = (c.run env e).1.view :=
  run_congr (c.view_reset_recording active) (by rw [start_recording])

theorem view_infer (c : Context) (env : Option Env) (e : Expr Label) :
    (c.infer env e).1.view = (c.run env e).1.view := by
  unfold Context.infer
  match c.run env e with
  | (_, .result _) | (_, .error _) | (_, .fault _) => rfl

/-- **Annotation shows what inference shows.** -/
theorem view_annotate (c : Context) (env : Option Env) (e : Expr Label) :
    (c.annotate env e).1.view = (c.infer env e).1.view := by
  rw [view_infer, ← (c.run_recording true env e).2]
  unfold Context.annotate
  match (c.recording true).run env e with
  | (_, .result _) | (_, .error _) | (_, .fault _) => rfl

end Context

/-- Types can be collected if the traversal reaches all nodes and nothing is missing in the
substitution. -/
theorem Annotations.exists_collect {s : Subst} {e : Expr Label} (hs : s.Forall Ty.IsComplete)
    (hwalk : e.walk = .ok e.nodes) (m : Annotations) : ∃ A, m.collect s e = .ok A := by
  obtain ⟨es, hes⟩ := exists_mapSndM (f := s.apply)
    (l := (e.nodes.filterMap Expr.label?).filterMap fun l => m[l]?.map (l, ·)) fun x _ => by
      obtain ⟨u, hu, -⟩ := Subst.exists_apply Ty.hereditary_isComplete hs x.2
      exact ⟨u, hu⟩
  exact ⟨.ofList es, bind_eq_ok_iff.2 ⟨_, hwalk, bind_eq_ok_iff.2 ⟨es, hes, rfl⟩⟩⟩

namespace Context

variable {c : Context} {env : Option Env} {e : Expr Label}

/-- If inference finds a type, so do inference and annotation in a context, and the annotations are
collected from the types of the tree. -/
theorem exists_annotate (c : Context) {r : Typed Label} (complete : r.IsComplete)
    (h : Monotype.infer (env.getD ∅) (c.start env) e = .ok r) :
    ∃ (t : Ty) (m A : Annotations), r.subst.apply r.type = .ok t ∧ t.IsComplete ∧
      (c.infer env e).2 = .result t ∧ (c.infer env e).1.subst = r.subst ∧
      (c.annotate env e).2 = .result A ∧
      Annotations.collect (m.insertMany r.tree.leaving) r.subst e = .ok A := by
  have he : e ≠ .missing := by
    rintro rfl
    cases h
  obtain ⟨t, ht, hct⟩ := Subst.exists_apply Ty.hereditary_isComplete complete.subst r.type
  obtain ⟨c₁, hc₁, hsubst₁, -⟩ := run_of_ok he h ht
  obtain ⟨c₂, hc₂, hsubst₂, -⟩ :=
    run_of_ok (c := c.recording true) he (by rw [start_recording]; exact h) ht
  have htable := table_of_run rfl hc₂
  generalize (c.recording true).reset.recorder.table.getD ∅ = m at htable
  obtain ⟨A, hA⟩ := Annotations.exists_collect complete.subst (walk_of_infer h)
    (m.insertMany r.tree.leaving)
  refine ⟨t, m, A, ht, hct complete.type, ?_, ?_, ?_, hA⟩
  · unfold Context.infer
    rw [hc₁]
  · unfold Context.infer
    rw [hc₁]
    exact hsubst₁
  · unfold Context.annotate
    rw [hc₂]
    dsimp only
    rw [htable, hsubst₂, Option.getD_some, hA]

/-- If inference fails, so do inference and annotation in a context, with the same error. -/
theorem annotate_of_failed (c : Context) (he : e ≠ .missing) {f : Failure} {n : Supply}
    (h : Monotype.infer (env.getD ∅) (c.start env) e = .error (.failed f n)) :
    (c.infer env e).2 = .error f.error ∧ (c.annotate env e).2 = .error f.error ∧
      (c.infer env e).1.subst = f.subst := by
  obtain ⟨c₁, hc₁, hsubst, -⟩ := run_of_failed he h
  obtain ⟨c₂, hc₂, -⟩ := run_of_failed (c := c.recording true) he (by rw [start_recording]; exact h)
  unfold Context.infer Context.annotate
  rw [hc₁, hc₂]
  exact ⟨rfl, rfl, hsubst⟩

end Context

/-! ## Shared nodes -/

theorem distinct_of_nodup [DecidableEq α] {l : List α} (h : l.Nodup) : distinct l = l.length := by
  induction l with
  | nil => rfl
  | cons a l ih =>
    obtain ⟨absent, h⟩ := List.nodup_cons.1 h
    rw [distinct, if_neg absent, ih h, List.length_cons]

/-- Annotations have one entry for each of their labels. -/
theorem Annotations.size_eq_distinct {A : Annotations} {ls : List Label} (h : ∀ l, l ∈ A ↔ l ∈ ls) :
    A.size = distinct ls := by
  have keys : ∀ l, l ∈ A.keys ↔ l ∈ ls := fun l => Std.ExtTreeMap.mem_keys.trans (h l)
  rw [← Std.ExtTreeMap.length_keys, ← distinct_of_nodup Std.ExtTreeMap.nodup_keys]
  exact Nat.le_antisymm (distinct_le fun l => (keys l).1) (distinct_le fun l => (keys l).2)

/-- A node that is not missing has a label, which is among the labels of the expression. -/
theorem Expr.exists_label? {e : Expr α} (he : e ≠ .missing) :
    ∃ l, e.label? = some l ∧ l ∈ e.labels := by
  cases e with
  | missing => exact absurd rfl he
  | int | bool | var | foreign | fn | call | cond => exact ⟨_, rfl, List.mem_cons_self⟩

/-- The root is left last, so its type is in the table. -/
theorem getElem?_insertMany_root {d : Expr (Label × Ty)} {l : Label} {t : Ty} (m : Annotations)
    (h : d.label? = some (l, t)) : (m.insertMany d.leaving)[l]? = some t := by
  have last : ∃ xs, d.leaving = xs ++ [(l, t)] := by
    cases d with
    | missing => cases h
    | int | bool | var | foreign => cases h; exact ⟨[], rfl⟩
    | fn k x e => cases h; exact ⟨_, rfl⟩
    | call k f a => cases h; exact ⟨f.leaving ++ a.leaving, by rw [Expr.leaving, List.append_assoc]⟩
    | cond k c y n =>
      cases h
      exact ⟨c.leaving ++ y.leaving ++ n.leaving,
        by rw [Expr.leaving, List.append_assoc, List.append_assoc]⟩
  obtain ⟨xs, hxs⟩ := last
  rw [getElem?_insertMany, hxs, List.reverse_append, List.reverse_singleton, List.singleton_append,
    List.lookup_cons_self]
  rfl

section Collected

variable {env : Env} {n : Supply} {e : Expr Label} {r : Typed Label} {m A : Annotations}

/-- A node is annotated with what the call for its last occurrence found. -/
theorem exists_getElem?_of_collect (h : infer env n e = .ok r) (complete : r.IsComplete)
    (grounded : e.Grounded)
    (hA : Annotations.collect (m.insertMany r.tree.leaving) r.subst e = .ok A) {l : Label}
    (hl : l ∈ e.labels) : ∃ u, A[l]? = some u ∧ (Call.mk env n e).FindsLast r.subst l u := by
  obtain ⟨p, d, r', hp, hcall, hd, hr', hm⟩ := exists_call_of_recorded h grounded m hl
  obtain ⟨u, hu, -⟩ := Subst.exists_apply Ty.hereditary_isComplete complete.subst r'.type
  exact ⟨u, (Annotations.getElem?_collect hA).2 ⟨hl, _, hm, hu⟩,
    p, d, r', hp, hcall, hd, Call.reaches_of_at? hcall, hr', hu⟩

/-- The root is annotated with the resolved type of the whole. -/
theorem root?_of_collect (h : infer env n e = .ok r)
    (hA : Annotations.collect (m.insertMany r.tree.leaving) r.subst e = .ok A) {t : Ty}
    (ht : r.subst.apply r.type = .ok t) : A.root? e = some t := by
  have he : e ≠ .missing := by
    rintro rfl
    cases h
  obtain ⟨l, hl, hroot⟩ := Expr.exists_label? he
  have recorded : (m.insertMany r.tree.leaving)[l]? = some r.type :=
    getElem?_insertMany_root m (by rw [label?_tree h, hl]; rfl)
  unfold Annotations.root?
  rw [hl, Option.bind_some]
  exact (Annotations.getElem?_collect hA).2 ⟨hroot, r.type, recorded, ht⟩

end Collected

/-- **Annotation agrees with inference.** No declared type has a missing part, and no node is a part
of itself, but nodes may occur at several positions. Then annotation and inference in the same
context show the same, and either both answer or both fail with the same error. If they answer,
exactly the nodes that a traversal visits are annotated. Each has the type that the call for its
last occurrence in pre-order found, resolved by the substitution left in the context. The root has
the type that inference answers. -/
theorem annotate_agrees (c : Context) (env : Option Env) (e : Expr Label)
    (complete : (env.getD ∅).Forall Ty.IsComplete) (grounded : e.Grounded) :
    (c.annotate env e).1.view = (c.infer env e).1.view ∧
    match (c.infer env e).2, (c.annotate env e).2 with
    | .result t, .result A =>
      (∃ nodes, e.walk = .ok nodes ∧ (∀ l : Label, l ∈ A ↔ ∃ node ∈ nodes, node.label? = some l) ∧
        A.size = distinct (nodes.filterMap Expr.label?)) ∧
      (∀ l ∈ A, ∃ u, A[l]? = some u ∧
        (Call.mk (env.getD ∅) (c.start env) e).FindsLast (c.infer env e).1.subst l u) ∧
      A.root? e = some t
    | .error x, .error y => x = y
    | _, _ => False := by
  refine ⟨c.view_annotate env e, ?_⟩
  by_cases he : e = .missing
  · subst he
    rfl
  have total := totalOn e (c.start env) complete
  match h : Monotype.infer (env.getD ∅) (c.start env) e with
  | .error (.failed f n) =>
    obtain ⟨hinfer, hannotate, -⟩ := c.annotate_of_failed he h
    rw [hinfer, hannotate]
  | .error (.faulted f blame n) =>
    rw [h] at total
    exact total.elim
  | .ok r =>
    obtain ⟨t, m, A, ht, -, hinfer, hsubst, hannotate, hA⟩ := c.exists_annotate (total.of_ok h) h
    rw [hinfer, hannotate, hsubst]
    have entry : ∀ {l}, l ∈ e.labels → ∃ u, A[l]? = some u ∧
        (Call.mk (env.getD ∅) (c.start env) e).FindsLast r.subst l u :=
      fun hl => exists_getElem?_of_collect h (total.of_ok h) grounded hA hl
    have mem : ∀ l, l ∈ A ↔ l ∈ e.labels := by
      intro l
      rw [Std.ExtTreeMap.mem_iff_isSome_getElem?, Option.isSome_iff_exists]
      constructor
      · rintro ⟨u, hu⟩
        exact ((Annotations.getElem?_collect hA).1 hu).1
      · exact fun hl => (entry hl).imp fun u hu => hu.1
    refine ⟨⟨e.nodes, walk_of_infer h, fun l => ?_, A.size_eq_distinct mem⟩,
      fun l hl => entry ((mem l).1 hl), root?_of_collect h hA ht⟩
    rw [← List.mem_filterMap]
    exact mem l

/-- The name `x` is one node in the bodies of two functions. -/
def sharing : Expr Label :=
  .call 0 (.call 1 (.var 2 "k") (.fn 3 "x" (.var 5 "x"))) (.fn 4 "x" (.var 5 "x"))

/-- The types of the nodes of `sharing`. The two parameters have the types `.var 1` and `.var 3`. -/
def sharingTypes : Annotations :=
  .ofList [(0, Ty.var 4), (1, Ty.arrow (.arrow (.var 3) (.var 3)) (.var 4)),
    (2, Ty.arrow (.arrow (.var 1) (.var 1)) (.arrow (.arrow (.var 3) (.var 3)) (.var 4))),
    (3, Ty.arrow (.var 1) (.var 1)), (5, Ty.var 3), (4, Ty.arrow (.var 3) (.var 3))]

theorem annotate_agrees_sharing :
    sharing.Grounded ∧ sharing.lastAt? 5 = some [.arg, .body] ∧
      (({} : Context).annotate (some openEnv) sharing).2 = .result sharingTypes ∧
      sharingTypes.size = distinct [0, 1, 2, 3, 5, 4, 5] ∧
      (Call.mk openEnv ⟨1, 0⟩ sharing).FindsLast
        (({} : Context).infer (some openEnv) sharing).1.subst 5 (.var 3) ∧
      sharingTypes.root? sharing = some (.var 4) := by
  have grounded : sharing.Grounded := .of_identity (by decide)
  have complete : openEnv.Forall Ty.IsComplete :=
    fun x t ht => (isFresh_openEnv x t ht).1.isComplete
  have hannotate : (({} : Context).annotate (some openEnv) sharing).2 =
      .result sharingTypes := by cbv
  have hinfer : (({} : Context).infer (some openEnv) sharing).2 = .result (.var 4) := by cbv
  have hx : sharingTypes[(5 : Label)]? = some (.var 3) := by cbv
  have agrees := (annotate_agrees {} (some openEnv) sharing complete grounded).2
  rw [hinfer, hannotate] at agrees
  obtain ⟨⟨nodes, hwalk, -, hsize⟩, entry, hroot⟩ := agrees
  cases hwalk
  obtain ⟨u, hu, last⟩ := entry 5 (Std.ExtTreeMap.mem_iff_isSome_getElem?.2 (by rw [hx]; rfl))
  rw [hx] at hu
  cases hu
  exact ⟨grounded, by decide, hannotate, hsize, last, hroot⟩

end Monotype
