import Monotype.Proofs.Reachability
import Monotype.Proofs.Termination

/-!
# Application with one set of busy variables

Resolution passes the busy variables down each path: what lies beside a path does not see them. They
can also be kept in one set that all calls share. A variable is put into the set before its binding
is resolved, and taken out afterwards. The set is made when the first variable is met, and is not
there before.

`Subst.threaded` is the body of this recursion. A call gets the set and answers with the set it
leaves, and both sides of a function type use the same one. So the second side depends on what the
first has left in the set, and with it the measure of the recursion. That the recursion ends, and
that each call leaves the set as it was found, is therefore shown at once (`threaded_descends`): the
answer to each call has the set that the call was given.
-/

namespace Monotype

/-! ## Marks -/

/-- The variables that are marked as busy. There is no set before the first of them. -/
abbrev Marks := Option (Std.ExtTreeSet VarId)

namespace Marks

variable {marks : Marks} {v w : VarId}

/-- The marked variables. -/
def vars (marks : Marks) : List VarId := (marks.getD ∅).toList

/-- Marks one more variable. A set is made if there is none. -/
def mark (marks : Marks) (v : VarId) : Marks := some ((marks.getD ∅).insert v)

/-- What is left for the caller, if a call for a marked variable has left `left`: the variable is
taken out, and a set that was made for the call is dropped. -/
def unmark (marks left : Marks) (v : VarId) : Marks := marks.bind fun _ => left.map (·.erase v)

theorem mem_vars : v ∈ marks.vars ↔ marks.any (·.contains v) = true := by
  unfold vars
  rw [Std.ExtTreeSet.mem_toList]
  cases marks with
  | none => simp
  | some set => simp [Std.ExtTreeSet.contains_iff_mem]

theorem mem_vars_mark : w ∈ (marks.mark v).vars ↔ w ∈ v :: marks.vars := by
  unfold vars mark
  simp [Std.ExtTreeSet.mem_insert, eq_comm (a := w)]

/-- A variable that is marked and taken out again leaves no trace. -/
theorem unmark_mark (h : v ∉ marks.vars) : marks.unmark (marks.mark v) v = marks := by
  cases marks with
  | none => rfl
  | some set =>
    have absent : v ∉ set := by simpa [vars] using h
    have same : (set.insert v).erase v = set := by
      ext w
      simp only [Std.ExtTreeSet.mem_erase, Std.ExtTreeSet.mem_insert, ne_eq,
        Std.LawfulEqCmp.compare_eq_iff_eq]
      by_cases e : v = w
      · subst e
        simp [absent]
      · simp [e]
    simp [unmark, mark, same]

end Marks

namespace Subst

variable {s : Subst} {busy busy' : List VarId} {marks : Marks} {t : Ty} {v : VarId}

/-! ## Resolution and sets -/

theorem resolve_congr_mem (h : ∀ w, w ∈ busy ↔ w ∈ busy') :
    s.resolve busy t = s.resolve busy' t := by
  induction busy, t using resolve_induction s generalizing busy' with
  | leaf busy t ht hr =>
    rw [hr, resolve_eq_self busy']
    rw [ht]
    exact fun _ hv => nomatch hv
  | stuck busy v hv =>
    have stuck' : ∀ t, ¬ s.Expands busy' v t := fun t ht => hv t ⟨mt (h v).1 ht.1, ht.2⟩
    rw [resolve_var_stuck hv, resolve_var_stuck stuck']
  | expand busy v t hvt ih =>
    have same : s.resolve (v :: busy) t = s.resolve (v :: busy') t := ih fun w => by
      rw [List.mem_cons, List.mem_cons, h]
    rw [resolve_var_bound hvt.1 hvt.2, resolve_var_bound (mt (h v).2 hvt.1) hvt.2]
    cases t with
    | missing => rfl
    | const | var | arrow | foreign => exact same
  | arrow busy a r iha ihr => rw [resolve, resolve, iha h, ihr h]

theorem unresolved_congr (h : ∀ w, w ∈ busy ↔ w ∈ busy') :
    s.unresolved busy = s.unresolved busy' := by
  unfold unresolved
  simp only [h]

/-! ## The recursion -/

/-- The body of application with one set of busy variables. -/
def threaded (s : Subst) (call : Marks × Ty → Partial Fault (Ty × Marks)) :
    Marks × Ty → Partial Fault (Ty × Marks)
  | (marks, .var v) =>
    if marks.any (·.contains v) then ended (.ok (.var v, marks))
    else do
      match ← ended (s.lookup v) with
      | none => ended (.ok (.var v, marks))
      | some t =>
        let (u, left) ← call (marks.mark v, t)
        ended (.ok (u, marks.unmark left v))
  | (marks, .arrow a r) => do
    let (a', left) ← call (marks, a)
    let (r', left') ← call (left, r)
    ended (.ok (.arrow a' r', left'))
  | (marks, t) => ended (.ok (t, marks))

/-- The calls of the recursion, if each of them leaves the set as it was found. -/
def threadedCalls (s : Subst) : Marks × Ty → List (Marks × Ty)
  | (marks, .var v) =>
    if v ∈ marks.vars then []
    else match s.find? v with
      | none => []
      | some t => [(marks.mark v, t)]
  | (marks, .arrow a r) => [(marks, a), (marks, r)]
  | _ => []

/-- The number of bound variables that are not marked, and the size of the type. -/
def threadedMeasure (s : Subst) (c : Marks × Ty) : Nat × Nat := (s.unresolved c.1.vars, c.2.size)

/-- What resolution makes of the type, and the set as it was. -/
def pathScoped (s : Subst) (c : Marks × Ty) : Except Fault (Ty × Marks) :=
  (s.resolve c.1.vars c.2).map (·, c.1)

theorem mem_threadedCalls_var {c : Marks × Ty} :
    c ∈ s.threadedCalls (marks, .var v) ↔
      ∃ t, s.Expands marks.vars v t ∧ c = (marks.mark v, t) := by
  rw [threadedCalls]
  unfold Expands
  by_cases busy : v ∈ marks.vars
  · simp [busy]
  · cases ht : s.find? v <;> simp [busy]

theorem threaded_var {g : Marks × Ty → Partial Fault (Ty × Marks)}
    (hg : ∀ c ∈ s.threadedCalls (marks, .var v), g c = ended (s.pathScoped c)) :
    s.threaded g (marks, .var v) = ended (s.pathScoped (marks, .var v)) := by
  rw [threaded, pathScoped]
  by_cases busy : v ∈ marks.vars
  · rw [if_pos (Marks.mem_vars.1 busy), resolve_var_busy busy]
    rfl
  · rw [if_neg (mt Marks.mem_vars.2 busy)]
    cases ht : s.find? v with
    | none =>
      rw [lookup, ht, resolve_var_unbound ht]
      rfl
    | some t =>
      have call : g (marks.mark v, t) =
          ended ((s.resolve (v :: marks.vars) t).map (·, marks.mark v)) := by
        rw [hg _ (mem_threadedCalls_var.2 ⟨t, ⟨busy, ht⟩, rfl⟩), pathScoped,
          resolve_congr_mem fun w => Marks.mem_vars_mark]
      simp only [lookup, ht, resolve_var_bound busy ht]
      cases hr : t.read with
      | error f => rfl
      | ok t' =>
        obtain ⟨-, rfl⟩ := Ty.read_eq_ok_iff.1 hr
        simp only [Except.map, ended_ok_bind, ok_bind, call]
        cases s.resolve (v :: marks.vars) t' with
        | error f => rfl
        | ok u => simp only [ended_ok_bind, Marks.unmark_mark busy]

theorem threaded_arrow {a r : Ty} {g : Marks × Ty → Partial Fault (Ty × Marks)}
    (hg : ∀ c ∈ s.threadedCalls (marks, .arrow a r), g c = ended (s.pathScoped c)) :
    s.threaded g (marks, .arrow a r) = ended (s.pathScoped (marks, .arrow a r)) := by
  obtain ⟨args, rest⟩ := List.forall_mem_cons.1 hg
  have returns := List.forall_mem_singleton.1 rest
  rw [threaded, args, pathScoped, pathScoped, resolve]
  cases s.resolve marks.vars a with
  | error f => rfl
  | ok a' =>
    -- the second call is made with the set that the first has left, which is the one it was given
    simp only [Except.map, ended_ok_bind, ok_bind, returns, pathScoped]
    cases s.resolve marks.vars r <;> rfl

theorem threaded_descends (s : Subst) :
    Descends s.threaded s.pathScoped s.threadedCalls s.threadedMeasure where
  answers := by
    rintro ⟨marks, t⟩ g hg
    cases t with
    | var v => exact threaded_var hg
    | arrow a r => exact threaded_arrow hg
    | missing | const | foreign => rw [pathScoped, resolve]; rfl
  drops := by
    rintro ⟨marks, t⟩ c hc
    unfold threadedMeasure
    cases t with
    | var v =>
      obtain ⟨t, ht, rfl⟩ := mem_threadedCalls_var.1 hc
      refine .left _ _ ?_
      rw [unresolved_congr fun w => Marks.mem_vars_mark]
      exact unresolved_cons_lt ht.2 ht.1
    | arrow a r =>
      rcases List.mem_cons.1 hc with rfl | hc
      · exact .right _ (by simp only [Ty.size]; omega)
      · obtain rfl := List.mem_singleton.1 hc
        exact .right _ (by simp only [Ty.size]; omega)
    | missing | const | foreign => cases hc

/-- **One set of busy variables.** The recursion that shares a set of busy variables ends for every
substitution, cyclic ones included, for every set and every type: at each call, the number of bound
variables that are not in the set and the size of the type drop lexicographically. If the call does
not fault, it leaves the set as it was found, and answers as resolution does, which passes the busy
variables down each path. In particular, without a set it answers as application. -/
theorem unrolled_threaded_eq (s : Subst) :
    Descends s.threaded s.pathScoped s.threadedCalls s.threadedMeasure ∧
    (∀ (marks : Marks) (t : Ty), ∃ n, ∀ m ≥ n,
      unrolled s.threaded m (marks, t) = ended ((s.resolve marks.vars t).map (·, marks))) ∧
    ∀ t : Ty, ∃ n, ∀ m ≥ n, unrolled s.threaded m (none, t) = ended ((s.apply t).map (·, none)) :=
  ⟨s.threaded_descends, fun marks t => s.threaded_descends.exists_depth (marks, t),
    fun t => s.threaded_descends.exists_depth (none, t)⟩

/-- Each of the two variables is bound to a type that mentions the other. -/
def cyclic : Subst := .ofList [(0, .var 1), (1, .arrow (.var 0) (.var 2))]

/-- The second of them is marked. -/
def secondMarked : Marks := Marks.mark none 1

/-- On a cycle, both sides of a function type are resolved from the same set: what was busy on the
left is not busy on the right. A set that is given is found again, with the same variables. -/
theorem unrolled_threaded_eq_cyclic :
    (∃ n, ∀ m ≥ n, unrolled cyclic.threaded m (none, .arrow (.var 0) (.var 1)) =
      ended (.ok (.arrow (.arrow (.var 0) (.var 2)) (.arrow (.var 1) (.var 2)), none))) ∧
    ∃ n, ∀ m ≥ n, unrolled cyclic.threaded m (secondMarked, .arrow (.var 0) (.var 1)) =
      ended (.ok (.arrow (.var 1) (.var 1), secondMarked)) := by
  obtain ⟨-, shared, applied⟩ := unrolled_threaded_eq cyclic
  have free : cyclic.apply (.arrow (.var 0) (.var 1)) =
      .ok (.arrow (.arrow (.var 0) (.var 2)) (.arrow (.var 1) (.var 2))) := by cbv
  have busy : cyclic.resolve secondMarked.vars (.arrow (.var 0) (.var 1)) =
      .ok (.arrow (.var 1) (.var 1)) := by cbv
  have first := applied (.arrow (.var 0) (.var 1))
  have second := shared secondMarked (.arrow (.var 0) (.var 1))
  rw [free] at first
  rw [busy] at second
  exact ⟨first, second⟩

/-- From 1 the recursion goes to the binding of 1, to 0 in it, and back to 1, which is the fourth
level. -/
example : (unrolled cyclic.threaded 3 (none, .var 1)).run = none ∧
    (unrolled cyclic.threaded 4 (none, .var 1)).run =
      some (.ok (.arrow (.var 1) (.var 2), none)) := by
  constructor <;> cbv

end Subst

end Monotype
