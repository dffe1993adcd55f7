import Monotype.Proofs.Soundness

/-!
# Variables taken by inference

Inference takes variables from its supply one after the other. If it finds a type, it has taken one
for each function and call of the expression, and if it stops, at most as many: `supply_of_infer`
and `advancesOn`. As long as there is room, the number taken is the distance between the next
variables (`Supply.Room.toInt_next_skip`).
-/

namespace Monotype

variable {α β γ : Type}

/-! ## Supplies -/

namespace Supply

/-- The supply after `k` variables were taken. -/
def skip (n : Supply) (k : Nat) : Supply := ⟨n.next + .ofNat k, n.count + k⟩

@[simp] theorem skip_zero (n : Supply) : n.skip 0 = n := by
  show Supply.mk (n.next + 0) n.count = n
  rw [Int64.add_zero]

theorem skip_add (n : Supply) (j k : Nat) : n.skip (j + k) = (n.skip j).skip k := by
  unfold skip
  rw [Int64.ofNat_add, Int64.add_assoc, Nat.add_assoc]

theorem fresh_skip (n : Supply) (k : Nat) : (n.skip k).fresh.2 = n.skip (k + 1) :=
  (n.skip_add k 1).symm

theorem Room.toInt_next_skip {n : Supply} {k : Nat} (room : n.Room k) :
    (n.skip k).next.toInt = n.next.toInt + k := by
  unfold Room at room
  have low := n.next.le_toInt
  show (n.next + .ofNat k).toInt = _
  rw [Int64.toInt_add, Int64.toInt_ofNat', show Int64.size = 2 ^ 64 from rfl, Int.add_bmod_bmod,
    Int.bmod_eq_of_le]
  · omega
  · omega

/-- The supply `m` is left after at most `k` variables were taken. -/
def Advances (n : Supply) (k : Nat) (m : Supply) : Prop := ∃ j, j ≤ k ∧ m = n.skip j

theorem advances_skip (n : Supply) {j k : Nat} (h : j ≤ k) : n.Advances k (n.skip j) := ⟨j, h, rfl⟩

theorem Advances.mono {n m : Supply} {j k : Nat} (h : n.Advances j m) (le : j ≤ k) :
    n.Advances k m := by
  obtain ⟨i, hi, rfl⟩ := h
  exact n.advances_skip (by omega)

theorem Advances.skip {n m : Supply} {i j k : Nat} (h : (n.skip i).Advances j m) (le : i + j ≤ k) :
    n.Advances k m := by
  obtain ⟨j', hj', rfl⟩ := h
  exact ⟨i + j', by omega, (n.skip_add i j').symm⟩

end Supply

/-! ## How a computation stops -/

/-- The supply that is left. -/
def Stop.supply : Stop → Supply
  | .failed _ n | .faulted _ _ n => n

@[simp] theorem Stop.supply_inside (step : Step) (stop : Stop) :
    (stop.inside step).supply = stop.supply := by
  cases stop <;> rfl

@[simp] theorem Stop.supply_after (s : Subst) (stop : Stop) :
    (stop.after s).supply = stop.supply := by
  cases stop with
  | failed f n =>
    rw [after]
    cases s.compose f.subst <;> rfl
  | faulted => rfl

@[simp] theorem Stop.supply_ofUnify (describe : UnifyError → InferError) (s : Subst) (n : Supply)
    (stop : UnifyStop) : (ofUnify describe s n stop).supply = n := by
  cases stop <;> rfl

/-- If the computation stops, then as `p` says. -/
def Stops (p : Stop → Prop) (x : Except Stop β) : Prop := ∀ stop, x = .error stop → p stop

section Stops

variable {p : Stop → Prop} {x : Except Stop β} {k : β → Except Stop γ}

theorem stops_ok (b : β) : Stops p (.ok b) := fun _ h => nomatch h

theorem stops_error {stop : Stop} (h : p stop) : Stops p (.error stop : Except Stop β) := by
  intro _ e
  cases e
  exact h

/-- A sequence stops where its first part stops, or after it where the rest stops. -/
theorem Stops.bind (hx : Stops p x) (hk : ∀ b, x = .ok b → Stops p (k b)) : Stops p (x >>= k) := by
  match x with
  | .ok b => exact hk b rfl
  | .error stop => exact stops_error (hx stop rfl)

theorem stops_mapError {ε : Type} {y : Except ε β} {f : ε → Stop}
    (h : ∀ e, y = .error e → p (f e)) : Stops p (y.mapError f) := by
  match y with
  | .ok b => exact stops_ok b
  | .error e => exact stops_error (h e rfl)

end Stops

/-! ## Inference -/

section Infer

variable {env : Env} {n : Supply} {e : Expr α}

/-- **Variables of a result.** -/
theorem supply_of_infer {r : Typed α} (h : infer env n e = .ok r) : r.supply = n.skip e.demand := by
  induction e generalizing env n r with
  | missing | foreign => cases h
  | int | bool => cases h; exact (n.skip_zero).symm
  | var l x =>
    obtain ⟨t, -, rfl⟩ := infer_var_ok h
    exact (n.skip_zero).symm
  | fn l x body ih =>
    obtain ⟨run, rfl⟩ := infer_fn_ok h
    show run.b.supply = n.skip (body.demand + 1)
    rw [ih run.b_eq, Nat.add_comm, Supply.skip_add]
    rfl
  | call l callee arg ihf iha =>
    obtain ⟨run, rfl⟩ := infer_call_ok h
    show run.a.supply.fresh.2 = n.skip (callee.demand + arg.demand + 1)
    rw [iha run.a_eq, ihf run.f_eq, ← Supply.skip_add, Supply.fresh_skip]
  | cond l test yes no ihc ihy ihn =>
    obtain ⟨run, rfl⟩ := infer_cond_ok h
    show run.z.supply = n.skip (test.demand + yes.demand + no.demand)
    rw [ihn run.z_eq, ihy run.y_eq, ihc run.c_eq, Supply.skip_add, Supply.skip_add]

/-- The supply at which inference stops has handed out at most what the expression needs. -/
def AdvancesOn (e : Expr α) : Prop :=
  ∀ (env : Env) (n : Supply), Stops (fun stop => n.Advances e.demand stop.supply) (infer env n e)

theorem advancesOn_fn {body : Expr α} (ih : AdvancesOn body) (l : α) (x : String) :
    AdvancesOn (.fn l x body) := by
  intro env n
  rw [infer_fn, Mode.fn]
  refine .bind (stops_mapError fun stop hstop => ?_) fun b hb =>
    .bind (stops_mapError fun f _ => ?_) fun param _ => stops_ok _
  · have h : (n.skip 1).Advances body.demand stop.supply := ih _ _ stop hstop
    rw [Stop.supply_inside]
    exact h.skip (by rw [Expr.demand]; omega)
  · have h : b.supply = (n.skip 1).skip body.demand := supply_of_infer (mapError_eq_ok_iff.1 hb)
    show n.Advances _ b.supply
    rw [h, ← Supply.skip_add]
    exact n.advances_skip (by rw [Expr.demand]; omega)

theorem advancesOn_call {callee arg : Expr α} (ihf : AdvancesOn callee) (iha : AdvancesOn arg)
    (l : α) : AdvancesOn (.call l callee arg) := by
  intro env n
  rw [infer_call, Mode.call, Expr.demand]
  refine .bind (stops_mapError fun stop hstop => ?_) fun f hf => ?_
  · rw [Stop.supply_inside]
    exact (ihf env n stop hstop).mono (by omega)
  have hf' := supply_of_infer (mapError_eq_ok_iff.1 hf)
  refine .bind (stops_mapError fun _ _ => ?_) fun env' _ => ?_
  · show n.Advances _ f.supply
    rw [hf']
    exact n.advances_skip (by omega)
  refine .bind (stops_mapError fun stop hstop => ?_) fun a ha => ?_
  · rw [Stop.supply_after, Stop.supply_inside]
    have h := iha env' f.supply stop hstop
    rw [hf'] at h
    exact h.skip (by omega)
  -- from here on the supply is that of the argument, or has one variable less
  have ha' : a.supply = n.skip (callee.demand + arg.demand) := by
    rw [supply_of_infer (mapError_eq_ok_iff.1 ha), hf', Supply.skip_add]
  have hn : n.Advances (callee.demand + arg.demand + 1) a.supply.fresh.2 := by
    rw [ha', Supply.fresh_skip]
    exact n.advances_skip (by omega)
  refine .bind (stops_mapError fun _ _ => ?_) fun s _ =>
    .bind (stops_mapError fun _ _ => hn) fun ft _ =>
    .bind (stops_mapError fun stop _ => ?_) fun u _ =>
      .bind (stops_mapError fun _ _ => hn) fun t _ =>
    .bind (stops_mapError fun _ _ => hn) fun s' _ => stops_ok _
  · show n.Advances _ a.supply
    rw [ha']
    exact n.advances_skip (by omega)
  · rw [Stop.supply_ofUnify]
    exact hn

theorem advancesOn_cond {test yes no : Expr α} (ihc : AdvancesOn test) (ihy : AdvancesOn yes)
    (ihn : AdvancesOn no) (l : α) : AdvancesOn (.cond l test yes no) := by
  intro env n
  rw [infer_cond, Mode.cond, Expr.demand]
  refine .bind (stops_mapError fun stop hstop => ?_) fun c hc => ?_
  · rw [Stop.supply_inside]
    exact (ihc env n stop hstop).mono (by omega)
  have hc' := supply_of_infer (mapError_eq_ok_iff.1 hc)
  have advc : n.Advances (test.demand + yes.demand + no.demand) c.supply := by
    rw [hc']
    exact n.advances_skip (by omega)
  refine .bind (stops_mapError fun stop _ => ?_) fun u _ => .bind (stops_mapError fun _ _ => advc)
    fun s₁ _ => .bind (stops_mapError fun _ _ => advc) fun env₁ _ =>
    .bind (stops_mapError fun stop hstop => ?_) fun y hy => ?_
  · rw [Stop.supply_ofUnify]
    exact advc
  · rw [Stop.supply_after, Stop.supply_inside]
    have h := ihy env₁ c.supply stop hstop
    rw [hc'] at h
    exact h.skip (by omega)
  have hy' : y.supply = n.skip (test.demand + yes.demand) := by
    rw [supply_of_infer (mapError_eq_ok_iff.1 hy), hc', Supply.skip_add]
  have advy : n.Advances (test.demand + yes.demand + no.demand) y.supply := by
    rw [hy']
    exact n.advances_skip (by omega)
  refine .bind (stops_mapError fun _ _ => advy) fun s₂ _ => .bind (stops_mapError fun _ _ => advy)
    fun env₂ _ => .bind (stops_mapError fun stop hstop => ?_) fun z hz => ?_
  · rw [Stop.supply_after, Stop.supply_inside]
    have h := ihn env₂ y.supply stop hstop
    rw [hy'] at h
    exact h.skip (by omega)
  have advz : n.Advances (test.demand + yes.demand + no.demand) z.supply := by
    rw [supply_of_infer (mapError_eq_ok_iff.1 hz), hy', ← Supply.skip_add]
    exact n.advances_skip (by omega)
  refine .bind (stops_mapError fun _ _ => advz) fun s₃ _ => .bind (stops_mapError fun _ _ => advz)
    fun yt _ => .bind (stops_mapError fun stop _ => ?_) fun w _ =>
    .bind (stops_mapError fun _ _ => advz) fun t _ => .bind (stops_mapError fun _ _ => advz)
    fun s _ => stops_ok _
  rw [Stop.supply_ofUnify]
  exact advz

/-- **Variables until a stop.** -/
theorem advancesOn (e : Expr α) : AdvancesOn e := by
  induction e with
  | missing | foreign => exact fun env n => stops_error ⟨0, Nat.zero_le _, (n.skip_zero).symm⟩
  | int | bool => exact fun env n => stops_ok _
  | var l x =>
    intro env n
    have hn : n.Advances 0 n := ⟨0, Nat.le_refl _, (n.skip_zero).symm⟩
    rw [infer_var, Mode.var]
    refine .bind (stops_mapError fun _ _ => hn) fun o _ => ?_
    cases o with
    | none => exact stops_error hn
    | some t => exact stops_ok _
  | fn l x body ih => exact advancesOn_fn ih l x
  | call l callee arg ihf iha => exact advancesOn_call ihf iha l
  | cond l test yes no ihc ihy ihn => exact advancesOn_cond ihc ihy ihn l

end Infer

end Monotype
