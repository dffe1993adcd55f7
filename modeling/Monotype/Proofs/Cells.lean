import Mathlib
import Monotype.Supply

/-!
# Cells of a pool

A pool hands out cells of memory, and whoever has one may renumber it. No cell is handed out twice,
although cells come from blocks that are used up, replaced and dropped: `Sound` says that the
current block has only cells that were not handed out, and that a new block is made behind all
others. So a step changes the id of the variable it is about and of no other.

`After` says what a pool is like after a history of steps, in terms of the history alone: which ids
were handed out, how many since the last reset, and what each variable was renumbered to last. One
step carries it on (`After.step`), and so does a run (`After.run`).
-/

namespace Monotype

/-! ## Ids in order -/

/-- The first `k` ids from `next` on. The id after the greatest is the least. -/
def idsFrom (next : VarId) (k : Nat) : List VarId := (List.range k).map fun i => next + .ofNat i

/-- Ids do not repeat, also where they wrap around. -/
theorem nodup_idsFrom (next : VarId) {k : Nat} (h : k < 2 ^ 63) : (idsFrom next k).Nodup := by
  refine List.Nodup.map_on (fun i hi j hj same => ?_) List.nodup_range
  have hi' : i < 2 ^ 63 := (List.mem_range.1 hi).trans h
  have hj' : j < 2 ^ 63 := (List.mem_range.1 hj).trans h
  have toInt := congrArg Int64.toInt ((Int64.add_right_inj next).1 same)
  rw [Int64.toInt_ofNat_of_lt hi', Int64.toInt_ofNat_of_lt hj'] at toInt
  omega

theorem idsFrom_succ (next : VarId) (k : Nat) :
    idsFrom next (k + 1) = next :: idsFrom (next + 1) k := by
  unfold idsFrom
  rw [List.range_succ_eq_map, List.map_cons, List.map_map]
  refine congrArg₂ List.cons (Int64.add_zero next) (List.map_congr_left fun i _ => ?_)
  show next + Int64.ofNat (i + 1) = next + 1 + Int64.ofNat i
  rw [Int64.ofNat_add, Int64.add_comm (Int64.ofNat i), ← Int64.add_assoc]
  rfl

namespace Pool

variable {p : Pool} {cell other : Nat} {v : VarId}

/-! ## Memory -/

theorem read_write_self (h : cell < p.cells.size) (v : VarId) : (p.write cell v).read cell = v := by
  simp [read, write, h]

theorem read_write_of_ne (h : cell ≠ other) (v : VarId) :
    (p.write cell v).read other = p.read other := by
  simp [read, write, h]

/-- A new block leaves the other cells as they are. -/
theorem read_refill (h : cell < p.cells.size) : p.refill.read cell = p.read cell := by
  unfold refill
  split
  · simp [read, Array.getElem?_append_left h]
  · rfl

/-- Every variable has a cell of its own, and none of them is in the current block. -/
structure Sound (p : Pool) : Prop where
  stored : ∀ cell ∈ p.handed, cell < p.cells.size
  block_le : p.block.first + p.block.size ≤ p.cells.size
  unused : ∀ cell ∈ p.handed, cell < p.block.first ∨ p.block.first + p.block.size ≤ cell
  nodup : p.handed.Nodup

theorem sound_new (supply : Supply) : Sound { supply := supply } where
  stored := by simp
  block_le := Nat.le_refl _
  unused := by simp
  nodup := List.nodup_nil

namespace Sound

variable (h : p.Sound)

include h

theorem refill : p.refill.Sound := by
  unfold Pool.refill
  split
  · refine ⟨fun cell hc => ?_, ?_, fun cell hc => ?_, h.nodup⟩
    · have := h.stored cell hc
      simp only [Array.size_append]
      omega
    · simp
    · exact .inl (h.stored cell hc)
  · exact h

theorem issued_refill : p.refill.issued = p.issued := by
  have handed : p.refill.handed = p.handed := by
    unfold Pool.refill
    split <;> rfl
  unfold issued
  rw [handed]
  exact List.map_congr_left fun cell hc => read_refill (h.stored cell hc)

theorem write (cell : Nat) (v : VarId) : (p.write cell v).Sound where
  stored other hother := by simpa [Pool.write] using h.stored other hother
  block_le := by simpa [Pool.write] using h.block_le
  unused := h.unused
  nodup := h.nodup

/-- A variable is renumbered, and the others stay. -/
theorem issued_write {i : Nat} (hi : p.handed[i]? = some cell) (v : VarId) :
    (p.write cell v).issued = p.issued.set i v := by
  obtain ⟨lt, hcell⟩ := List.getElem?_eq_some_iff.1 hi
  refine List.ext_getElem? fun j => ?_
  rw [List.getElem?_set]
  unfold issued
  rw [List.getElem?_map, List.getElem?_map]
  show Option.map (p.write cell v).read p.handed[j]? = _
  by_cases hj : i = j
  · subst hj
    have stored : cell < p.cells.size := h.stored cell (List.mem_of_getElem? hi)
    rw [if_pos rfl, if_pos (by simpa using lt), hi, Option.map_some, read_write_self stored]
  · rw [if_neg hj]
    cases hother : p.handed[j]? with
    | none => rfl
    | some other =>
      have ne : cell ≠ other := by
        rintro rfl
        exact hj ((List.getElem?_inj lt h.nodup).1 (hi.trans hother.symm))
      rw [Option.map_some, Option.map_some, read_write_of_ne ne]

end Sound

/-- There is a cell to hand out. -/
theorem size_refill_pos (p : Pool) : 0 < p.refill.block.size := by
  unfold refill
  split
  · exact Nat.zero_lt_succ 7
  next used => exact Nat.pos_of_ne_zero used

theorem supply_refill (p : Pool) : p.refill.supply = p.supply := by
  unfold refill
  split <;> rfl

theorem supply_take (p : Pool) : p.take.2.supply = p.supply.fresh.2 :=
  congrArg (fun n : Supply => n.fresh.2) p.supply_refill

section Hand

variable (h : p.Sound) (pos : 0 < p.block.size)

include h pos

/-- The first cell of the block was not handed out before. -/
theorem Sound.first_notMem : p.block.first ∉ p.handed := by
  intro mem
  have := h.unused _ mem
  omega

theorem Sound.first_lt : p.block.first < p.cells.size := by
  have := h.block_le
  omega

theorem Sound.hand : p.hand.Sound := by
  have lt := h.first_lt pos
  have written := h.write p.block.first p.supply.next
  refine ⟨fun cell hc => ?_, ?_, fun cell hc => ?_, ?_⟩
  · rcases List.mem_append.1 hc with hc | hc
    · exact written.stored cell hc
    · obtain rfl := List.mem_singleton.1 hc
      simpa [Pool.hand, Pool.write] using lt
  · have le := written.block_le
    show p.block.first + 1 + (p.block.size - 1) ≤ (p.write p.block.first p.supply.next).cells.size
    have : (p.write p.block.first p.supply.next).block = p.block := rfl
    rw [this] at le
    omega
  · show cell < p.block.first + 1 ∨ p.block.first + 1 + (p.block.size - 1) ≤ cell
    rcases List.mem_append.1 hc with hc | hc
    · have := h.unused cell hc
      omega
    · obtain rfl := List.mem_singleton.1 hc
      omega
  · exact List.nodup_append.2 ⟨h.nodup, List.nodup_singleton _, fun a ha b hb e =>
      h.first_notMem pos (List.mem_singleton.1 hb ▸ e ▸ ha)⟩

theorem Sound.read_hand : p.hand.read p.block.first = p.supply.next :=
  read_write_self (h.first_lt pos) _

theorem Sound.issued_hand : p.hand.issued = p.issued ++ [p.supply.next] := by
  unfold issued
  show (p.handed ++ [p.block.first]).map p.hand.read = _
  rw [List.map_append, List.map_singleton, h.read_hand pos]
  refine congrArg (· ++ [p.supply.next]) (List.map_congr_left fun cell hc => ?_)
  have ne : p.block.first ≠ cell := fun e => h.first_notMem pos (e ▸ hc)
  exact read_write_of_ne ne _

end Hand

theorem Sound.take (h : p.Sound) : p.take.2.Sound := h.refill.hand p.size_refill_pos

theorem Sound.read_take (h : p.Sound) : p.take.2.read p.take.1 = p.supply.next := by
  rw [← p.supply_refill]
  exact h.refill.read_hand p.size_refill_pos

theorem Sound.issued_take (h : p.Sound) : p.take.2.issued = p.issued ++ [p.supply.next] := by
  rw [← h.issued_refill, ← p.supply_refill]
  exact h.refill.issued_hand p.size_refill_pos

/-! ## Histories -/

/-- The number of variables handed out since the last reset. -/
def sinceReset (past : List Step) : Nat := (past.reverse.takeWhile (· ≠ .reset)).count .alloc

/-- The id that a step gives to the variable with an index. -/
def Step.sets? (i : Nat) : Step → Option VarId
  | .renumber j v => if j = i then some v else none
  | .alloc | .reset | .startAt _ => none

/-- The id that the variable with an index was given last. -/
def lastSet? (past : List Step) (i : Nat) : Option VarId := past.reverse.findSome? (Step.sets? i)

/-- The id of the variable with an index: the one it was given last, or the one it was handed out
with. -/
def idAfter (next : VarId) (past : List Step) (i : Nat) : VarId :=
  (lastSet? past i).getD (next + .ofNat i)

/-- The supply after the steps. -/
def supplyAfter (next : VarId) (past : List Step) : Supply :=
  ⟨next + .ofNat (past.count .alloc), sinceReset past⟩

/-- The id of the variable that a step is about. -/
def answer (next : VarId) (past : List Step) : Step → Option VarId
  | .alloc => some (next + .ofNat (past.count .alloc))
  | .renumber _ v => some v
  | .reset | .startAt _ => none

/-- After `k` variables were handed out, the step renumbers one of them, or takes another, or resets
the count. -/
def Step.Allowed (k : Nat) : Step → Prop
  | .alloc | .reset => True
  | .renumber i _ => i < k
  | .startAt _ => False

instance (k : Nat) : (s : Step) → Decidable (s.Allowed k)
  | .alloc | .reset => isTrue trivial
  | .renumber i _ => inferInstanceAs (Decidable (i < k))
  | .startAt _ => isFalse id

/-- After `k` variables were handed out, each of the steps is allowed when it is made. -/
def Legal : Nat → List Step → Prop
  | _, [] => True
  | k, s :: steps => s.Allowed k ∧ Legal (k + [s].count .alloc) steps

instance decidableLegal : (k : Nat) → (steps : List Step) → Decidable (Legal k steps)
  | _, [] => isTrue trivial
  | k, s :: steps =>
    haveI := decidableLegal (k + [s].count .alloc) steps
    inferInstanceAs (Decidable (s.Allowed k ∧ Legal (k + [s].count .alloc) steps))

theorem sinceReset_append (past : List Step) (s : Step) :
    sinceReset (past ++ [s]) = if s = .reset then 0 else sinceReset past + [s].count .alloc := by
  unfold sinceReset
  rw [List.reverse_append, List.reverse_singleton, List.singleton_append, List.takeWhile_cons]
  by_cases hs : s = .reset
  · simp [hs]
  · simp [hs, List.count_cons]

theorem lastSet?_append (past : List Step) (s : Step) (i : Nat) :
    lastSet? (past ++ [s]) i = (s.sets? i).or (lastSet? past i) := by
  unfold lastSet?
  rw [List.reverse_append, List.reverse_singleton, List.singleton_append, List.findSome?_cons]
  cases s.sets? i <;> rfl

theorem supplyAfter_append_alloc (next : VarId) (past : List Step) :
    supplyAfter next (past ++ [.alloc]) = (supplyAfter next past).fresh.2 := by
  unfold supplyAfter
  rw [sinceReset_append, List.count_append]
  show Supply.mk (next + Int64.ofNat (past.count .alloc + 1)) _ = Supply.mk (next + _ + 1) _
  rw [Int64.ofNat_add, ← Int64.add_assoc]
  rfl

theorem set_map_range (f : Nat → VarId) (i k : Nat) (v : VarId) :
    ((List.range k).map f).set i v = (List.range k).map fun j => if i = j then v else f j :=
  List.ext_getElem (by simp) fun j _ _ => by simp [List.getElem_set]

/-- What a pool is like after a history of steps that started with the id `next`. -/
structure After (next : VarId) (past : List Step) (p : Pool) : Prop where
  sound : p.Sound
  supply : p.supply = supplyAfter next past
  issued : p.issued = (List.range (past.count .alloc)).map (idAfter next past)
  known : ∀ i, lastSet? past i ≠ none → i < past.count .alloc

theorem after_new (next : VarId) : After next [] { supply := { next := next } } where
  sound := sound_new _
  supply := congrArg (Supply.mk · 0) (Int64.add_zero next).symm
  issued := rfl
  known _ h := absurd rfl h

namespace After

variable {next : VarId} {past : List Step} (h : After next past p)

include h

theorem length_handed : p.handed.length = past.count .alloc := by
  have := congrArg List.length h.issued
  simpa [Pool.issued] using this

theorem alloc : After next (past ++ [.alloc]) p.take.2 := by
  have last : ∀ i, lastSet? (past ++ [.alloc]) i = lastSet? past i :=
    fun i => lastSet?_append past .alloc i
  have unset : lastSet? past (past.count .alloc) = none := by
    by_contra hset
    exact Nat.lt_irrefl _ (h.known _ hset)
  have count : (past ++ [Step.alloc]).count .alloc = past.count .alloc + 1 := List.count_append
  refine ⟨h.sound.take, ?_, ?_, fun i hi => ?_⟩
  · rw [supply_take, h.supply, supplyAfter_append_alloc]
  · rw [h.sound.issued_take, h.issued, count, List.range_succ, List.map_append, List.map_singleton]
    unfold idAfter
    simp only [last]
    rw [unset, h.supply]
    rfl
  · rw [last] at hi
    have := h.known i hi
    omega

theorem reset : After next (past ++ [.reset]) { p with supply := p.supply.reset, block := {} } := by
  have last : ∀ i, lastSet? (past ++ [.reset]) i = lastSet? past i :=
    fun i => lastSet?_append past .reset i
  have count : (past ++ [Step.reset]).count .alloc = past.count .alloc := List.count_append
  have hsound := h.sound
  refine ⟨⟨hsound.stored, Nat.zero_le _, fun _ _ => .inr (Nat.zero_le _), hsound.nodup⟩,
    ?_, ?_, fun i hi => ?_⟩
  · unfold supplyAfter
    rw [sinceReset_append, count, h.supply]
    rfl
  · unfold idAfter
    simp only [last, count]
    exact h.issued
  · rw [last] at hi
    rw [count]
    exact h.known i hi

theorem renumber {i : Nat} (hi : p.handed[i]? = some cell) (v : VarId) :
    After next (past ++ [.renumber i v]) (p.write cell v) := by
  have last : ∀ j,
      lastSet? (past ++ [.renumber i v]) j = if i = j then some v else lastSet? past j := by
    intro j
    rw [lastSet?_append, Step.sets?]
    split <;> rfl
  have count : (past ++ [Step.renumber i v]).count .alloc = past.count .alloc := List.count_append
  have lt : i < past.count .alloc := by
    rw [← h.length_handed]
    exact (List.getElem?_eq_some_iff.1 hi).1
  refine ⟨h.sound.write cell v, ?_, ?_, fun j hj => ?_⟩
  · unfold supplyAfter
    rw [sinceReset_append, count]
    exact h.supply
  · rw [h.sound.issued_write hi, h.issued, count, set_map_range]
    refine List.map_congr_left fun j _ => ?_
    unfold idAfter
    rw [last]
    split <;> rfl
  · rw [last] at hj
    rw [count]
    split at hj
    next e => exact e ▸ lt
    next => exact h.known j hj

/-- **One step.** -/
theorem step {s : Step} (allowed : s.Allowed (past.count .alloc)) :
    ∃ p', p.step s = some (answer next past s, p') ∧ After next (past ++ [s]) p' := by
  cases s with
  | alloc =>
    refine ⟨p.take.2, ?_, h.alloc⟩
    show some (some (p.take.2.read p.take.1), p.take.2) = _
    rw [h.sound.read_take, h.supply]
    rfl
  | reset => exact ⟨_, rfl, h.reset⟩
  | startAt n => exact allowed.elim
  | renumber i v =>
    have lt : i < p.handed.length := by
      rw [h.length_handed]
      exact allowed
    have hi : p.handed[i]? = some p.handed[i] := List.getElem?_eq_getElem lt
    have stored : p.handed[i] < p.cells.size := h.sound.stored _ (List.getElem_mem lt)
    refine ⟨p.write p.handed[i] v, ?_, h.renumber hi v⟩
    rw [Pool.step, hi]
    show some (some ((p.write p.handed[i] v).read p.handed[i]), _) = _
    rw [read_write_self stored]
    rfl

end After

/-! ## Runs -/

/-- The trace of steps that are made after a history. -/
def traceAfter (next : VarId) (past : List Step) : List Step → List (Option VarId × Supply)
  | [] => []
  | s :: steps =>
    (answer next past s, supplyAfter next (past ++ [s])) :: traceAfter next (past ++ [s]) steps

/-- **A run.** -/
theorem After.run {next : VarId} {past steps : List Step} (h : After next past p)
    (legal : Legal (past.count .alloc) steps) :
    ∃ last, p.run steps = some (traceAfter next past steps, last) ∧
      After next (past ++ steps) last := by
  induction steps generalizing past p with
  | nil => exact ⟨p, rfl, by rwa [List.append_nil]⟩
  | cons s steps ih =>
    obtain ⟨allowed, legal⟩ := legal
    obtain ⟨p', hp', after⟩ := h.step allowed
    rw [← List.count_append] at legal
    obtain ⟨last, hlast, after'⟩ := ih after legal
    refine ⟨last, ?_, by rwa [List.append_assoc] at after'⟩
    rw [Pool.run, hp']
    show (p'.run steps >>= _) = _
    rw [hlast, after.supply]
    rfl

/-- The ids of the variables that were taken. -/
def returned (steps : List Step) (trace : List (Option VarId × Supply)) : List VarId :=
  (steps.zip trace).filterMap fun e => if e.1 = .alloc then e.2.1 else none

theorem returned_traceAfter (next : VarId) (past steps : List Step) :
    returned steps (traceAfter next past steps) =
      idsFrom (next + .ofNat (past.count .alloc)) (steps.count .alloc) := by
  induction steps generalizing past with
  | nil => rfl
  | cons s steps ih =>
    have rest := ih (past ++ [s])
    unfold returned at rest ⊢
    rw [traceAfter, List.zip_cons_cons, List.filterMap_cons, rest]
    by_cases hs : s = .alloc
    · subst hs
      rw [List.count_cons_self, idsFrom_succ, List.count_append]
      show _ :: idsFrom (next + Int64.ofNat (past.count .alloc + 1)) _ = _
      rw [Int64.ofNat_add, ← Int64.add_assoc]
      rfl
    · rw [if_neg hs, List.count_cons_of_ne hs, List.count_append, List.count_cons_of_ne hs]
      rfl

theorem map_count_traceAfter (next : VarId) (past steps : List Step) :
    (traceAfter next past steps).map (·.2.count) =
      (List.range steps.length).map fun j => sinceReset (past ++ steps.take (j + 1)) := by
  induction steps generalizing past with
  | nil => rfl
  | cons s steps ih =>
    rw [traceAfter, List.map_cons, ih, List.length_cons, List.range_succ_eq_map,
      List.map_cons, List.map_map]
    refine congrArg₂ List.cons rfl (List.map_congr_left fun j _ => ?_)
    show _ = sinceReset (past ++ s :: steps.take (j + 1))
    rw [List.append_assoc]
    rfl

/-- **No variable is repeated or disturbed.** From any id on, and for any steps that take variables,
reset the count and renumber variables taken before, the run gives each variable the next id, after
the greatest the least, and no id twice. No cell is handed out twice. The count after each step is
the number of variables taken since the last reset. In the end, each variable has the id it was last
renumbered to, or the one it was handed out with, whatever happened to the others. -/
theorem run_undisturbed (next : VarId) (steps : List Step) (legal : Legal 0 steps)
    (few : steps.count .alloc < 2 ^ 63) :
    ∃ trace last, run { supply := { next := next } } steps = some (trace, last) ∧
      returned steps trace = idsFrom next (steps.count .alloc) ∧ (returned steps trace).Nodup ∧
      last.handed.length = steps.count .alloc ∧ last.handed.Nodup ∧
      trace.map (·.2.count) =
        (List.range steps.length).map (fun j => sinceReset (steps.take (j + 1))) ∧
      last.supply.count = sinceReset steps ∧
      last.issued = (List.range (steps.count .alloc)).map fun i =>
        (lastSet? steps i).getD (next + .ofNat i) := by
  obtain ⟨last, hrun, after⟩ := (after_new next).run legal
  rw [List.nil_append] at after
  have ids : returned steps (traceAfter next [] steps) = idsFrom next (steps.count .alloc) := by
    rw [returned_traceAfter]
    exact congrArg (idsFrom · _) (Int64.add_zero next)
  refine ⟨_, last, hrun, ids, ids ▸ nodup_idsFrom next few, after.length_handed, after.sound.nodup,
    map_count_traceAfter next [] steps, ?_, after.issued⟩
  rw [after.supply]
  rfl

/-- Ten variables are taken from two blocks and two more after a reset, from a third. Two of them
are renumbered, one of these to an id that another has. -/
def threeBlocks : List Step :=
  List.replicate 10 .alloc ++ [.renumber 9 5, .reset, .alloc, .renumber 0 7, .renumber 9 7, .alloc]

/-- The third id is the least of all. -/
theorem run_undisturbed_threeBlocks :
    Legal 0 threeBlocks ∧ ∃ trace last,
      run { supply := { next := 9223372036854775806 } } threeBlocks = some (trace, last) ∧
      (returned threeBlocks trace).Nodup ∧ last.handed = [0, 1, 2, 3, 4, 5, 6, 7, 8, 9, 16, 17] ∧
      last.handed.Nodup ∧ last.supply.count = 2 ∧
      last.issued = [7, 9223372036854775807, -9223372036854775808, -9223372036854775807,
        -9223372036854775806, -9223372036854775805, -9223372036854775804, -9223372036854775803,
        -9223372036854775802, 7, -9223372036854775800, -9223372036854775799] := by
  have legal : Legal 0 threeBlocks := by decide
  obtain ⟨trace, last, hrun, -, nodup, -, cells, -, count, issued⟩ :=
    run_undisturbed 9223372036854775806 threeBlocks legal (by decide)
  have handed : (run { supply := { next := 9223372036854775806 } } threeBlocks).map (·.2.handed) =
      some [0, 1, 2, 3, 4, 5, 6, 7, 8, 9, 16, 17] := by decide
  rw [hrun] at handed
  refine ⟨legal, trace, last, hrun, nodup, Option.some.inj handed, cells, count.trans (by decide),
    issued.trans (by decide)⟩

end Pool

end Monotype
