import Std.Data.ExtTreeMap

/-!
# Finite maps with fallible updates

`mapValuesM` rewrites every value of a sorted map, in key order, and stops at the first value that
cannot be rewritten. `getElem?_of_mapValuesM` says that the result is the pointwise image.

`updateM` goes through the entries and stores only those that change. While it runs over the entries
of a map it writes to a later version of the same map, and it comes to the same result
(`updateM_toList`).
-/

namespace Monotype

open Std

variable {κ β γ ε : Type}

/-! ## Lists of entries -/

/-- Rewrites the second component of every pair, or stops at the first failure. -/
def mapSndM (f : β → Except ε γ) : List (κ × β) → Except ε (List (κ × γ))
  | [] => .ok []
  | (k, b) :: l => do
    let c ← f b
    let r ← mapSndM f l
    return (k, c) :: r

theorem mapSndM_cons_eq_ok_iff {f : β → Except ε γ} {k : κ} {b : β} {l : List (κ × β)}
    {r : List (κ × γ)} :
    mapSndM f ((k, b) :: l) = .ok r ↔
      ∃ c r', f b = .ok c ∧ mapSndM f l = .ok r' ∧ r = (k, c) :: r' := by
  cases hb : f b <;> cases hl : mapSndM f l <;>
    simp [mapSndM, hb, hl, bind, Except.bind, pure, Except.pure, eq_comm]

theorem map_fst_of_mapSndM {f : β → Except ε γ} {l : List (κ × β)} {r : List (κ × γ)}
    (h : mapSndM f l = .ok r) : r.map Prod.fst = l.map Prod.fst := by
  induction l generalizing r with
  | nil => cases h; rfl
  | cons e l ih =>
    obtain ⟨c, r', _, hl, rfl⟩ := mapSndM_cons_eq_ok_iff.1 h
    simp [ih hl]

theorem exists_mem_of_mapSndM {f : β → Except ε γ} {l : List (κ × β)} {r : List (κ × γ)}
    (h : mapSndM f l = .ok r) {k : κ} {b : β} (hk : (k, b) ∈ l) :
    ∃ c, f b = .ok c ∧ (k, c) ∈ r := by
  induction l generalizing r with
  | nil => cases hk
  | cons e l ih =>
    obtain ⟨c, r', hc, hl, rfl⟩ := mapSndM_cons_eq_ok_iff.1 h
    rcases List.mem_cons.1 hk with rfl | hk
    · exact ⟨c, hc, List.mem_cons_self⟩
    · obtain ⟨d, hd, hmem⟩ := ih hl hk
      exact ⟨d, hd, List.mem_cons_of_mem _ hmem⟩

theorem mem_of_mapSndM {f : β → Except ε γ} {l : List (κ × β)} {r : List (κ × γ)}
    (h : mapSndM f l = .ok r) {k : κ} {c : γ} (hk : (k, c) ∈ r) :
    ∃ b, (k, b) ∈ l ∧ f b = .ok c := by
  induction l generalizing r with
  | nil => cases h; cases hk
  | cons e l ih =>
    obtain ⟨d, r', hd, hl, rfl⟩ := mapSndM_cons_eq_ok_iff.1 h
    rcases List.mem_cons.1 hk with hk | hk
    · cases hk
      exact ⟨e.2, List.mem_cons_self, hd⟩
    · obtain ⟨b, hb, hc⟩ := ih hl hk
      exact ⟨b, List.mem_cons_of_mem _ hb, hc⟩

theorem exists_mapSndM {f : β → Except ε γ} {l : List (κ × β)}
    (h : ∀ e ∈ l, ∃ c, f e.2 = .ok c) : ∃ r, mapSndM f l = .ok r := by
  induction l with
  | nil => exact ⟨[], rfl⟩
  | cons e l ih =>
    obtain ⟨c, hc⟩ := h e List.mem_cons_self
    obtain ⟨r, hr⟩ := ih fun e' he' => h e' (List.mem_cons_of_mem _ he')
    exact ⟨(e.1, c) :: r, mapSndM_cons_eq_ok_iff.2 ⟨c, r, hc, hr, rfl⟩⟩

/-! ## Sorted maps -/

variable {cmp : κ → κ → Ordering} [TransCmp cmp]

/-- Rewrites every value of a map in key order, or stops at the first failure. -/
def mapValuesM (f : β → Except ε γ) (m : ExtTreeMap κ β cmp) :
    Except ε (ExtTreeMap κ γ cmp) :=
  (mapSndM f m.toList).map (.ofList · cmp)

theorem getElem?_insertMany_of_not_mem [BEq κ] [LawfulEqCmp cmp] [LawfulBEqCmp cmp]
    {m : ExtTreeMap κ β cmp} {l : List (κ × β)} {k : κ} (absent : ∀ c, (k, c) ∉ l) :
    (m.insertMany l)[k]? = m[k]? := by
  refine ExtTreeMap.getElem?_insertMany_list_of_contains_eq_false ?_
  rw [← Bool.not_eq_true, List.contains_iff_exists_mem_beq]
  rintro ⟨k', hk', e⟩
  obtain ⟨⟨k₀, c⟩, hc, rfl⟩ := List.mem_map.1 hk'
  have hcmp : cmp k k₀ = .eq := LawfulBEqCmp.compare_eq_iff_beq.2 e
  obtain rfl := LawfulEqCmp.eq_of_compare hcmp
  exact absent c hc

/-- An entry of a list is found after the list is inserted, if no other entry has its key. -/
theorem getElem?_insertMany_of_mem [BEq κ] [LawfulEqCmp cmp] [LawfulBEqCmp cmp]
    {m : ExtTreeMap κ β cmp} {l : List (κ × β)} {k : κ} {b : β} (mem : (k, b) ∈ l)
    (only : ∀ c, (k, c) ∈ l → c = b) : (m.insertMany l)[k]? = some b := by
  induction l generalizing m with
  | nil => cases mem
  | cons e l ih =>
    obtain ⟨k', b'⟩ := e
    rw [ExtTreeMap.insertMany_cons]
    by_cases later : ∃ c, (k, c) ∈ l
    · obtain ⟨c, hc⟩ := later
      obtain rfl := only c (List.mem_cons_of_mem _ hc)
      exact ih hc fun d hd => only d (List.mem_cons_of_mem _ hd)
    · rw [getElem?_insertMany_of_not_mem fun c hc => later ⟨c, hc⟩]
      cases (List.mem_cons.1 mem).resolve_right fun h => later ⟨b, h⟩
      exact ExtTreeMap.getElem?_insert_self

/-- The map of a list has the entries of the list, if no key has two values. -/
theorem getElem?_ofList_eq_some_iff [BEq κ] [LawfulEqCmp cmp] [LawfulBEqCmp cmp] {l : List (κ × β)}
    {k : κ} {b : β} (only : ∀ c d, (k, c) ∈ l → (k, d) ∈ l → c = d) :
    (ExtTreeMap.ofList l cmp)[k]? = some b ↔ (k, b) ∈ l := by
  rw [ExtTreeMap.ofList_eq_insertMany_empty]
  have of_mem : ∀ {c : β}, (k, c) ∈ l → ((∅ : ExtTreeMap κ β cmp).insertMany l)[k]? = some c :=
    fun h => getElem?_insertMany_of_mem h fun d hd => only d _ hd h
  refine ⟨fun h => ?_, of_mem⟩
  by_cases mem : ∃ c, (k, c) ∈ l
  · obtain ⟨c, hc⟩ := mem
    rw [of_mem hc] at h
    cases h
    exact hc
  · rw [getElem?_insertMany_of_not_mem fun c hc => mem ⟨c, hc⟩, ExtTreeMap.getElem?_empty] at h
    cases h

/-- If every value can be rewritten, so can the map. -/
theorem exists_mapValuesM [LawfulEqCmp cmp] {f : β → Except ε γ} {m : ExtTreeMap κ β cmp}
    (h : ∀ (k : κ) (b : β), m[k]? = some b → ∃ c, f b = .ok c) : ∃ m', mapValuesM f m = .ok m' := by
  obtain ⟨r, hr⟩ := exists_mapSndM (f := f) (l := m.toList) fun e he =>
    h e.1 e.2 (ExtTreeMap.mem_toList_iff_getElem?_eq_some.1 he)
  exact ⟨.ofList r cmp, by rw [mapValuesM, hr]; rfl⟩

/-- Every entry of the result is the image of the entry with the same key. -/
theorem getElem?_of_mapValuesM [BEq κ] [LawfulEqCmp cmp] [LawfulBEqCmp cmp]
    {f : β → Except ε γ} {m : ExtTreeMap κ β cmp} {m' : ExtTreeMap κ γ cmp}
    (h : mapValuesM f m = .ok m') (k : κ) :
    (m[k]? = none ∧ m'[k]? = none) ∨
      ∃ b c, m[k]? = some b ∧ f b = .ok c ∧ m'[k]? = some c := by
  unfold mapValuesM at h
  cases hr : mapSndM f m.toList with
  | error e => simp [hr, Except.map] at h
  | ok r =>
    obtain rfl : ExtTreeMap.ofList r cmp = m' := by simpa [hr, Except.map] using h
    have keys := map_fst_of_mapSndM hr
    have distinct : r.Pairwise (fun a b => ¬ cmp a.1 b.1 = .eq) := by
      have := m.distinct_keys_toList
      rw [← List.pairwise_map (R := fun a b => ¬ cmp a b = .eq) (f := Prod.fst)] at this ⊢
      rwa [keys]
    cases hk : m[k]? with
    | none =>
      refine .inl ⟨rfl, ExtTreeMap.getElem?_ofList_of_contains_eq_false ?_⟩
      rw [keys, ExtTreeMap.map_fst_toList_eq_keys, ExtTreeMap.contains_keys,
        ← Bool.not_eq_true, ExtTreeMap.contains_iff_mem]
      simpa using hk
    | some b =>
      obtain ⟨c, hc, hmem⟩ := exists_mem_of_mapSndM hr
        (ExtTreeMap.mem_toList_iff_getElem?_eq_some.2 hk)
      exact .inr ⟨b, c, rfl, hc,
        ExtTreeMap.getElem?_ofList_of_mem ReflCmp.compare_self distinct hmem⟩

/-- If rewriting is a function on the values of a map, then it is mapped over them. -/
theorem mapValuesM_eq_map [BEq κ] [LawfulEqCmp cmp] [LawfulBEqCmp cmp] {f : β → Except ε γ}
    {g : β → γ} {m : ExtTreeMap κ β cmp} (h : ∀ (k : κ) (b : β), m[k]? = some b → f b = .ok (g b)) :
    mapValuesM f m = .ok (m.map fun _ b => g b) := by
  obtain ⟨m', hm'⟩ := exists_mapValuesM fun k b hb => ⟨g b, h k b hb⟩
  rw [hm']
  refine congrArg Except.ok (ExtTreeMap.ext_getElem? fun {k} => ?_)
  rw [ExtTreeMap.getElem?_map]
  rcases getElem?_of_mapValuesM hm' k with ⟨hk, hk'⟩ | ⟨b, c, hb, hc, hk'⟩
  · rw [hk, hk']
    rfl
  · rw [h k b hb] at hc
    cases hc
    rw [hb, hk']
    rfl

/-! ## Changed entries -/

/-- Rewrites entries in order, and stores in a map those that `differs` tells apart from what they
were. -/
def updateM (differs : κ → β → β → Bool) (f : β → Except ε β) (l : List (κ × β))
    (m : ExtTreeMap κ β cmp) : Except ε (ExtTreeMap κ β cmp) :=
  l.foldlM (fun m e => do
    let b ← f e.2
    return if differs e.1 b e.2 then m.insert e.1 b else m) m

theorem insert_eq_self [LawfulEqCmp cmp] {m : ExtTreeMap κ β cmp} {k : κ} {b : β}
    (h : m[k]? = some b) : m.insert k b = m := by
  refine ExtTreeMap.ext_getElem? fun {k'} => ?_
  rw [ExtTreeMap.getElem?_insert]
  split
  next e => rw [← LawfulEqCmp.eq_of_compare e, h]
  next => rfl

/-- An entry that is not stored again was already there. -/
theorem updateM_eq_insertMany [LawfulEqCmp cmp] {differs : κ → β → β → Bool}
    (tells : ∀ k b c, differs k b c = false → b = c) (f : β → Except ε β) {l : List (κ × β)}
    {m : ExtTreeMap κ β cmp} (distinct : l.Pairwise fun a b => ¬ cmp a.1 b.1 = .eq)
    (stored : ∀ e ∈ l, m[e.1]? = some e.2) :
    updateM differs f l m = (mapSndM f l).map fun r => m.insertMany r := by
  induction l generalizing m with
  | nil => simp [updateM, mapSndM, pure, Except.pure, Except.map]
  | cons e l ih =>
    obtain ⟨k, b⟩ := e
    obtain ⟨others, distinct⟩ := List.pairwise_cons.1 distinct
    rw [updateM, List.foldlM_cons, mapSndM]
    cases hc : f b with
    | error x => rfl
    | ok c =>
      have step : (if differs k c b then m.insert k c else m) = m.insert k c := by
        split
        next => rfl
        next same =>
          obtain rfl := tells k c b (eq_false_of_ne_true same)
          exact (insert_eq_self (stored _ List.mem_cons_self)).symm
      -- the entries still to come have other keys
      have stored' : ∀ e ∈ l, (m.insert k c)[e.1]? = some e.2 := fun e he => by
        rw [ExtTreeMap.getElem?_insert, if_neg (others e he)]
        exact stored e (List.mem_cons_of_mem _ he)
      show updateM differs f l (if differs k c b then m.insert k c else m) = _
      rw [step, ih distinct stored']
      cases mapSndM f l with
      | error x => rfl
      | ok r => exact congrArg Except.ok ExtTreeMap.insertMany_cons.symm

/-- **Changed entries only.** It is enough to store the entries that change, whatever the test does
with those that stay the same. -/
theorem updateM_toList [BEq κ] [LawfulEqCmp cmp] [LawfulBEqCmp cmp] {differs : κ → β → β → Bool}
    (tells : ∀ k b c, differs k b c = false → b = c) (f : β → Except ε β) (m : ExtTreeMap κ β cmp) :
    updateM differs f m.toList m = mapValuesM f m := by
  have stored : ∀ e ∈ m.toList, m[e.1]? = some e.2 := fun e he =>
    ExtTreeMap.mem_toList_iff_getElem?_eq_some.1 he
  rw [updateM_eq_insertMany tells f m.distinct_keys_toList stored]
  cases hr : mapSndM f m.toList with
  | error x => rw [mapValuesM, hr]; rfl
  | ok r =>
    have hm : mapValuesM f m = .ok (.ofList r cmp) := by rw [mapValuesM, hr]; rfl
    rw [hm]
    refine congrArg Except.ok (ExtTreeMap.ext_getElem? fun {k} => ?_)
    have only : ∀ c d, (k, c) ∈ r → (k, d) ∈ r → c = d := by
      intro c d hc hd
      obtain ⟨b, hb, hbc⟩ := mem_of_mapSndM hr hc
      obtain ⟨b', hb', hbd⟩ := mem_of_mapSndM hr hd
      obtain rfl : b = b' := Option.some.inj ((stored _ hb).symm.trans (stored (k, b') hb'))
      exact Except.ok.inj (hbc.symm.trans hbd)
    by_cases mem : ∃ c, (k, c) ∈ r
    · obtain ⟨c, hc⟩ := mem
      rw [getElem?_insertMany_of_mem hc fun d hd => only d c hd hc,
        (getElem?_ofList_eq_some_iff only).2 hc]
    · have absent : ∀ c, (k, c) ∉ r := fun c hc => mem ⟨c, hc⟩
      rw [getElem?_insertMany_of_not_mem absent, ExtTreeMap.ofList_eq_insertMany_empty,
        getElem?_insertMany_of_not_mem absent, ExtTreeMap.getElem?_empty]
      cases hk : m[k]? with
      | none => rfl
      | some b =>
        obtain ⟨c, -, hc⟩ :=
          exists_mem_of_mapSndM hr (ExtTreeMap.mem_toList_iff_getElem?_eq_some.2 hk)
        exact absurd hc (absent c)

end Monotype
