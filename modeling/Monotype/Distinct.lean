/-!
# Counting distinct elements

`distinct l` is the number of different elements of a list. It grows with the set of elements:
`distinct_le` and `distinct_lt`.
-/

namespace Monotype

variable {α : Type} [DecidableEq α]

/-- The number of different elements of a list. -/
def distinct : List α → Nat
  | [] => 0
  | a :: l => if a ∈ l then distinct l else distinct l + 1

/-- Removing all occurrences of an element lowers the count by one. -/
theorem distinct_filter_ne {a : α} {l : List α} (h : a ∈ l) :
    distinct (l.filter (· ≠ a)) + 1 = distinct l := by
  induction l with
  | nil => cases h
  | cons b l ih =>
    by_cases hb : b = a
    · subst hb
      by_cases hl : b ∈ l
      · simpa [distinct, hl] using ih hl
      · have : l.filter (· ≠ b) = l :=
          List.filter_eq_self.2 fun x hx => decide_eq_true fun e => hl (e ▸ hx)
        simpa [distinct, hl] using congrArg distinct this
    · have hl : a ∈ l := (List.mem_cons.1 h).resolve_left (Ne.symm hb)
      have := ih hl
      by_cases hmem : b ∈ l <;> simp_all [distinct]

theorem distinct_le {l k : List α} (sub : ∀ a ∈ l, a ∈ k) : distinct l ≤ distinct k := by
  induction l generalizing k with
  | nil => exact Nat.zero_le _
  | cons a l ih =>
    by_cases ha : a ∈ l
    · simpa [distinct, ha] using ih fun b hb => sub b (List.mem_cons_of_mem _ hb)
    · have step : distinct l ≤ distinct (k.filter (· ≠ a)) := ih fun b hb =>
        List.mem_filter.2 ⟨sub b (List.mem_cons_of_mem _ hb), decide_eq_true fun e => ha (e ▸ hb)⟩
      have := distinct_filter_ne (sub a List.mem_cons_self)
      simp only [distinct, ha, if_false]
      omega

/-- A list that lacks an element of another, and has no others, has fewer different elements. -/
theorem distinct_lt {l k : List α} (sub : ∀ a ∈ l, a ∈ k) {a : α} (hk : a ∈ k) (hl : a ∉ l) :
    distinct l < distinct k := by
  have : distinct (a :: l) ≤ distinct k :=
    distinct_le fun b hb => (List.mem_cons.1 hb).elim (· ▸ hk) (sub b)
  simp only [distinct, hl, if_false] at this
  omega

end Monotype
