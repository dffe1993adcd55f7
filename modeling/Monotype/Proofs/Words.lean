import Mathlib
import Monotype.Ty.Print

/-!
# Words

Names, numerals and the mark of a missing part are printed as words: texts without spaces, brackets
and commas. Where a word is followed by one of these, or by nothing, the text can be cut in one way
only (`IsWord.append_inj`), which is what the unambiguity of printed types and expressions rests on.

The names that printing makes up are words as well, and different variables get different ones
(`letterName_injective`). They begin with a quotation mark, so they are never confused with
identifiers.
-/

namespace Monotype

/-! ## Cutting a text after a word -/

/-- The characters that end a word. -/
def delimiters : List Char := [' ', '(', ')', ',', '\x7d']

/-- A text that is not empty and has no delimiters. -/
structure IsWord (w : String) : Prop where
  nonempty : w.toList ≠ []
  chars : ∀ c ∈ w.toList, c ∉ delimiters

instance (w : String) : Decidable (IsWord w) :=
  decidable_of_iff (w.toList ≠ [] ∧ w.toList.all (· ∉ delimiters) = true)
    ⟨fun h => ⟨h.1, fun c hc => of_decide_eq_true (List.all_eq_true.1 h.2 c hc)⟩,
      fun h => ⟨h.nonempty, List.all_eq_true.2 fun c hc => decide_eq_true (h.chars c hc)⟩⟩

/-- The rest of a text after a word: nothing, or a text that begins with a delimiter. -/
def EndsWord (k : List Char) : Prop := ∀ c ∈ k.head?, c ∈ delimiters

theorem endsWord_nil : EndsWord [] := nofun

theorem endsWord_cons {c : Char} {k : List Char} : EndsWord (c :: k) ↔ c ∈ delimiters := by
  simp [EndsWord]

variable {w w' : String} {k k' : List Char}

theorem IsWord.takeWhile_append (hw : IsWord w) (hk : EndsWord k) :
    (w.toList ++ k).takeWhile (· ∉ delimiters) = w.toList := by
  have rest : k.takeWhile (· ∉ delimiters) = [] := by
    cases k with
    | nil => rfl
    | cons c k => rw [List.takeWhile_cons_of_neg (by simpa using endsWord_cons.1 hk)]
  rw [List.takeWhile_append_of_pos fun c hc => decide_eq_true (hw.chars c hc), rest,
    List.append_nil]

/-- **Words are cut in one way.** -/
theorem IsWord.append_inj (hw : IsWord w) (hw' : IsWord w') (hk : EndsWord k) (hk' : EndsWord k')
    (h : w.toList ++ k = w'.toList ++ k') : w = w' ∧ k = k' := by
  have words : w.toList = w'.toList := by
    rw [← hw.takeWhile_append hk, h, hw'.takeWhile_append hk']
  rw [words] at h
  exact ⟨String.toList_inj.1 words, List.append_cancel_left h⟩

/-- A word does not begin with a delimiter. -/
theorem IsWord.append_ne_cons (hw : IsWord w) {c : Char} (hc : c ∈ delimiters) :
    w.toList ++ k ≠ c :: k' := by
  intro h
  cases e : w.toList with
  | nil => exact hw.nonempty e
  | cons d ds =>
    rw [e, List.cons_append] at h
    obtain rfl := (List.cons.inj h).1
    exact hw.chars d (e ▸ List.mem_cons_self) hc

/-! ## Identifiers and numerals -/

/-- A letter or an underscore. -/
def isInitial (c : Char) : Bool := c.isAlpha || c == '_'

/-- A letter, a digit or an underscore. -/
def isSubsequent (c : Char) : Bool := c.isAlphanum || c == '_'

/-- A letter or an underscore, followed by letters, digits and underscores. -/
def isIdentifier (name : String) : Bool :=
  match name.toList with
  | [] => false
  | c :: cs => isInitial c && cs.all isSubsequent

/-- The characters of a class that has no delimiters are none. -/
theorem notMem_delimiters {p : Char → Bool} (hp : delimiters.any p = false) {c : Char}
    (hc : p c = true) : c ∉ delimiters := fun h => List.any_eq_false.1 hp c h hc

theorem isWord_of_isIdentifier (h : isIdentifier w = true) : IsWord w := by
  unfold isIdentifier at h
  split at h
  · cases h
  next c cs e =>
    obtain ⟨hc, hcs⟩ := Bool.and_eq_true_iff.1 h
    refine ⟨by simp [e], fun d hd => ?_⟩
    rcases List.mem_cons.1 (e ▸ hd) with rfl | hd
    · exact notMem_delimiters (p := isInitial) rfl hc
    · exact notMem_delimiters (p := isSubsequent) rfl (List.all_eq_true.1 hcs d hd)

theorem isDigit_of_mem_repr {n : Nat} {c : Char} (h : c ∈ (Nat.repr n).toList) :
    c.isDigit = true := by
  rw [Nat.repr_eq_ofList_toDigits, String.toList_ofList] at h
  exact Nat.isDigit_of_mem_toDigits (by decide) (by decide) h

theorem toList_repr_ne_nil (n : Nat) : (Nat.repr n).toList ≠ [] := by
  rw [Nat.repr_eq_ofList_toDigits, String.toList_ofList]
  exact Nat.toDigits_ne_nil

/-- A numeral is a digit or a minus sign, followed by digits. -/
theorem toList_intRepr (n : Int) :
    ∃ c cs, (Int.repr n).toList = c :: cs ∧ (c.isDigit = true ∨ c = '-') ∧
      ∀ d ∈ cs, d.isDigit = true := by
  have digits : ∀ m : Nat, ∃ c cs, (Nat.repr m).toList = c :: cs ∧ c.isDigit = true ∧
      ∀ d ∈ cs, d.isDigit = true := by
    intro m
    obtain ⟨c, cs, e⟩ := List.exists_cons_of_ne_nil (toList_repr_ne_nil m)
    exact ⟨c, cs, e, isDigit_of_mem_repr (e ▸ List.mem_cons_self), fun d hd =>
      isDigit_of_mem_repr (e ▸ List.mem_cons_of_mem c hd)⟩
  cases n with
  | ofNat m =>
    obtain ⟨c, cs, e, hc, hcs⟩ := digits m
    exact ⟨c, cs, e, .inl hc, hcs⟩
  | negSucc m =>
    refine ⟨'-', (Nat.repr (m + 1)).toList, ?_, .inr rfl, fun d hd => isDigit_of_mem_repr hd⟩
    show ("-" ++ Nat.repr (m + 1)).toList = _
    rw [String.toList_append]
    rfl

theorem isWord_intRepr (n : Int) : IsWord (Int.repr n) := by
  obtain ⟨c, cs, e, hc, hcs⟩ := toList_intRepr n
  have digit : ∀ d : Char, d.isDigit = true → d ∉ delimiters :=
    fun d => notMem_delimiters (p := Char.isDigit) rfl
  refine ⟨by simp [e], fun d hd => ?_⟩
  rcases List.mem_cons.1 (e ▸ hd) with rfl | hd
  · rcases hc with hc | rfl
    · exact digit d hc
    · decide
  · exact digit d (hcs d hd)

theorem isInitial_of_isDigit {c : Char} (h : c.isDigit = true) : isInitial c = false := by
  have ne : c ≠ '_' := by
    rintro rfl
    exact absurd h (by decide)
  grind [isInitial, Char.isAlpha, Char.isUpper, Char.isLower, Char.isDigit]

/-- A numeral is no identifier. -/
theorem isIdentifier_intRepr (n : Int) : isIdentifier (Int.repr n) = false := by
  obtain ⟨c, cs, e, hc, -⟩ := toList_intRepr n
  have initial : isInitial c = false := by
    rcases hc with hc | rfl
    · exact isInitial_of_isDigit hc
    · decide
  unfold isIdentifier
  rw [e]
  simp only [initial, Bool.false_and]

/-! ## Names of variables -/

theorem toList_letterName (i : Nat) : (letterName i).toList =
    "'".toList ++
      (Char.ofNat ('a'.toNat + i % 26) :: if i < 26 then [] else (Nat.repr (i / 26)).toList) := by
  unfold letterName
  split <;> simp

theorem letter_injective {i j : Nat}
    (h : Char.ofNat ('a'.toNat + i % 26) = Char.ofNat ('a'.toNat + j % 26)) : i % 26 = j % 26 := by
  have toNat : ∀ n : Nat, (Char.ofNat ('a'.toNat + n % 26)).toNat = 'a'.toNat + n % 26 := by
    intro n
    have small : 'a'.toNat + n % 26 < 0xd800 := by
      have := Nat.mod_lt n (show 26 > 0 by decide)
      simp
      omega
    rw [Char.toNat_ofNat, if_pos (.inl small)]
  have := congrArg Char.toNat h
  rw [toNat, toNat] at this
  omega

/-- **Different variables get different names.** -/
theorem letterName_injective : Function.Injective letterName := by
  intro i j h
  have texts := congrArg String.toList h
  rw [toList_letterName, toList_letterName, List.append_cancel_left_eq, List.cons.injEq] at texts
  obtain ⟨letters, rounds⟩ := texts
  have letters := letter_injective letters
  split at rounds <;> split at rounds
  · omega
  · exact absurd rounds.symm (toList_repr_ne_nil _)
  · exact absurd rounds (toList_repr_ne_nil _)
  · have rounds := Nat.repr_inj.1 (String.toList_inj.1 rounds)
    omega

theorem isWord_letterName (i : Nat) : IsWord (letterName i) := by
  have letter : ∀ n < 26, Char.ofNat ('a'.toNat + n) ∉ delimiters := by decide
  refine ⟨by rw [toList_letterName]; simp, fun c hc => ?_⟩
  rw [toList_letterName, List.mem_append, List.mem_cons] at hc
  rcases hc with hc | rfl | hc
  · obtain rfl := List.mem_singleton.1 hc
    decide
  · exact letter _ (Nat.mod_lt _ (by decide))
  · split at hc
    · cases hc
    · exact notMem_delimiters (p := Char.isDigit) rfl (isDigit_of_mem_repr hc)

theorem letterName_quoted (i : Nat) : ∃ w, letterName i = "'" ++ w := by
  unfold letterName
  split
  · exact ⟨_, rfl⟩
  · exact ⟨_, String.append_assoc⟩

theorem isIdentifier_quoted (w : String) : isIdentifier ("'" ++ w) = false := by
  unfold isIdentifier
  rw [String.toList_append]
  rfl

theorem quoted_ne_nil (w : String) : "'" ++ w ≠ "<nil>" := by
  intro h
  have texts := congrArg String.toList h
  rw [String.toList_append] at texts
  exact absurd (List.cons.inj texts).1 (by decide)

end Monotype
