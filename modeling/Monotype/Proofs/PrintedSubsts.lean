import Monotype.Proofs.PrintedTypes
import Monotype.Proofs.Symmetry
import Monotype.Subst.Print

/-!
# Printed substitutions

The text of a substitution determines its entries.

1. Ids are printed as words, different ids as different ones (`idName_injective`). So the text of a
type that is printed by id determines the type itself, and not only up to renaming
(`printById_append_inj`).
2. An entry is followed by a comma or by the closing brace. Neither goes on with a type, so the text
of an entry can be cut off, and what is left is the text behind it (`printEntry_append_inj`).
3. By induction on the entries, two lists with the same text are equal (`entriesText_inj`).
-/

namespace Monotype

open Function

/-! ## Ids as words -/

theorem toList_idName (v : VarId) :
    (idName v).toList = '\'' :: '_' :: (Int.repr v.toInt).toList := by
  unfold idName
  rw [String.toList_append]
  rfl

theorem idName_injective : Injective idName := by
  intro v w h
  have texts := congrArg String.toList h
  simp only [toList_idName, List.cons.injEq, true_and] at texts
  exact Int64.toInt_inj.1 (Int.repr_inj.1 (String.toList_inj.1 texts))

theorem isWord_idName (v : VarId) : IsWord (idName v) := by
  refine ⟨by simp [toList_idName], fun c hc => ?_⟩
  simp only [toList_idName, List.mem_cons] at hc
  rcases hc with rfl | rfl | hc
  · decide
  · decide
  · exact (isWord_intRepr v.toInt).chars c hc

namespace Ty

variable {t u : Ty} {k k' : List Char}

theorem isNaming_idName : IsNaming idName where
  word := isWord_idName
  quoted v := by
    refine ⟨"_" ++ Int.repr v.toInt, String.toList_inj.1 ?_⟩
    rw [toList_idName, String.toList_append, String.toList_append]
    rfl

/-- **Types printed by id can be read back.** -/
theorem printById_append_inj (ht : t.IsNamed) (hu : u.IsNamed) (hk : Closes false k)
    (hk' : Closes false k') (h : t.printById.toList ++ k = u.printById.toList ++ k') :
    t = u ∧ k = k' := by
  obtain ⟨aligned, rest⟩ :=
    aligned_of_render_append_eq isNaming_idName isNaming_idName ht hu hk hk' h
  have renamed : u = t.rename id := aligned.eq_rename fun v _ w _ e => idName_injective e
  rw [rename_id] at renamed
  exact ⟨renamed.symm, rest⟩

theorem eq_of_identical (h : t.identical u = true) : t = u := by
  induction t generalizing u with
  | missing | foreign => cases u <;> simp_all [identical]
  | const | var => cases u <;> simp_all [identical]
  | arrow a r iha ihr =>
    cases u with
    | arrow b q =>
      rw [identical, Bool.and_eq_true] at h
      rw [iha h.1, ihr h.2]
    | missing | const | var | foreign => cases h

theorem IsNamed.identical_self (ht : t.IsNamed) : t.identical t = true := by
  induction t with
  | arrow a r iha ihr => rw [identical, iha ht.1, ihr ht.2]; rfl
  | missing => rfl
  | const | var => simp only [identical, beq_self_eq_true]
  | foreign => exact ht.elim

end Ty

namespace Subst

variable {s s₁ s₂ : Subst} {e e' : VarId × Ty} {l l' : List (VarId × Ty)} {k k' : List Char}

/-! ## Entries -/

theorem toList_printEntry (e : VarId × Ty) (k : List Char) :
    (printEntry e).toList ++ k =
      (idName e.1).toList ++ (' ' :: ':' :: '=' :: ' ' :: (e.2.printById.toList ++ k)) := by
  simp [printEntry]

theorem printEntry_append_inj (he : e.2.IsNamed) (he' : e'.2.IsNamed) (hk : Ty.Closes false k)
    (hk' : Ty.Closes false k') (h : (printEntry e).toList ++ k = (printEntry e').toList ++ k') :
    e = e' ∧ k = k' := by
  have space : ∀ k : List Char, EndsWord (' ' :: k) := fun k => endsWord_cons.2 (by decide)
  rw [toList_printEntry, toList_printEntry] at h
  obtain ⟨names, tail⟩ := (isWord_idName e.1).append_inj (isWord_idName e'.1) (space _) (space _) h
  simp only [List.cons.injEq, true_and] at tail
  obtain ⟨types, rest⟩ := Ty.printById_append_inj he he' hk hk' tail
  exact ⟨Prod.ext (idName_injective names) types, rest⟩

/-- An entry does not begin with a closing brace. -/
theorem printEntry_append_ne : (printEntry e).toList ++ k ≠ '\x7d' :: k' := by
  rw [toList_printEntry]
  exact (isWord_idName e.1).append_ne_cons (by decide)

/-! ## Lists of entries -/

/-- The text behind an entry: the other entries, each after a comma, and the closing brace. -/
def tailText : List (VarId × Ty) → List Char
  | [] => ['\x7d']
  | e :: l => ',' :: ' ' :: ((printEntry e).toList ++ tailText l)

/-- The text behind the opening brace. -/
def entriesText : List (VarId × Ty) → List Char
  | [] => ['\x7d']
  | e :: l => (printEntry e).toList ++ tailText l

theorem toList_intercalate_append (l : List (VarId × Ty)) :
    (", ".intercalate (l.map printEntry)).toList ++ ['\x7d'] = entriesText l := by
  cases l with
  | nil => rfl
  | cons e l =>
    rw [entriesText]
    induction l generalizing e with
    | nil => simp [tailText]
    | cons e' l ih =>
      rw [tailText, ← ih e', List.map_cons, List.map_cons, String.intercalate_cons_cons]
      simp

theorem closes_tailText (l : List (VarId × Ty)) : Ty.Closes false (tailText l) := by
  cases l with
  | nil => exact ⟨endsWord_cons.2 (by decide), fun _ => by simp [tailText]⟩
  | cons e l => exact ⟨endsWord_cons.2 (by decide), fun _ => by simp [tailText]⟩

/-- The types of all entries can be read back. -/
def AllNamed (l : List (VarId × Ty)) : Prop := ∀ e ∈ l, e.2.IsNamed

theorem tailText_inj (hl : AllNamed l) (hl' : AllNamed l') (h : tailText l = tailText l') :
    l = l' := by
  induction l generalizing l' with
  | nil =>
    cases l' with
    | nil => rfl
    | cons e' l' => exact absurd (List.cons.inj h).1 (by decide)
  | cons e l ih =>
    cases l' with
    | nil => exact absurd (List.cons.inj h).1 (by decide)
    | cons e' l' =>
      obtain ⟨he, tl⟩ := List.forall_mem_cons.1 hl
      obtain ⟨he', tl'⟩ := List.forall_mem_cons.1 hl'
      simp only [tailText, List.cons.injEq, true_and] at h
      obtain ⟨first, rest⟩ :=
        printEntry_append_inj he he' (closes_tailText l) (closes_tailText l') h
      rw [first, ih tl tl' rest]

/-- **Lists of entries can be read back.** -/
theorem entriesText_inj (hl : AllNamed l) (hl' : AllNamed l') (h : entriesText l = entriesText l') :
    l = l' := by
  cases l with
  | nil =>
    cases l' with
    | nil => rfl
    | cons e' l' => exact absurd h.symm printEntry_append_ne
  | cons e l =>
    cases l' with
    | nil => exact absurd h printEntry_append_ne
    | cons e' l' => exact tailText_inj hl hl' (congrArg (',' :: ' ' :: ·) h)

/-! ## Substitutions -/

theorem mapSndM_read (h : ∀ e ∈ l, e.2 ≠ Ty.missing) : mapSndM Ty.read l = .ok l := by
  induction l with
  | nil => rfl
  | cons e l ih =>
    obtain ⟨he, hl⟩ := List.forall_mem_cons.1 h
    exact mapSndM_cons_eq_ok_iff.2 ⟨e.2, l, Ty.read_eq_ok_iff.2 ⟨he, rfl⟩, ih hl, rfl⟩

/-- The substitution can be printed, and its text read back: every bound type is there, and is
named. -/
def Printable (s : Subst) : Prop := s.Forall fun t => t ≠ .missing ∧ t.IsNamed

theorem printable_iff : s.Printable ↔ ∀ e ∈ s.toList, e.2 ≠ .missing ∧ e.2.IsNamed :=
  ⟨fun h e he => h e.1 e.2 (mem_toList.1 he), fun h v t ht => h (v, t) (mem_toList.2 ht)⟩

theorem Printable.print_eq (h : s.Printable) :
    s.print = .ok ("\x7b" ++ ", ".intercalate (s.toList.map printEntry) ++ "\x7d") := by
  have read : s.readAll = .ok s.toList := mapSndM_read fun e he => (printable_iff.1 h e he).1
  rw [print, read]
  rfl

theorem toList_inj : s₁.toList = s₂.toList ↔ s₁ = s₂ := by
  refine ⟨fun h => ext fun v => Option.ext fun t => ?_, congrArg toList⟩
  rw [← mem_toList, ← mem_toList, h]

/-- Equal texts come from equal substitutions. -/
theorem Printable.print_inj (h₁ : s₁.Printable) (h₂ : s₂.Printable) :
    s₁.print = s₂.print ↔ s₁ = s₂ := by
  refine ⟨fun h => toList_inj.1 ?_, congrArg print⟩
  have named₁ : AllNamed s₁.toList := fun e he => (printable_iff.1 h₁ e he).2
  have named₂ : AllNamed s₂.toList := fun e he => (printable_iff.1 h₂ e he).2
  refine entriesText_inj named₁ named₂ ?_
  rw [h₁.print_eq, h₂.print_eq, Except.ok.injEq, ← String.toList_inj] at h
  simp only [String.toList_append, List.append_assoc, List.append_cancel_left_eq] at h
  rw [← toList_intercalate_append, ← toList_intercalate_append]
  exact h

/-- Substitutions are equal if they bind the same variables, and each of them to identical types. -/
theorem eq_iff_identical (h₁ : s₁.Printable) :
    s₁ = s₂ ↔ s₁.domain = s₂.domain ∧
      ∀ v t u, s₁.find? v = some t → s₂.find? v = some u → t.identical u = true := by
  constructor
  · rintro rfl
    refine ⟨rfl, fun v t u ht hu => ?_⟩
    obtain rfl : t = u := Option.some.inj (ht.symm.trans hu)
    exact (h₁ v t ht).2.identical_self
  · rintro ⟨domains, types⟩
    have bound : ∀ v, (∃ t, s₁.find? v = some t) ↔ ∃ u, s₂.find? v = some u := fun v => by
      rw [← mem_domain, ← mem_domain, domains]
    ext1 v
    cases ht : s₁.find? v with
    | none =>
      have unbound := (bound v).not.1 (by simp [ht])
      exact (Option.eq_none_iff_forall_ne_some.2 fun u hu => unbound ⟨u, hu⟩).symm
    | some t =>
      obtain ⟨u, hu⟩ := (bound v).1 ⟨t, ht⟩
      rw [hu, Ty.eq_of_identical (types v t u ht hu)]

/-- **Printed substitutions show their entries, and nothing else.** A substitution that binds named
types can be printed. Two of them have the same text if and only if they bind the same variables,
and each of them to identical types. -/
theorem print_eq_iff_identical (s₁ s₂ : Subst) (h₁ : s₁.Printable) (h₂ : s₂.Printable) :
    (∃ text, s₁.print = .ok text) ∧ (∃ text, s₂.print = .ok text) ∧
    (s₁.print = s₂.print ↔ s₁.domain = s₂.domain ∧
      ∀ v t u, s₁.find? v = some t → s₂.find? v = some u → t.identical u = true) :=
  ⟨⟨_, h₁.print_eq⟩, ⟨_, h₂.print_eq⟩, (h₁.print_inj h₂).trans (eq_iff_identical h₁)⟩

/-- Two entries that mention each other's variables, one of them with a negative id. -/
def crossed : Subst :=
  .ofList [(-1, .arrow (.arrow .int (.var 3)) .bool), (3, .arrow (.var (-1)) .missing)]

/-- The same entries, the later one bound first and replaced at the end. -/
def crossedAgain : Subst :=
  ((singleton 3 .int).insert (-1) (.arrow (.arrow .int (.var 3)) .bool)).insert 3
    (.arrow (.var (-1)) .missing)

/-- The first entry with its arrows grouped to the right. -/
def uncrossed : Subst :=
  .ofList [(-1, .arrow .int (.arrow (.var 3) .bool)), (3, .arrow (.var (-1)) .missing)]

theorem printable_crossed : crossed.Printable ∧ crossedAgain.Printable ∧ uncrossed.Printable := by
  have int : isIdentifier "int" = true := by decide
  have bool : isIdentifier "bool" = true := by decide
  have entries : crossed.toList =
      [(-1, .arrow (.arrow .int (.var 3)) .bool), (3, .arrow (.var (-1)) .missing)] := by cbv
  have again : crossedAgain.toList = crossed.toList := by cbv
  have other : uncrossed.toList =
      [(-1, .arrow .int (.arrow (.var 3) .bool)), (3, .arrow (.var (-1)) .missing)] := by cbv
  simp [printable_iff, again, entries, other, Ty.IsNamed, Ty.int, Ty.bool, int, bool]

/-- Entries are shown in order of id, however they were bound, and grouping is shown by parentheses.
-/
theorem print_eq_iff_identical_crossed :
    (crossed.Printable ∧ crossedAgain.Printable ∧ crossed.print = crossedAgain.print ∧
      crossed.print = .ok "\x7b'_-1 := (int -> '_3) -> bool, '_3 := '_-1 -> <nil>\x7d") ∧
    uncrossed.Printable ∧
      uncrossed.print = .ok "\x7b'_-1 := int -> '_3 -> bool, '_3 := '_-1 -> <nil>\x7d" ∧
    ¬ (crossed.domain = uncrossed.domain ∧
      ∀ v t u, crossed.find? v = some t → uncrossed.find? v = some u → t.identical u = true) := by
  obtain ⟨h, again, other⟩ := printable_crossed
  have text :
      crossed.print = .ok "\x7b'_-1 := (int -> '_3) -> bool, '_3 := '_-1 -> <nil>\x7d" := by cbv
  have text' :
      uncrossed.print = .ok "\x7b'_-1 := int -> '_3 -> bool, '_3 := '_-1 -> <nil>\x7d" := by cbv
  have same : crossed = crossedAgain := toList_inj.1 (by cbv)
  obtain ⟨-, -, equal⟩ := print_eq_iff_identical crossed crossedAgain h again
  obtain ⟨-, -, different⟩ := print_eq_iff_identical crossed uncrossed h other
  refine ⟨⟨h, again, equal.2 ((eq_iff_identical h).1 same), text⟩, other, text', fun entries => ?_⟩
  have texts := different.2 entries
  rw [text, text', Except.ok.injEq] at texts
  exact absurd texts (by decide)

end Subst

end Monotype
