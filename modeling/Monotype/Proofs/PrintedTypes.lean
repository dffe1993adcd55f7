import Monotype.Proofs.Renaming
import Monotype.Proofs.Words

/-!
# Printed types

A printed type shows its form and where the same variable occurs, and nothing else: two lists of
types have the same texts exactly if they are renamings of each other.

1. The text of a type is that of the type in which every variable is replaced by a constant with its
name (`render_spell`). A type without variables can be read back: `render_append_inj` says that its
text, even with more text behind it, determines the type. What may come next depends on the
position. After a nested type it may be an arrow, and otherwise not.
2. The names of the variables tell which variable of one list corresponds to which of the other. The
correspondence is extended to a renaming of all ids (`exists_renaming`).
-/

namespace Monotype

open Function

namespace Ty

variable {a r t u : Ty} {name name' : VarId → String} {nested : Bool} {w : String}
  {k k' : List Char}

/-! ## Unambiguous arrows -/

/-- The type is printed as a word: it is missing, or a constant. -/
inductive Leaf : Ty → String → Prop where
  | missing : Leaf .missing "<nil>"
  | const {c : String} : IsWord c → c ≠ "<nil>" → Leaf (.const c) c

/-- A type that is built from such leaves. -/
inductive IsText : Ty → Prop where
  | leaf {t : Ty} {w : String} : Leaf t w → IsText t
  | arrow {a r : Ty} : IsText a → IsText r → IsText (.arrow a r)

theorem Leaf.isWord (h : Leaf t w) : IsWord w := by
  cases h with
  | missing => decide
  | const hw _ => exact hw

theorem Leaf.unique (ht : Leaf t w) (hu : Leaf u w) : t = u := by
  cases ht with
  | missing =>
    cases hu with
    | missing => rfl
    | const _ ne => exact absurd rfl ne
  | const _ ne =>
    cases hu with
    | missing => exact absurd rfl ne
    | const => rfl

theorem Leaf.render_eq (h : Leaf t w) (name : VarId → String) (nested : Bool) :
    t.render name nested = w := by
  cases h <;> rfl

/-- What may follow a type in a text: no word, and if the type is not nested, no arrow either. -/
structure Closes (nested : Bool) (k : List Char) : Prop where
  endsWord : EndsWord k
  noArrow : nested = false → k.head? ≠ some ' '

theorem toList_render_open (name : VarId → String) (a r : Ty) (k : List Char) :
    ((Ty.arrow a r).render name false).toList ++ k =
      (a.render name true).toList ++
        (' ' :: '-' :: '>' :: ' ' :: ((r.render name false).toList ++ k)) := by
  simp [render]

theorem toList_render_nested (name : VarId → String) (a r : Ty) (k : List Char) :
    ((Ty.arrow a r).render name true).toList ++ k =
      '(' :: (((Ty.arrow a r).render name false).toList ++ (')' :: k)) := by
  simp [render]

/-- A function type is not read as a leaf. -/
theorem Leaf.append_ne (hw : Leaf t w) (ha : a.IsText) (hk : Closes nested k) :
    w.toList ++ k ≠ ((Ty.arrow a r).render name nested).toList ++ k' := by
  have paren : '(' ∈ delimiters := by decide
  cases nested with
  | true =>
    rw [toList_render_nested]
    exact hw.isWord.append_ne_cons paren
  | false =>
    rw [toList_render_open]
    cases ha with
    | leaf ha =>
      intro h
      rw [ha.render_eq] at h
      obtain ⟨-, rest⟩ := hw.isWord.append_inj ha.isWord hk.endsWord (endsWord_cons.2 (by decide)) h
      exact hk.noArrow rfl (by rw [rest]; rfl)
    | arrow =>
      rw [toList_render_nested]
      exact hw.isWord.append_ne_cons paren

/-- **Printed types can be read back.** -/
theorem render_append_inj (ht : t.IsText) (hu : u.IsText) (hk : Closes nested k)
    (hk' : Closes nested k')
    (h : (t.render name nested).toList ++ k = (u.render name nested).toList ++ k') :
    t = u ∧ k = k' := by
  induction ht generalizing u nested k k' with
  | leaf ht =>
    rw [ht.render_eq] at h
    cases hu with
    | leaf hu =>
      rw [hu.render_eq] at h
      obtain ⟨rfl, rest⟩ := ht.isWord.append_inj hu.isWord hk.endsWord hk'.endsWord h
      exact ⟨ht.unique hu, rest⟩
    | arrow ha _ => exact absurd h (ht.append_ne ha hk)
  | @arrow a r ha _ iha ihr =>
    cases hu with
    | leaf hu =>
      rw [hu.render_eq] at h
      exact absurd h.symm (hu.append_ne ha hk')
    | @arrow b q hb hq =>
      -- the argument is followed by the arrow, and the return by what follows the whole type
      have parts : ∀ {k k' : List Char}, Closes false k → Closes false k' →
          ((Ty.arrow a r).render name false).toList ++ k =
            ((Ty.arrow b q).render name false).toList ++ k' →
          Ty.arrow a r = .arrow b q ∧ k = k' := by
        intro k k' hk hk' h
        have space : ∀ k : List Char, Closes true (' ' :: k) :=
          fun k => ⟨endsWord_cons.2 (by decide), nofun⟩
        rw [toList_render_open, toList_render_open] at h
        obtain ⟨args, tail⟩ := iha hb (space _) (space _) h
        simp only [List.cons.injEq, true_and] at tail
        obtain ⟨returns, rest⟩ := ihr hq hk hk' tail
        exact ⟨by rw [args, returns], rest⟩
      cases nested with
      | false => exact parts hk hk' h
      | true =>
        have paren : ∀ k : List Char, Closes false (')' :: k) :=
          fun k => ⟨endsWord_cons.2 (by decide), by simp⟩
        rw [toList_render_nested, toList_render_nested, List.cons.injEq] at h
        obtain ⟨same, rest⟩ := parts (paren k) (paren k') h.2
        exact ⟨same, (List.cons.inj rest).2⟩

/-! ## Variables as words -/

/-- The type with every variable replaced by a constant with its name. -/
def spell (name : VarId → String) (t : Ty) : Ty := t.subst fun v => .const (name v)

theorem render_spell (name name' : VarId → String) (nested : Bool) (t : Ty) :
    (t.spell name).render name' nested = t.render name nested := by
  induction t generalizing nested with
  | arrow a r iha ihr =>
    show render name' nested (.arrow (a.spell name) (r.spell name)) = _
    rw [render, render, iha, ihr]
  | missing | const | var | foreign => rfl

/-- Built from missing types, variables, function types and constants whose names are identifiers.
-/
def IsNamed : Ty → Prop
  | .missing | .var _ => True
  | .const c => isIdentifier c = true
  | .arrow a r => a.IsNamed ∧ r.IsNamed
  | .foreign _ => False

/-- The names of variables are words that begin with a quotation mark. -/
structure IsNaming (name : VarId → String) : Prop where
  word : ∀ v, IsWord (name v)
  quoted : ∀ v, ∃ w, name v = "'" ++ w

theorem IsNaming.noMissing (hn : IsNaming name) (v : VarId) : name v ≠ "<nil>" := by
  obtain ⟨w, hw⟩ := hn.quoted v
  rw [hw]
  exact quoted_ne_nil w

/-- A variable and a constant are never printed alike. -/
theorem IsNaming.noConst (hn : IsNaming name) (v : VarId) {c : String}
    (hc : isIdentifier c = true) : name v ≠ c := by
  rintro rfl
  obtain ⟨w, hw⟩ := hn.quoted v
  rw [hw, isIdentifier_quoted] at hc
  cases hc

theorem IsNamed.isText_spell (ht : t.IsNamed) (hn : IsNaming name) : (t.spell name).IsText := by
  induction t with
  | missing => exact .leaf .missing
  | const c =>
    refine .leaf (.const (isWord_of_isIdentifier ht) ?_)
    rintro rfl
    exact absurd (show isIdentifier "<nil>" = true from ht) (by decide)
  | var v => exact .leaf (.const (hn.word v) (hn.noMissing v))
  | arrow a r iha ihr => exact .arrow (iha ht.1) (ihr ht.2)
  | foreign => exact ht.elim

/-- The types have the same form, with variables of the same name at the same places. -/
inductive Aligned (name name' : VarId → String) : Ty → Ty → Prop where
  | missing : Aligned name name' .missing .missing
  | const (c : String) : Aligned name name' (.const c) (.const c)
  | var {v w : VarId} : name v = name' w → Aligned name name' (.var v) (.var w)
  | arrow {a b r q : Ty} : Aligned name name' a b → Aligned name name' r q →
      Aligned name name' (.arrow a r) (.arrow b q)

theorem aligned_of_spell_eq (hn : IsNaming name) (hn' : IsNaming name') (ht : t.IsNamed)
    (hu : u.IsNamed) (h : t.spell name = u.spell name') : Aligned name name' t u := by
  induction t generalizing u with
  | missing =>
    cases u with
    | missing => exact .missing
    | const | var | arrow | foreign => cases h
  | const c =>
    cases u with
    | const d =>
      obtain rfl := const.inj h
      exact .const c
    | var w => exact absurd (const.inj h).symm (hn'.noConst w ht)
    | missing | arrow | foreign => cases h
  | var v =>
    cases u with
    | var w => exact .var (const.inj h)
    | const d => exact absurd (const.inj h) (hn.noConst v hu)
    | missing | arrow | foreign => cases h
  | arrow a r iha ihr =>
    cases u with
    | arrow b q =>
      obtain ⟨ha, hr⟩ := arrow.inj h
      exact .arrow (iha ht.1 hu.1 ha) (ihr ht.2 hu.2 hr)
    | missing | const | var | foreign => cases h
  | foreign => exact ht.elim

/-- Types with the same text are aligned, whatever follows the text. -/
theorem aligned_of_render_append_eq (hn : IsNaming name) (hn' : IsNaming name') (ht : t.IsNamed)
    (hu : u.IsNamed) (hk : Closes false k) (hk' : Closes false k')
    (h : (t.render name false).toList ++ k = (u.render name' false).toList ++ k') :
    Aligned name name' t u ∧ k = k' := by
  rw [← render_spell name name, ← render_spell name' name] at h
  obtain ⟨same, rest⟩ := render_append_inj (ht.isText_spell hn) (hu.isText_spell hn') hk hk' h
  exact ⟨aligned_of_spell_eq hn hn' ht hu same, rest⟩

theorem aligned_of_render_eq (hn : IsNaming name) (hn' : IsNaming name') (ht : t.IsNamed)
    (hu : u.IsNamed) (h : t.render name false = u.render name' false) : Aligned name name' t u := by
  have nothing : Closes false [] := ⟨endsWord_nil, nofun⟩
  have texts : (t.render name false).toList ++ [] = (u.render name' false).toList ++ [] := by rw [h]
  exact (aligned_of_render_append_eq hn hn' ht hu nothing nothing texts).1

/-! ## Corresponding variables -/

variable {ts us : List Ty} {ρ : VarId → VarId}

theorem Aligned.exists_partner (h : Aligned name name' t u) {v : VarId} (hv : v ∈ t.vars) :
    ∃ w ∈ u.vars, name v = name' w := by
  induction h with
  | missing | const => cases hv
  | var e =>
    obtain rfl := List.mem_singleton.1 hv
    exact ⟨_, List.mem_singleton.2 rfl, e⟩
  | arrow _ _ iha ihr =>
    rcases List.mem_append.1 hv with hv | hv
    · exact (iha hv).imp fun w hw => ⟨List.mem_append_left _ hw.1, hw.2⟩
    · exact (ihr hv).imp fun w hw => ⟨List.mem_append_right _ hw.1, hw.2⟩

/-- Aligned types are renamings of each other, if variables of the same name correspond. -/
theorem Aligned.eq_rename (h : Aligned name name' t u)
    (hρ : ∀ v ∈ t.vars, ∀ w ∈ u.vars, name v = name' w → ρ v = w) : u = t.rename ρ := by
  induction h with
  | missing | const => rfl
  | var e => rw [rename_var, hρ _ (List.mem_singleton.2 rfl) _ (List.mem_singleton.2 rfl) e]
  | arrow _ _ iha ihr =>
    rw [rename_arrow,
      ← iha fun v hv w hw => hρ v (List.mem_append_left _ hv) w (List.mem_append_left _ hw),
      ← ihr fun v hv w hw => hρ v (List.mem_append_right _ hv) w (List.mem_append_right _ hw)]

/-- Variables with the same name correspond under a renaming of all ids, if no name is used twice.
-/
theorem exists_renaming {vs ws : List VarId} (inj : Set.InjOn name {v | v ∈ vs})
    (inj' : Set.InjOn name' {w | w ∈ ws}) (partner : ∀ v ∈ vs, ∃ w ∈ ws, name v = name' w) :
    ∃ ρ : VarId → VarId, Injective ρ ∧ ∀ v ∈ vs, ∀ w ∈ ws, name v = name' w → ρ v = w := by
  choose! p hp hname using partner
  have injOn : Set.InjOn p (vs.toFinset : Set VarId) := by
    intro v hv v' hv' e
    have hv := List.mem_toFinset.1 hv
    have hv' := List.mem_toFinset.1 hv'
    exact inj hv hv' (by rw [hname v hv, hname v' hv', e])
  obtain ⟨g, hg⟩ := Finset.exists_equiv_extend_of_card_eq (t := (Finset.univ : Finset VarId)) rfl
    (Finset.subset_univ _) injOn
  refine ⟨fun v => (g v).val, Subtype.val_injective.comp g.injective, fun v hv w hw e => ?_⟩
  show (g v).val = w
  rw [hg v (List.mem_toFinset.2 hv)]
  exact inj' (hp v hv) hw (by rw [← hname v hv, e])

/-- The name that a variable gets where the types are printed together. -/
def letterIn (ts : List Ty) (v : VarId) : String := letterName ((varOrder ts).idxOf v)

theorem printAll_eq_map (ts : List Ty) : printAll ts = ts.map (render (letterIn ts) false) := rfl

theorem isNaming_letterIn (ts : List Ty) : IsNaming (letterIn ts) where
  word _ := isWord_letterName _
  quoted _ := letterName_quoted _

theorem injOn_letterIn (ts : List Ty) : Set.InjOn (letterIn ts) {v | v ∈ ts.flatMap vars} := by
  intro v hv w _ e
  exact (List.idxOf_inj (List.mem_eraseDups.2 hv)).1 (letterName_injective e)

/-! ## Lists of types -/

theorem aligned_of_map_render_eq (hn : IsNaming name) (hn' : IsNaming name')
    (hts : ∀ t ∈ ts, t.IsNamed) (hus : ∀ u ∈ us, u.IsNamed)
    (h : ts.map (render name false) = us.map (render name' false)) :
    List.Forall₂ (Aligned name name') ts us := by
  induction ts generalizing us with
  | nil =>
    cases us with
    | nil => exact .nil
    | cons => cases h
  | cons t ts ih =>
    cases us with
    | nil => cases h
    | cons u us =>
      obtain ⟨hts, hts'⟩ := List.forall_mem_cons.1 hts
      obtain ⟨hus, hus'⟩ := List.forall_mem_cons.1 hus
      obtain ⟨h, h'⟩ := List.cons.inj h
      exact .cons (aligned_of_render_eq hn hn' hts hus h) (ih hts' hus' h')

theorem exists_partner_of_forall₂ (h : List.Forall₂ (Aligned name name') ts us) {v : VarId}
    (hv : v ∈ ts.flatMap vars) : ∃ w ∈ us.flatMap vars, name v = name' w := by
  induction h with
  | nil => cases hv
  | cons h _ ih =>
    rw [List.flatMap_cons, List.mem_append] at hv
    simp only [List.flatMap_cons, List.mem_append]
    rcases hv with hv | hv
    · exact (h.exists_partner hv).imp fun w hw => ⟨.inl hw.1, hw.2⟩
    · exact (ih hv).imp fun w hw => ⟨.inr hw.1, hw.2⟩

theorem eq_map_rename_of_forall₂ (h : List.Forall₂ (Aligned name name') ts us)
    (hρ : ∀ v ∈ ts.flatMap vars, ∀ w ∈ us.flatMap vars, name v = name' w → ρ v = w) :
    us = ts.map (rename ρ) := by
  induction h with
  | nil => rfl
  | cons h _ ih =>
    simp only [List.flatMap_cons, List.mem_append] at hρ
    rw [List.map_cons, ← h.eq_rename fun v hv w hw => hρ v (.inl hv) w (.inl hw),
      ← ih fun v hv w hw => hρ v (.inr hv) w (.inr hw)]

/-- Types printed with the same texts are renamings of each other. -/
theorem exists_rename_of_printAll_eq (hts : ∀ t ∈ ts, t.IsNamed) (hus : ∀ u ∈ us, u.IsNamed)
    (h : printAll ts = printAll us) :
    ∃ ρ : VarId → VarId, Injective ρ ∧ us = ts.map (rename ρ) := by
  rw [printAll_eq_map, printAll_eq_map] at h
  have aligned := aligned_of_map_render_eq (isNaming_letterIn ts) (isNaming_letterIn us) hts hus h
  obtain ⟨ρ, inj, hρ⟩ := exists_renaming (injOn_letterIn ts) (injOn_letterIn us)
    fun v hv => exists_partner_of_forall₂ aligned hv
  exact ⟨ρ, inj, eq_map_rename_of_forall₂ aligned hρ⟩

/-- **Printing identifies types exactly up to renaming.** Two lists of types are printed with the
same texts if and only if one injective renaming of the variables takes each type of the first list
to that of the second, and the lists are equally long. The same holds of any two of the types that
are printed alone. -/
theorem printAll_eq_iff (ts us : List Ty) (hts : ∀ t ∈ ts, t.IsNamed) (hus : ∀ u ∈ us, u.IsNamed) :
    (printAll ts = printAll us ↔ ∃ ρ : VarId → VarId, Injective ρ ∧ us = ts.map (rename ρ)) ∧
    ∀ t ∈ ts, ∀ u ∈ us,
      (t.print = u.print ↔ ∃ ρ : VarId → VarId, Injective ρ ∧ u = t.rename ρ) := by
  refine ⟨⟨exists_rename_of_printAll_eq hts hus, ?_⟩, fun t ht u hu => ⟨fun h => ?_, ?_⟩⟩
  · rintro ⟨ρ, inj, rfl⟩
    exact (printAll_rename inj ts).symm
  · have alone : printAll [t] = printAll [u] := by rw [printAll_singleton, printAll_singleton, h]
    obtain ⟨ρ, inj, hu⟩ := exists_rename_of_printAll_eq (List.forall_mem_singleton.2 (hts t ht))
      (List.forall_mem_singleton.2 (hus u hu)) alone
    exact ⟨ρ, inj, (List.cons.inj hu).1⟩
  · rintro ⟨ρ, inj, rfl⟩
    exact (print_rename inj t).symm

/-- Letters are shared by the types of a list, and tell apart what ids do. -/
theorem printAll_eq_iff_shared :
    (printAll [.arrow (.var 5) (.var 7), .arrow (.arrow (.var 7) .missing) .int] =
        ["'a -> 'b", "('b -> <nil>) -> int"] ∧
      printAll [.arrow (.var 1) (.var 0), .arrow (.arrow (.var 0) .missing) .int] =
        ["'a -> 'b", "('b -> <nil>) -> int"] ∧
      ∃ ρ : VarId → VarId, Injective ρ ∧
        [.arrow (.var 1) (.var 0), .arrow (.arrow (.var 0) .missing) .int] =
          [.arrow (.var 5) (.var 7), .arrow (.arrow (.var 7) .missing) .int].map (rename ρ)) ∧
    (Ty.arrow (.var 5) (.var 5)).print = "'a -> 'a" ∧
      (Ty.arrow (.var 5) (.var 7)).print = "'a -> 'b" ∧
      ¬ ∃ ρ : VarId → VarId, Injective ρ ∧
        Ty.arrow (.var 5) (.var 7) = (Ty.arrow (.var 5) (.var 5)).rename ρ := by
  have named : ∀ v w : VarId, (Ty.arrow (.var v) (.var w)).IsNamed := fun _ _ => ⟨trivial, trivial⟩
  have int : Ty.int.IsNamed := show isIdentifier "int" = true by decide
  have listed : ∀ v w : VarId,
      ∀ t ∈ [Ty.arrow (.var v) (.var w), .arrow (.arrow (.var w) .missing) .int],
      t.IsNamed := fun v w =>
    List.forall_mem_cons.2 ⟨named v w, List.forall_mem_singleton.2 ⟨⟨trivial, trivial⟩, int⟩⟩
  have first : printAll [.arrow (.var 5) (.var 7), .arrow (.arrow (.var 7) .missing) .int] =
      ["'a -> 'b", "('b -> <nil>) -> int"] := by cbv
  have second : printAll [.arrow (.var 1) (.var 0), .arrow (.arrow (.var 0) .missing) .int] =
      ["'a -> 'b", "('b -> <nil>) -> int"] := by cbv
  have same : (Ty.arrow (.var 5) (.var 5)).print = "'a -> 'a" := by cbv
  have other : (Ty.arrow (.var 5) (.var 7)).print = "'a -> 'b" := by cbv
  refine ⟨⟨first, second, ?_⟩, same, other, fun h => ?_⟩
  · exact (printAll_eq_iff _ _ (listed 5 7) (listed 1 0)).1.1 (first.trans second.symm)
  · have texts := ((printAll_eq_iff [.arrow (.var 5) (.var 5)] [.arrow (.var 5) (.var 7)]
      (List.forall_mem_singleton.2 (named 5 5)) (List.forall_mem_singleton.2 (named 5 7))).2 _
      List.mem_cons_self _ List.mem_cons_self).2 h
    rw [same, other] at texts
    exact absurd texts (by decide)

end Ty

end Monotype
