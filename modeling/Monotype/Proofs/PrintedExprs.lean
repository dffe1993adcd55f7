import Monotype.Expr.Print
import Monotype.Proofs.Words

/-!
# Printed expressions

The text of an expression determines the expression up to the identity of its nodes.

1. Literals, names and missing parts are printed as words, and a word tells which of them it stands
for (`read_spell`). It is therefore enough to look at expressions in which all of them are written
as names.
2. A function or a conditional begins with a keyword and ends where the text around it does: at a
closing parenthesis, at the next keyword, or at the end. So its text can be cut from the left, part
by part (`Readable`).
3. A call has no mark at its beginning, and the text of what is called is also the beginning of the
text of the whole call. So nothing tells where it ends, and a called expression is compared together
with all the arguments that follow (`CalledReadable`).
-/

namespace Monotype

namespace Expr

variable {α β : Type}

/-! ## Leaves as words -/

/-- The expression with its leaves written as names, and without the identity of its nodes. -/
def spell : Expr α → Expr Unit
  | .missing => .var () "<nil>"
  | .int _ n => .var () (Int.repr n.toInt)
  | .bool _ b => .var () (if b then "true" else "false")
  | .var _ x => .var () x
  | .fn _ x e => .fn () x e.spell
  | .call _ f a => .call () f.spell a.spell
  | .cond _ c t e => .cond () c.spell t.spell e.spell
  | .foreign _ k => .foreign () k

theorem render_spell (called : Bool) (e : Expr α) : e.spell.render called = e.render called := by
  induction e generalizing called with
  | missing | int | bool | var | foreign => rfl
  | fn _ x e ih => rw [spell, render, render, ih]
  | call _ f a ihf iha => rw [spell, render, render, ihf, iha]
  | cond _ c t e ihc iht ihe => rw [spell, render, render, ihc, iht, ihe]

/-- The words that begin a function or a conditional. -/
def keywords : List String := ["fun", "if"]

/-- The words that are no names of variables and parameters. -/
def reserved : List String := keywords ++ ["then", "else", "true", "false"]

/-- An identifier that is not reserved. -/
def IsName (x : String) : Prop := isIdentifier x = true ∧ x ∉ reserved

/-- No part is of a foreign kind, and all variables and parameters have names. -/
def IsNamed : Expr α → Prop
  | .missing | .int _ _ | .bool _ _ => True
  | .var _ x => IsName x
  | .fn _ x e => IsName x ∧ e.IsNamed
  | .call _ f a => f.IsNamed ∧ a.IsNamed
  | .cond _ c t e => c.IsNamed ∧ t.IsNamed ∧ e.IsNamed
  | .foreign _ _ => False

/-- The leaf that a word stands for. -/
def ofWord (w : String) : Expr Unit :=
  if isIdentifier w then
    if w = "true" then .bool () true else if w = "false" then .bool () false else .var () w
  else
    match w.toInt? with
    | some n => .int () (Int64.ofInt n)
    | none => .missing

/-- The expression whose leaves are written as names. -/
def read : Expr Unit → Expr Unit
  | .var _ w => ofWord w
  | .fn _ x e => .fn () x e.read
  | .call _ f a => .call () f.read a.read
  | .cond _ c t e => .cond () c.read t.read e.read
  | e => e

/-- **Words tell which leaves they stand for.** -/
theorem read_spell {e : Expr α} (h : e.IsNamed) : e.spell.read = e.map fun _ => () := by
  induction e with
  | missing =>
    have noInt : "<nil>".toInt? = none := by cbv
    show ofWord "<nil>" = .missing
    rw [ofWord, if_neg (by decide), noInt]
  | int _ n =>
    show ofWord (Int.repr n.toInt) = .int () n
    rw [ofWord, isIdentifier_intRepr, if_neg (by decide), Int.toInt?_repr]
    show Expr.int () (Int64.ofInt n.toInt) = _
    rw [Int64.ofInt_toInt]
  | bool _ b => cases b <;> rfl
  | var _ x =>
    obtain ⟨identifier, free⟩ := h
    have noTrue : x ≠ "true" := by
      rintro rfl
      exact free (by decide)
    have noFalse : x ≠ "false" := by
      rintro rfl
      exact free (by decide)
    show ofWord x = .var () x
    rw [ofWord, if_pos identifier, if_neg noTrue, if_neg noFalse]
  | fn _ x e ih => rw [spell, read, map, ih h.2]
  | call _ f a ihf iha => rw [spell, read, map, ihf h.1, iha h.2]
  | cond _ c t e ihc iht ihe => rw [spell, read, map, ihc h.1, iht h.2.1, ihe h.2.2]
  | foreign => exact h.elim

/-! ## What follows an expression -/

variable {e f a x y : Expr Unit} {w : String} {k k' : List Char}

/-- An expression whose leaves are words, and none of them a keyword. -/
inductive IsText : Expr Unit → Prop where
  | var {w : String} : IsWord w → w ∉ keywords → IsText (.var () w)
  | fn {x : String} {e : Expr Unit} : IsWord x → IsText e → IsText (.fn () x e)
  | call {f a : Expr Unit} : IsText f → IsText a → IsText (.call () f a)
  | cond {c t e : Expr Unit} : IsText c → IsText t → IsText e → IsText (.cond () c t e)

theorem isWord_of_mem_keywords (h : w ∈ keywords) : IsWord w ∧ isIdentifier w = true := by
  rcases List.mem_cons.1 h with rfl | h
  · decide
  · obtain rfl := List.mem_singleton.1 h
    decide

theorem IsNamed.isText_spell {e : Expr α} (h : e.IsNamed) : e.spell.IsText := by
  induction e with
  | missing => exact .var (by decide) (by decide)
  | int _ n =>
    refine .var (isWord_intRepr _) fun hmem => ?_
    have identifier := (isWord_of_mem_keywords hmem).2
    rw [isIdentifier_intRepr] at identifier
    cases identifier
  | bool _ b =>
    cases b with
    | false => exact .var (by decide) (by decide)
    | true => exact .var (by decide) (by decide)
  | var _ x => exact .var (isWord_of_isIdentifier h.1) fun hmem => h.2 (List.mem_append_left _ hmem)
  | fn _ x e ih => exact .fn (isWord_of_isIdentifier h.1.1) (ih h.2)
  | call _ f a ihf iha => exact .call (ihf h.1) (iha h.2)
  | cond _ c t e ihc iht ihe => exact .cond (ihc h.1) (iht h.2.1) (ihe h.2.2)
  | foreign => exact h.elim

/-- What may follow an expression that is not called: no word and no argument. -/
structure Closes (k : List Char) : Prop where
  endsWord : EndsWord k
  noCall : k.head? ≠ some '('

theorem closes_nil : Closes [] := ⟨endsWord_nil, by simp⟩

theorem closes_space (k : List Char) : Closes (' ' :: k) := ⟨endsWord_cons.2 (by decide), by simp⟩

theorem closes_paren (k : List Char) : Closes (')' :: k) := ⟨endsWord_cons.2 (by decide), by simp⟩

/-- A function or a conditional. -/
def isCompound : Expr Unit → Bool
  | .fn _ _ _ | .cond _ _ _ _ => true
  | _ => false

theorem render_called_eq (h : e.isCompound = false) : e.render true = e.render false := by
  cases e with
  | fn | cond => cases h
  | missing | int | bool | var | call | foreign => rfl

theorem toList_render_called (h : e.isCompound = true) (k : List Char) :
    (e.render true).toList ++ k = '(' :: ((e.render false).toList ++ (')' :: k)) := by
  cases e with
  | fn | cond => simp [render, render.enclose]
  | missing | int | bool | var | call | foreign => cases h

theorem toList_render_call (called : Bool) (f a : Expr Unit) (k : List Char) :
    ((Expr.call () f a).render called).toList ++ k =
      (f.render true).toList ++ ('(' :: ((a.render false).toList ++ (')' :: k))) := by
  simp [render]

theorem toList_render_fn (x : String) (e : Expr Unit) (k : List Char) :
    ((Expr.fn () x e).render false).toList ++ k =
      "fun".toList ++
        (' ' :: (x.toList ++ (' ' :: '-' :: '>' :: ' ' :: ((e.render false).toList ++ k)))) := by
  simp [render, render.enclose]

theorem toList_render_cond (c t e : Expr Unit) (k : List Char) :
    ((Expr.cond () c t e).render false).toList ++ k =
      "if".toList ++ (' ' :: ((c.render false).toList ++ (' ' :: ("then ".toList ++
        ((t.render false).toList ++ (' ' :: ("else ".toList ++
          ((e.render false).toList ++ k)))))))) := by
  simp [render, render.enclose]

theorem exists_keyword (h : e.isCompound = true) (k : List Char) :
    ∃ w ∈ keywords, ∃ k', (e.render false).toList ++ k = w.toList ++ (' ' :: k') := by
  cases e with
  | fn _ x e => exact ⟨"fun", by decide, _, toList_render_fn x e k⟩
  | cond _ c t e => exact ⟨"if", by decide, _, toList_render_cond c t e k⟩
  | missing | int | bool | var | call | foreign => cases h

/-- What is called does not begin with a keyword. -/
theorem IsText.called_ne_keyword (he : e.IsText) (hw : w ∈ keywords) (hk : EndsWord k) :
    (e.render true).toList ++ k ≠ w.toList ++ (' ' :: k') := by
  have word := (isWord_of_mem_keywords hw).1
  have paren : ∀ {k₁ k₂ : List Char}, '(' :: k₁ ≠ w.toList ++ k₂ :=
    fun h => word.append_ne_cons (by decide) h.symm
  induction he generalizing k with
  | var hw' ne =>
    intro h
    obtain ⟨rfl, -⟩ := hw'.append_inj word hk (endsWord_cons.2 (by decide)) h
    exact ne hw
  | fn =>
    rw [toList_render_called rfl]
    exact paren
  | call _ _ ihf _ =>
    rw [toList_render_call]
    exact ihf (endsWord_cons.2 (by decide))
  | cond =>
    rw [toList_render_called rfl]
    exact paren

/-- The text tells whether an expression is compound. -/
theorem IsText.isCompound_of_eq (hy : y.IsText) (hk' : Closes k') (hx : x.isCompound = true)
    (h : (x.render false).toList ++ k = (y.render false).toList ++ k') : y.isCompound = true := by
  by_contra simple
  obtain ⟨w, hw, k₁, hk₁⟩ := exists_keyword hx k
  rw [hk₁, ← render_called_eq (Bool.eq_false_iff.2 simple)] at h
  exact hy.called_ne_keyword hw hk'.endsWord h.symm

/-! ## Reading from the left -/

/-- The text of the expression, with what follows it, determines the expression. -/
def Readable (x : Expr Unit) : Prop :=
  ∀ y k k', y.IsText → Closes k → Closes k' →
    (x.render false).toList ++ k = (y.render false).toList ++ k' → x = y ∧ k = k'

theorem readable_fn {p : String} (hp : IsWord p) (he : Readable e) : Readable (.fn () p e) := by
  intro y k k' hy hk hk' h
  have compound := hy.isCompound_of_eq hk' rfl h
  rw [toList_render_fn] at h
  cases hy with
  | @fn q e' hq he' =>
    rw [toList_render_fn, List.append_cancel_left_eq, List.cons.injEq] at h
    obtain ⟨rfl, tail⟩ :=
      hp.append_inj hq (endsWord_cons.2 (by decide)) (endsWord_cons.2 (by decide)) h.2
    simp only [List.cons.injEq, true_and] at tail
    obtain ⟨rfl, rest⟩ := he _ _ _ he' hk hk' tail
    exact ⟨rfl, rest⟩
  | cond =>
    rw [toList_render_cond] at h
    exact absurd (List.cons.inj h).1 (by decide)
  | var | call => cases compound

theorem readable_cond {c t : Expr Unit} (hc : Readable c) (ht : Readable t) (he : Readable e) :
    Readable (.cond () c t e) := by
  intro y k k' hy hk hk' h
  have compound := hy.isCompound_of_eq hk' rfl h
  rw [toList_render_cond] at h
  cases hy with
  | @cond c' t' e' hc' ht' he' =>
    rw [toList_render_cond, List.append_cancel_left_eq, List.cons.injEq] at h
    obtain ⟨rfl, afterTest⟩ := hc _ _ _ hc' (closes_space _) (closes_space _) h.2
    rw [List.cons.injEq, List.append_cancel_left_eq] at afterTest
    obtain ⟨rfl, afterYes⟩ := ht _ _ _ ht' (closes_space _) (closes_space _) afterTest.2
    rw [List.cons.injEq, List.append_cancel_left_eq] at afterYes
    obtain ⟨rfl, rest⟩ := he _ _ _ he' hk hk' afterYes.2
    exact ⟨rfl, rest⟩
  | fn =>
    rw [toList_render_fn] at h
    exact absurd (List.cons.inj h).1 (by decide)
  | var | call => cases compound

/-! ## Calls -/

/-- The text of the arguments of nested calls, followed by more text. -/
def renderArgs (args : List (Expr Unit)) (k : List Char) : List Char :=
  args.foldr (fun a k => '(' :: ((a.render false).toList ++ (')' :: k))) k

theorem endsWord_renderArgs (args : List (Expr Unit)) (hk : EndsWord k) :
    EndsWord (renderArgs args k) := by
  cases args with
  | nil => exact hk
  | cons => exact endsWord_cons.2 (by decide)

theorem renderArgs_inj {args args' : List (Expr Unit)} (hargs : ∀ a ∈ args, Readable a)
    (hargs' : ∀ a ∈ args', a.IsText) (hk : Closes k) (hk' : Closes k')
    (h : renderArgs args k = renderArgs args' k') : args = args' ∧ k = k' := by
  induction args generalizing args' with
  | nil =>
    cases args' with
    | nil => exact ⟨rfl, h⟩
    | cons => exact absurd (congrArg List.head? h) hk.noCall
  | cons a args ih =>
    cases args' with
    | nil => exact absurd (congrArg List.head? h.symm) hk'.noCall
    | cons a' args' =>
      obtain ⟨ha, others⟩ := List.forall_mem_cons.1 hargs
      obtain ⟨ha', others'⟩ := List.forall_mem_cons.1 hargs'
      obtain ⟨rfl, tail⟩ := ha _ _ _ ha' (closes_paren _) (closes_paren _) (List.cons.inj h).2
      obtain ⟨rfl, rest⟩ := ih others others' (List.cons.inj tail).2
      exact ⟨rfl, rest⟩

/-- The text of the expression, called with some arguments, determines the whole call. -/
def CalledReadable (f : Expr Unit) : Prop :=
  ∀ args g args' k k', (∀ a ∈ args, Readable a) → g.IsText → (∀ a ∈ args', a.IsText) →
    Closes k → Closes k' →
    (f.render true).toList ++ renderArgs args k = (g.render true).toList ++ renderArgs args' k' →
    args.foldl (.call ()) f = args'.foldl (.call ()) g ∧ k = k'

/-- A call passes its argument on to the arguments that follow. -/
theorem calledReadable_call (hf : CalledReadable f) (ha : Readable a) :
    CalledReadable (.call () f a) := by
  intro args g args' k k' hargs hg hargs' hk hk' h
  rw [toList_render_call] at h
  exact hf (a :: args) g args' k k' (List.forall_mem_cons.2 ⟨ha, hargs⟩) hg hargs' hk hk' h

/-- An expression that is no call is found where the arguments begin. -/
theorem calledReadable_of_head
    (hf : ∀ g k k', g.IsText → (∀ h a, g ≠ .call () h a) → EndsWord k → EndsWord k' →
      (f.render true).toList ++ k = (g.render true).toList ++ k' → f = g ∧ k = k') :
    CalledReadable f := by
  intro args g args' k k' hargs hg hargs' hk hk' h
  have head : ∀ {g : Expr Unit} {args' : List (Expr Unit)}, g.IsText → (∀ h a, g ≠ .call () h a) →
      (∀ a ∈ args', a.IsText) →
      (f.render true).toList ++ renderArgs args k = (g.render true).toList ++ renderArgs args' k' →
      args.foldl (.call ()) f = args'.foldl (.call ()) g ∧ k = k' := by
    intro g args' hg noCall hargs' h
    obtain ⟨rfl, tail⟩ := hf g _ _ hg noCall (endsWord_renderArgs args hk.endsWord)
      (endsWord_renderArgs args' hk'.endsWord) h
    obtain ⟨rfl, rest⟩ := renderArgs_inj hargs hargs' hk hk' tail
    exact ⟨rfl, rest⟩
  induction hg generalizing args' with
  | var hw ne => exact head (.var hw ne) (by simp) hargs' h
  | fn hp he _ => exact head (.fn hp he) (by simp) hargs' h
  | cond hc ht he _ _ _ => exact head (.cond hc ht he) (by simp) hargs' h
  | @call g a _ ha ihg _ =>
    rw [toList_render_call] at h
    exact ihg (a :: args') (List.forall_mem_cons.2 ⟨ha, hargs'⟩) h

theorem calledReadable_var (hw : IsWord w) : CalledReadable (.var () w) := by
  refine calledReadable_of_head fun g k k' hg noCall hk hk' h => ?_
  have word : ∀ c : Bool, ((Expr.var () w).render c).toList = w.toList := fun _ => rfl
  rw [word] at h
  cases hg with
  | var hw' _ =>
    obtain ⟨rfl, rest⟩ := hw.append_inj hw' hk hk' h
    exact ⟨rfl, rest⟩
  | fn | cond =>
    rw [toList_render_called rfl] at h
    exact absurd h (hw.append_ne_cons (by decide))
  | call => exact absurd rfl (noCall _ _)

/-- A compound expression that is called stands in parentheses. -/
theorem calledReadable_of_compound (compound : f.isCompound = true) (hf : Readable f) :
    CalledReadable f := by
  refine calledReadable_of_head fun g k k' hg noCall hk hk' h => ?_
  have parens : g.isCompound = true → f = g ∧ k = k' := by
    intro compound'
    rw [toList_render_called compound, toList_render_called compound', List.cons.injEq] at h
    obtain ⟨same, rest⟩ := hf g _ _ hg (closes_paren k) (closes_paren k') h.2
    exact ⟨same, (List.cons.inj rest).2⟩
  cases hg with
  | fn | cond => exact parens rfl
  | var hw _ =>
    rw [toList_render_called compound] at h
    exact absurd h.symm (hw.append_ne_cons (by decide))
  | call => exact absurd rfl (noCall _ _)

/-- An expression that is not compound is printed alike where it is called and where it is not. -/
theorem CalledReadable.readable (hx : x.IsText) (simple : x.isCompound = false)
    (h : CalledReadable x) : Readable x := by
  intro y k k' hy hk hk' e
  have simple' : y.isCompound = false :=
    Bool.eq_false_iff.2 fun compound => by
      rw [hx.isCompound_of_eq hk compound e.symm] at simple
      cases simple
  rw [← render_called_eq simple, ← render_called_eq simple'] at e
  exact h [] y [] k k' (List.forall_mem_nil _) hy (List.forall_mem_nil _) hk hk' e

/-- **Printed expressions can be read back.** -/
theorem IsText.readable (hx : x.IsText) : Readable x ∧ CalledReadable x := by
  induction hx with
  | var hw ne =>
    have called := calledReadable_var hw
    exact ⟨called.readable (.var hw ne) rfl, called⟩
  | fn hp _ ih =>
    have reads := readable_fn hp ih.1
    exact ⟨reads, calledReadable_of_compound rfl reads⟩
  | call hf ha ihf iha =>
    have called := calledReadable_call ihf.2 iha.1
    exact ⟨called.readable (.call hf ha) rfl, called⟩
  | cond _ _ _ ihc iht ihe =>
    have reads := readable_cond ihc.1 iht.1 ihe.1
    exact ⟨reads, calledReadable_of_compound rfl reads⟩

/-! ## Unambiguous expressions -/

theorem render_map (g : α → β) (called : Bool) (e : Expr α) :
    (e.map g).render called = e.render called := by
  induction e generalizing called with
  | missing | int | bool | var | foreign => rfl
  | fn _ x e ih => rw [map, render, render, ih]
  | call _ f a ihf iha => rw [map, render, render, ihf, iha]
  | cond _ c t e ihc iht ihe => rw [map, render, render, ihc, iht, ihe]

/-- **Printing is unambiguous.** Two expressions without foreign parts, in which variables and
parameters have names, are printed alike if and only if they are the same up to the identity of
their nodes. -/
theorem print_eq_iff (e₁ : Expr α) (e₂ : Expr β) (h₁ : e₁.IsNamed) (h₂ : e₂.IsNamed) :
    e₁.print = e₂.print ↔ (e₁.map fun _ => ()) = e₂.map fun _ => () := by
  constructor
  · intro h
    have texts : (e₁.spell.render false).toList ++ [] = (e₂.spell.render false).toList ++ [] := by
      rw [render_spell, render_spell]
      exact congrArg (·.toList ++ []) h
    obtain ⟨same, -⟩ := h₁.isText_spell.readable.1 _ _ _ h₂.isText_spell closes_nil closes_nil texts
    rw [← read_spell h₁, ← read_spell h₂, same]
  · intro h
    have texts := congrArg (render false) h
    rwa [render_map, render_map] at texts

/-- The call of a function is printed with parentheses, whatever the identity of its nodes, and a
function whose body is a call without. -/
theorem print_eq_iff_call :
    ((Expr.call 0 (.fn 1 "x" (.var 2 "x")) (.int 3 (-5))).print = "(fun x -> x)(-5)" ∧
      (Expr.call () (.fn () "x" (.var () "x")) (.int () (-5))).print = "(fun x -> x)(-5)" ∧
      ((Expr.call 0 (.fn 1 "x" (.var 2 "x")) (.int 3 (-5))).map fun _ => ()) =
        (Expr.call () (.fn () "x" (.var () "x")) (.int () (-5))).map fun _ => ()) ∧
    (Expr.fn 0 "x" (.call 1 (.var 2 "x") (.int 3 (-5)))).print = "fun x -> x(-5)" ∧
      ((Expr.fn 0 "x" (.call 1 (.var 2 "x") (.int 3 (-5)))).map fun _ => ()) ≠
        (Expr.call () (.fn () "x" (.var () "x")) (.int () (-5))).map fun _ => () := by
  have name : IsName "x" := ⟨by decide, by decide⟩
  have called : (Expr.call 0 (.fn 1 "x" (.var 2 "x")) (.int 3 (-5))).print =
      "(fun x -> x)(-5)" := by cbv
  have unlabelled : (Expr.call () (.fn () "x" (.var () "x")) (.int () (-5))).print =
      "(fun x -> x)(-5)" := by cbv
  have body : (Expr.fn 0 "x" (.call 1 (.var 2 "x") (.int 3 (-5)))).print =
      "fun x -> x(-5)" := by cbv
  refine ⟨⟨called, unlabelled, ?_⟩, body, fun same => ?_⟩
  · exact (print_eq_iff (.call 0 (.fn 1 "x" (.var 2 "x")) (.int 3 (-5)))
      (.call () (.fn () "x" (.var () "x")) (.int () (-5)))
      ⟨⟨name, name⟩, trivial⟩ ⟨⟨name, name⟩, trivial⟩).1
      (called.trans unlabelled.symm)
  · have texts := (print_eq_iff (.fn 0 "x" (.call 1 (.var 2 "x") (.int 3 (-5))))
      (.call () (.fn () "x" (.var () "x")) (.int () (-5)))
      ⟨name, name, trivial⟩ ⟨⟨name, name⟩, trivial⟩).2 same
    rw [body, unlabelled] at texts
    exact absurd texts (by decide)

end Expr

end Monotype
