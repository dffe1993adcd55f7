import Monotype.Fault

/-!
# Expressions

Integer and Boolean literals, names, functions of one parameter, calls and conditionals. As for
types, an expression may be missing or of a foreign kind. Every other node carries a label: two
positions with one label hold the same node.

`Expr.nodes` lists the nodes in pre-order, and `Expr.at?` finds the expression at a position.
-/

namespace Monotype

/-- An expression whose nodes are labelled by `α`. -/
inductive Expr (α : Type) where
  /-- No expression at all. -/
  | missing
  /-- An integer literal. -/
  | int (label : α) (value : Int64)
  /-- A Boolean literal. -/
  | bool (label : α) (value : Bool)
  /-- The use of a name. -/
  | var (label : α) (name : String)
  /-- A function of one parameter. -/
  | fn (label : α) (param : String) (body : Expr α)
  /-- The call of a function with one argument. -/
  | call (label : α) (callee arg : Expr α)
  /-- A choice between two branches. -/
  | cond (label : α) (test yes no : Expr α)
  /-- An expression of a foreign kind. -/
  | foreign (label : α) (kind : String)
deriving DecidableEq, Repr, Inhabited

/-- The identity of a node. -/
abbrev Label := Nat

/-- A way down from an expression to one of its immediate parts. -/
inductive Step where
  /-- To the body of a function. -/
  | body
  /-- To the function that is called. -/
  | callee
  /-- To the argument of a call. -/
  | arg
  /-- To the condition. -/
  | test
  /-- To the branch taken when the condition holds. -/
  | yes
  /-- To the branch taken when it does not. -/
  | no
deriving DecidableEq, Repr

/-- A position within an expression, from the root down. -/
abbrev Path := List Step

namespace Expr

variable {α β : Type}

/-- The curried function of the given parameters, each with the label of its node. -/
def fns (params : List (α × String)) (body : Expr α) : Expr α :=
  params.foldr (fun p e => .fn p.1 p.2 e) body

/-- The curried call with the given arguments, each with the label of its node. -/
def calls (callee : Expr α) (args : List (α × Expr α)) : Expr α :=
  args.foldl (fun f a => .call a.1 f a.2) callee

/-- The name of the outermost form, if the expression is not missing. -/
def kind? : Expr α → Option String
  | .missing => none
  | .int _ _ => some "Int"
  | .bool _ _ => some "Bool"
  | .var _ _ => some "Var"
  | .fn _ _ _ => some "Func"
  | .call _ _ _ => some "Call"
  | .cond _ _ _ _ => some "Cond"
  | .foreign _ kind => some kind

/-- The label of the outermost node, if the expression is not missing. -/
def label? : Expr α → Option α
  | .missing => none
  | .int l _ | .bool l _ | .var l _ | .fn l _ _ | .call l _ _ | .cond l _ _ _ | .foreign l _ =>
    some l

/-- The kind of an expression of a foreign kind. -/
def foreignKind? : Expr α → Option String
  | .foreign _ kind => some kind
  | _ => none

/-- Relabels every node. -/
def map (f : α → β) : Expr α → Expr β
  | .missing => .missing
  | .int l n => .int (f l) n
  | .bool l b => .bool (f l) b
  | .var l x => .var (f l) x
  | .fn l x e => .fn (f l) x (e.map f)
  | .call l e a => .call (f l) (e.map f) (a.map f)
  | .cond l c t e => .cond (f l) (c.map f) (t.map f) (e.map f)
  | .foreign l k => .foreign (f l) k

/-! ## Positions -/

/-- The part of an expression one step down. -/
def child? : Step → Expr α → Option (Expr α)
  | .body, .fn _ _ e => some e
  | .callee, .call _ f _ => some f
  | .arg, .call _ _ a => some a
  | .test, .cond _ c _ _ => some c
  | .yes, .cond _ _ t _ => some t
  | .no, .cond _ _ _ e => some e
  | _, _ => none

/-- The expression at a position. -/
def at? : Path → Expr α → Option (Expr α)
  | [], e => some e
  | s :: p, e => (e.child? s).bind (at? p)

/-! ## Traversal -/

/-- The nodes of an expression in pre-order. Missing parts are skipped. -/
def nodes : Expr α → List (Expr α)
  | .missing => []
  | .fn l x e => .fn l x e :: e.nodes
  | .call l f a => .call l f a :: (f.nodes ++ a.nodes)
  | .cond l c t e => .cond l c t e :: (c.nodes ++ t.nodes ++ e.nodes)
  | e => [e]

/-- The nodes that a traversal visits before it reaches one of a foreign kind. -/
def visited (e : Expr α) : List (Expr α) := e.nodes.takeWhile (·.foreignKind?.isNone)

/-- The nodes in pre-order. The traversal faults at the first node of a foreign kind. -/
def walk (e : Expr α) : Except Fault (List (Expr α)) :=
  match e.nodes.findSome? foreignKind? with
  | some kind => .error (.unknownExpr kind)
  | none => .ok e.nodes

end Expr

end Monotype
