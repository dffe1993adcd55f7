import Monotype.Infer

/-!
# Recorded inference

Inference can record the type of every node when it leaves it, in a table by label. The table
outlives the inference: what was recorded stays when a later part fails or faults. `inferRecording`
is inference with a recorder at hand.
-/

namespace Monotype

/-- The types of nodes by label. -/
abbrev Annotations := Std.ExtTreeMap Label Ty

/-- Where the types of nodes are recorded. -/
structure Recorder where
  /-- Whether types are recorded. -/
  active : Bool := false
  /-- The types recorded. The table is made when it is first needed. -/
  table : Option Annotations := none
deriving DecidableEq

namespace Recorder

/-- Makes the table, if types are recorded and there is none. -/
def prepare (s : Recorder) : Recorder :=
  { s with table := if s.active then some (s.table.getD ∅) else s.table }

/-- Removes all entries. The table stays, and so does the choice to record. -/
def clear (s : Recorder) : Recorder := { s with table := s.table.map fun _ => ∅ }

/-- Records the type of a node, if types are recorded. Without a table this is a fault. -/
def record (s : Recorder) (l : Label) (t : Ty) : Except Fault Recorder :=
  if s.active then
    match s.table with
    | none => .error .noTable
    | some m => .ok { s with table := some (m.insert l t) }
  else .ok s

end Recorder

/-- A computation of inference with a recorder, which is left behind however the computation ends.
-/
abbrev Recording := ExceptT Stop (StateM Recorder)

/-- How a computation ends, and the recorder it leaves. -/
def Recording.exec {β : Type} (x : Recording β) (s : Recorder) : Except Stop β × Recorder :=
  x.run.run s

/-- Records the type of the node that a result is about. -/
def leave (l : Label) (r : Typed Label) : Recording (Typed Label) := do
  match (← get).record l r.type with
  | .ok s =>
    set s
    return r
  | .error f => throw (.faulted f none r.supply)

/-- Inference that records the type of each node when it leaves it. -/
def Mode.recording : Mode Label Recording where
  stop := throw
  lookup n env x := guarded n (env.lookup x)
  apply n s t := guarded n (s.apply t)
  rewrite n env s := guarded n (env.apply s)
  compose n older newer := guarded n (older.compose newer)
  unify a b describe := (Monotype.unify a b).mapError describe
  first step x := x.adapt (.inside step)
  later older step x := x.adapt fun e => (e.inside step).after older
  leave := Monotype.leave

/-- The type of an expression in an environment, with fresh variables from a supply. The type of
each node is recorded when inference leaves it. -/
def inferRecording (env : Env) (n : Supply) (e : Expr Label) : Recording (Typed Label) :=
  Mode.recording.infer env n e

end Monotype
