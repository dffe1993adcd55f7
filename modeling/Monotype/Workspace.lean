import Monotype.Report

/-!
# Workspaces

A workspace holds named environments, contexts and substitutions, and commands work on them. A name
of an environment refers to a cell, and two names may refer to one: a change through either is seen
through both. A name is assigned before the answer is made, so a command whose answer faults may
have had its effect.
-/

namespace Monotype

/-- The cell of an environment. -/
abbrev EnvRef := Nat

/-- Named environments, contexts and substitutions. -/
structure Workspace where
  /-- The cells of environments. -/
  cells : Array Env := #[]
  /-- The cell that each environment name refers to. -/
  envs : Std.ExtTreeMap String EnvRef := ∅
  /-- The contexts by name. -/
  contexts : Std.ExtTreeMap String Context := ∅
  /-- The substitutions by name. -/
  substs : Std.ExtTreeMap String Subst := ∅

/-- A command. Names of environments, contexts and substitutions are told apart by their place. -/
inductive Command where
  /-- Makes an environment, with the declarations of a parent. -/
  | newEnv (env : String) (parent : Option String) (quiet : Bool)
  /-- Sets the next id of an environment. -/
  | setNext (env : String) (next : VarId) (quiet : Bool)
  /-- Takes an unused variable. -/
  | freshVar (env : String)
  /-- Declares a name. -/
  | declare (env name : String) (type : Ty) (quiet : Bool)
  /-- Removes a declaration. -/
  | remove (env name : String) (quiet : Bool)
  /-- Reads the type of a name. -/
  | lookupName (env name : String)
  /-- Reads declarations in order, up to a limit. -/
  | listNames (env : String) (limit : Option Int)
  /-- Shows an environment. -/
  | showEnv (env : String) (quiet : Bool)
  /-- Makes a copy with one more declaration. -/
  | extendEnv (env target name : String) (type : Ty) (quiet : Bool)
  /-- Makes a copy with all types rewritten, or refers to the same cell if there is nothing to do.
  -/
  | applyEnv (env subst target : String) (quiet : Bool)
  /-- Assigns a substitution. -/
  | putSubst (target : String) (value : Subst) (quiet : Bool)
  /-- Makes a copy with one more entry. -/
  | extendSubst (subst target : String) (id : VarId) (type : Ty) (quiet : Bool)
  /-- Composes two substitutions. -/
  | composeSubst (older newer target : String) (quiet : Bool)
  /-- Unifies two types, after rewriting them if a substitution is named. -/
  | unifySubst (left right : Ty) (target : String) (subst : Option String)
  /-- Reads the type of a variable. -/
  | lookupVar (subst : String) (id : VarId)
  /-- Reads entries in order, up to a limit. -/
  | listVars (subst : String) (limit : Option Int)
  /-- Shows a substitution. -/
  | showSubst (subst : String)
  /-- Rewrites a type. -/
  | applySubst (subst : String) (type : Ty)
  /-- Makes a context. -/
  | newContext (context : String)
  /-- Shows the state of a context. -/
  | showContext (context : String)
  /-- Resets a context. -/
  | resetContext (context : String)
  /-- Assigns the substitution of a context. -/
  | contextSubst (context target : String) (quiet : Bool)
  /-- Infers a type and the substitution. -/
  | infer (context : String) (env : Option String) (expr : Expr Label)
  /-- Infers a type alone. -/
  | inferType (context : String) (env : Option String) (expr : Expr Label)
  /-- Annotates an expression. -/
  | annotate (context : String) (env : Option String) (expr : Expr Label)

/-- What a command answers. -/
inductive Reply where
  /-- An environment; `same` says whether it is the cell that a substitution was applied to. -/
  | env (report : Env.Report) (same : Option Bool)
  /-- A fresh variable, and the next id after it. -/
  | fresh (id next : VarId)
  /-- The type that was looked up. -/
  | found (type : Option Ty)
  /-- Declarations that were listed. -/
  | names (seen : List (String × String))
  /-- Entries that were listed. -/
  | vars (seen : List (VarId × String))
  /-- A substitution. -/
  | subst (report : Subst.Report)
  /-- The size of a substitution. -/
  | substSize (size : Nat)
  /-- The result of unification. -/
  | unified (result : Except UnifyError Unified)
  /-- A type, or why there is none. -/
  | typed (result : Except InferError Ty.Report)
  /-- The state of a context. -/
  | context (report : Context.Report)
  /-- The result of inference. -/
  | inferred (run : Run Ty.Report)
  /-- The result of annotation. -/
  | annotated (run : Run Annotated)

/-- Why a command is not answered. -/
inductive Refusal where
  /-- A name is not assigned; nothing was done. -/
  | unassigned
  /-- The command faulted. -/
  | fault (f : Fault)
deriving DecidableEq, Repr

/-- The answer of a command. -/
abbrev Answer := Except Refusal Reply

namespace Workspace

/-! ## Names -/

/-- The cell and the environment of a name. -/
def env? (w : Workspace) (name : String) : Option (EnvRef × Env) := do
  let r ← w.envs[name]?
  return (r, ← w.cells[r]?)

/-- Refers a name to a new cell. -/
def addEnv (w : Workspace) (name : String) (env : Env) : Workspace :=
  { w with cells := w.cells.push env, envs := w.envs.insert name w.cells.size }

/-- Refers a name to an existing cell. -/
def shareEnv (w : Workspace) (name : String) (r : EnvRef) : Workspace :=
  { w with envs := w.envs.insert name r }

/-- Changes the environment in a cell. -/
def setEnv (w : Workspace) (r : EnvRef) (env : Env) : Workspace :=
  { w with cells := w.cells.setIfInBounds r env }

/-- Assigns a context. -/
def setContext (w : Workspace) (name : String) (c : Context) : Workspace :=
  { w with contexts := w.contexts.insert name c }

/-- Assigns a substitution. -/
def setSubst (w : Workspace) (name : String) (s : Subst) : Workspace :=
  { w with substs := w.substs.insert name s }

/-- Refuses a command that uses a name which is not assigned. -/
def withAssigned {β : Type} (w : Workspace) (value : Option β) (k : β → Workspace × Answer) :
    Workspace × Answer :=
  match value with
  | some b => k b
  | none => (w, .error .unassigned)

/-- Refuses a command that uses an optional name which is given and not assigned. -/
def withOptional {β : Type} (w : Workspace) (name : Option String) (find : String → Option β)
    (k : Option β → Workspace × Answer) : Workspace × Answer :=
  match name with
  | none => k none
  | some name => w.withAssigned (find name) (k ∘ some)

/-! ## Answers -/

/-- An answer that may fault. -/
def answer {β : Type} (x : Except Fault β) (reply : β → Reply) : Answer :=
  (x.map reply).mapError .fault

/-- Goes on with a value, unless its computation faults. -/
def computed {β : Type} (w : Workspace) (x : Except Fault β) (k : β → Workspace × Answer) :
    Workspace × Answer :=
  match x with
  | .ok b => k b
  | .error f => (w, .error (.fault f))

/-- The answer that shows an environment. -/
def envAnswer (quiet : Bool) (env : Env) (same : Option Bool) : Answer :=
  answer (env.report quiet) (.env · same)

/-- Assigns a substitution and shows it. A quiet answer gives its size alone. -/
def assignSubst (w : Workspace) (target : String) (s : Subst) (quiet : Bool) :
    Workspace × Answer :=
  (w.setSubst target s, if quiet then .ok (.substSize s.size) else answer s.report .subst)

/-- Works in a context, in an environment if one is named. -/
def inContext {β : Type} (w : Workspace) (name : String) (env : Option String)
    (work : Context → Option Env → Context × Except Fault β) (reply : β → Reply) :
    Workspace × Answer :=
  w.withAssigned w.contexts[name]? fun c =>
    w.withOptional env w.env? fun env =>
      let (c, x) := work c (env.map Prod.snd)
      (w.setContext name c, answer x reply)

/-! ## Commands -/

/-- Carries out a command. -/
def step (w : Workspace) : Command → Workspace × Answer
  | .newEnv name parent quiet =>
    w.withOptional parent w.env? fun parent =>
      let env := (parent.map Prod.snd).getD ∅
      (w.addEnv name env, envAnswer quiet env none)
  | .setNext name next quiet =>
    w.withAssigned (w.env? name) fun (r, env) =>
      let env := { env with next := next }
      (w.setEnv r env, envAnswer quiet env none)
  | .freshVar name =>
    w.withAssigned (w.env? name) fun (r, env) =>
      let (v, env) := env.fresh
      (w.setEnv r env, .ok (.fresh v env.next))
  | .declare name x t quiet =>
    w.withAssigned (w.env? name) fun (r, env) =>
      let env := env.declare x t
      (w.setEnv r env, envAnswer quiet env none)
  | .remove name x quiet =>
    w.withAssigned (w.env? name) fun (r, env) =>
      let env := env.remove x
      (w.setEnv r env, envAnswer quiet env none)
  | .lookupName name x =>
    w.withAssigned (w.env? name) fun (_, env) => (w, answer (env.lookup x) .found)
  | .listNames name limit =>
    w.withAssigned (w.env? name) fun (_, env) => (w, answer (readUpTo limit env.toList) .names)
  | .showEnv name quiet =>
    w.withAssigned (w.env? name) fun (_, env) => (w, envAnswer quiet env none)
  | .extendEnv name target x t quiet =>
    w.withAssigned (w.env? name) fun (_, env) =>
      let env := env.declare x t
      (w.addEnv target env, envAnswer quiet env none)
  | .applyEnv name subst target quiet =>
    w.withAssigned (w.env? name) fun (r, env) =>
      w.withAssigned w.substs[subst]? fun s =>
        w.computed (env.apply s) fun applied =>
          (if s.isEmpty then w.shareEnv target r else w.addEnv target applied,
            envAnswer quiet applied (some s.isEmpty))
  | .putSubst target s quiet => w.assignSubst target s quiet
  | .extendSubst name target v t quiet =>
    w.withAssigned w.substs[name]? fun s => w.assignSubst target (s.insert v t) quiet
  | .composeSubst older newer target quiet =>
    w.withAssigned w.substs[older]? fun older =>
      w.withAssigned w.substs[newer]? fun newer =>
        w.computed (older.compose newer) fun s => w.assignSubst target s quiet
  | .unifySubst a b target subst =>
    w.withOptional subst (w.substs[·]?) fun s =>
      let s := s.getD ∅
      w.computed (do return (← s.apply a, ← s.apply b)) fun (a, b) =>
        match unify a b with
        | .ok u => (w.setSubst target u, answer (Unified.report a b u) (.unified ∘ .ok))
        | .error (.error e) => (w.setSubst target ∅, .ok (.unified (.error e)))
        | .error (.fault f) => (w, .error (.fault f))
  | .lookupVar name v =>
    w.withAssigned w.substs[name]? fun s => (w, answer (s.lookup v) .found)
  | .listVars name limit =>
    w.withAssigned w.substs[name]? fun s => (w, answer (readUpTo limit s.toList) .vars)
  | .showSubst name =>
    w.withAssigned w.substs[name]? fun s => (w, answer s.report .subst)
  | .applySubst name t =>
    w.withAssigned w.substs[name]? fun s => (w, answer (s.apply t) fun u => .typed (.ok u.report))
  | .newContext name =>
    let c : Context := {}
    (w.setContext name c, answer c.report .context)
  | .showContext name =>
    w.withAssigned w.contexts[name]? fun c => (w, answer c.report .context)
  | .resetContext name =>
    w.withAssigned w.contexts[name]? fun c =>
      let c := c.reset
      (w.setContext name c, answer c.report .context)
  | .contextSubst name target quiet =>
    w.withAssigned w.contexts[name]? fun c => w.assignSubst target c.subst quiet
  | .infer name env e => w.inContext name env (·.inferReport · e) .inferred
  | .inferType name env e => w.inContext name env (·.typeReport · e) .typed
  | .annotate name env e => w.inContext name env (·.annotateReport · e) .annotated

end Workspace

end Monotype
