import Monotype.Ty.Basic

/-!
# Fresh variables

A `Supply` hands out consecutive ids and counts them. A `Pool` also stores the variables: each is a
cell of memory that holds an id, and can be renumbered. Cells are made in blocks of eight, and
handed out one after the other. A reset drops the rest of the current block; variables that were
handed out stay.
-/

namespace Monotype

/-- A source of fresh variables. -/
structure Supply where
  /-- The next id to hand out. -/
  next : VarId := 0
  /-- The number of ids handed out since the last reset. -/
  count : Nat := 0
deriving DecidableEq, Repr, Inhabited

namespace Supply

/-- A fresh variable, and the supply after it. The id after the greatest is the least. -/
def fresh (n : Supply) : VarId × Supply := (n.next, ⟨n.next + 1, n.count + 1⟩)

/-- Starts counting anew; the next id stays. -/
def reset (n : Supply) : Supply := { n with count := 0 }

/-- Continues from another id. -/
def startAt (n : Supply) (next : VarId) : Supply := { n with next := next }

end Supply

/-- Cells that are next to each other. -/
structure Block where
  /-- The first cell. -/
  first : Nat := 0
  /-- The number of cells. -/
  size : Nat := 0
deriving DecidableEq, Repr, Inhabited

/-- A supply together with the variables it has handed out. -/
structure Pool where
  /-- The source of ids. -/
  supply : Supply := {}
  /-- The memory: what is stored in each cell. -/
  cells : Array VarId := #[]
  /-- The cells of the current block that are not handed out. -/
  block : Block := {}
  /-- The cells of the variables handed out, in order. -/
  handed : List Nat := []
deriving DecidableEq, Repr, Inhabited

/-- A step of work with a pool. -/
inductive Pool.Step where
  /-- Takes a fresh variable. -/
  | alloc
  /-- Starts counting anew. -/
  | reset
  /-- Continues from another id. -/
  | startAt (next : VarId)
  /-- Renumbers the variable handed out at an index. -/
  | renumber (index : Nat) (id : VarId)
deriving DecidableEq, Repr

namespace Pool

/-- The number of cells that are made at once. -/
def blockSize : Nat := 8

/-- The id in a cell. -/
def read (p : Pool) (cell : Nat) : VarId := p.cells.getD cell 0

/-- Stores an id in a cell. -/
def write (p : Pool) (cell : Nat) (id : VarId) : Pool :=
  { p with cells := p.cells.setIfInBounds cell id }

/-- The current ids of the variables handed out, in order. -/
def issued (p : Pool) : List VarId := p.handed.map p.read

/-- Makes a new block if the current one is used up. -/
def refill (p : Pool) : Pool :=
  if p.block.size = 0 then
    { p with cells := p.cells ++ Array.replicate blockSize 0, block := ⟨p.cells.size, blockSize⟩ }
  else p

/-- Hands out the first cell of the current block, with the next id. -/
def hand (p : Pool) : Pool :=
  let (v, supply) := p.supply.fresh
  { p.write p.block.first v with
    supply := supply
    block := ⟨p.block.first + 1, p.block.size - 1⟩
    handed := p.handed ++ [p.block.first] }

/-- A variable that was not handed out before. -/
def take (p : Pool) : Nat × Pool :=
  let p := p.refill
  (p.block.first, p.hand)

/-- Makes a step, and gives the id of the variable it is about. There is no step for an index at
which nothing was handed out. -/
def step (p : Pool) : Step → Option (Option VarId × Pool)
  | .alloc =>
    let (cell, p) := p.take
    some (some (p.read cell), p)
  | .reset => some (none, { p with supply := p.supply.reset, block := {} })
  | .startAt next => some (none, { p with supply := p.supply.startAt next })
  | .renumber i v => do
    let cell ← p.handed[i]?
    let p := p.write cell v
    return (some (p.read cell), p)

/-- Makes steps in order. The trace has, for each, the id it is about and the supply after it. -/
def run (p : Pool) : List Step → Option (List (Option VarId × Supply) × Pool)
  | [] => some ([], p)
  | s :: steps => do
    let (v, p) ← p.step s
    let (trace, last) ← p.run steps
    return ((v, p.supply) :: trace, last)

end Pool

end Monotype
