import Monotype.FinMap
import Monotype.Subst.Basic

/-!
# Printed substitutions

The entries stand between braces in order of id, and all variables are written by id, so that keys
and types can be matched. Printing reads every entry.
-/

namespace Monotype

namespace Subst

/-- Reads all entries in order of id. -/
def readAll (s : Subst) : Except Fault (List (VarId × Ty)) := mapSndM Ty.read s.toList

/-- The text of an entry. -/
def printEntry (e : VarId × Ty) : String := idName e.1 ++ " := " ++ e.2.printById

/-- The text of a substitution. -/
def print (s : Subst) : Except Fault String := do
  return "\x7b" ++ ", ".intercalate ((← s.readAll).map printEntry) ++ "\x7d"

end Subst

end Monotype
