import OneUnknown.Expression.Positions
import OneUnknown.SolveError
/-!
# Equations as two sides

An equation or inequality with one relation is rewritten as a pair of sides.
-/

namespace OneUnknown

/-- An equation or inequality, split around its relation. -/
structure Sides where
  left : List Node
  relation : Relation
  right : List Node
  deriving DecidableEq, Repr

namespace Sides

/-- Split a sequence around its first relation. -/
def ofNodes (nodes : List Node) : Except SolveError Sides :=
  match Sequence.split? nodes with
  | some (left, relation, right) => .ok ⟨left, relation, right⟩
  | none => .error (.malformed nodes)

/-- The sequence again. -/
def toNodes (s : Sides) : List Node := s.left ++ .relation s.relation :: s.right

/-- Rewrite both sides, the left one first. -/
def mapM (rewrite : List Node → Except SolveError (List Node)) (s : Sides) :
    Except SolveError Sides := do
  let left ← rewrite s.left
  let right ← rewrite s.right
  return ⟨left, s.relation, right⟩

end Sides

end OneUnknown
