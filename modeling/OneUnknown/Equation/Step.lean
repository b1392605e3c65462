import OneUnknown.Division
import OneUnknown.Equation.ClosedForm
import OneUnknown.Equation.Expansion
import OneUnknown.Equation.FractionClearing
import OneUnknown.Equation.LikeTerms
import OneUnknown.Equation.ZeroProduct
/-!
# One step of rewriting

A step solves an equation that has a form that can be solved, and otherwise rewrites it: fractions
are cleared, a common factor is cancelled, products are multiplied out, like terms are added up
and terms change sides.  Only if all of that leaves the equation as it is, parentheses are
removed.

* `Options`: the limits of solving;
* `Sides.tidied`: everything but the removal of parentheses;
* `Sides.step`: one step.
-/

namespace OneUnknown

/-- The limits of solving a problem. -/
structure Options where
  /-- How many steps are tried. -/
  maxSteps : Nat
  /-- Coefficients from this magnitude on are not searched for common factors. -/
  factorLimit : Nat
  deriving DecidableEq, Repr

/-- The limits that are used where none are given. -/
def Options.standard : Options := ⟨256, 10000000000⟩

/-- The outcome of one step. -/
inductive Step where
  | solved (solution : Solution)
  | rewritten (nodes : List Node)
  deriving DecidableEq, Repr

/-- Clear a fraction, cancel a common factor, multiply out products, add up like terms, and move
terms to their side. -/
def Sides.tidied (options : Options) (unknown : Char) (s : Sides) : Traced Crossing := do
  let s ← Traced.ofHalting (s.withoutFraction options.factorLimit)
  Traced.stage .fractions s.toNodes
  let s ← Traced.ofHalting (s.cancelled options.factorLimit)
  Traced.stage .commonFactor s.toNodes
  let s ← Traced.ofExcept (s.mapM Sequence.multiplied)
  Traced.stage .multiplication s.toNodes
  let s := s.collected
  Traced.stage .likeTerms s.toNodes
  return s.crossed unknown

/-- Remove the parentheses of an equation that is tidy. -/
def Sides.openedUp (s : Sides) : Traced Step := do
  let opened ← Traced.ofExcept (s.mapM Sequence.expanded)
  Traced.stage .parentheses opened.toNodes
  if opened = s then Traced.fail (.notConverged s.toNodes) else return .rewritten opened.toNodes

/-- One step on an equation that has no form that can be solved. -/
def Sides.rewritten (options : Options) (unknown : Char) (s : Sides) : Traced Step := do
  match ← s.tidied options unknown with
  | .settled value => return .solved (Solution.only unknown value)
  | .moved next =>
    Traced.stage .crossing next.toNodes
    if next = s then s.openedUp else return .rewritten next.toNodes

/-- One step on an equation.  `solve` solves the equations of factors. -/
def Sides.step (solve : List Node → Traced Solution) (options : Options) (unknown : Char)
    (s : Sides) : Traced Step := do
  match ← Traced.ofExcept (s.closedForm? unknown) with
  | some solution => return .solved solution
  | none =>
    match ← Traced.ofExcept s.zeroProduct? with
    | some product =>
      if isFactorable product then
        let solution ← mergeFactors solve unknown Solution.empty (factorEquations product)
        return .solved solution
      else s.rewritten options unknown
    | none => s.rewritten options unknown

/-- One step on a cleaned sequence with one unknown. -/
def Sequence.step (solve : List Node → Traced Solution) (options : Options) (unknown : Char)
    (nodes : List Node) : Traced Step := do
  let nodes ← Traced.ofExcept (Sequence.withFractions nodes)
  if 1 < (nodes.filter Node.isRelation).length then Traced.fail .multipleRelations
  else
    let s ← Traced.ofExcept (Sides.ofNodes nodes)
    s.step solve options unknown

end OneUnknown
