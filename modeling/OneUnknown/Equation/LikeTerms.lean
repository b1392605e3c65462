import OneUnknown.Equation.Sides
import OneUnknown.Expression.Summands
import OneUnknown.Expression.Variables
import OneUnknown.Solution.Basic
/-!
# Like terms

Groups that make up a summand on their own and agree in variable and power are added up, each at
the place of the first of them.  After that, zeros are dropped: a plain zero unless it is all
there is, and a variable with the coefficient zero as long as the equation mentions the variable
elsewhere.

Like terms of different sides are brought together by moving summands with the variable to the left
and numbers to the right, with the other sign.  Two sides that are the same settle the problem
instead.

* `Sides.collected`: the equation with like terms added up;
* `Sides.crossed`: the equation with all terms on their side.
-/

namespace OneUnknown

/-- The group that a summand consists of, if it can be added up. -/
def loneTerm? : List Node → Option Group
  | [.group v n p] => if v.isSome || p.isEmpty then some ⟨v, n, p⟩ else none
  | _ => none

/-- The group that a summand consists of, if its coefficient is zero. -/
def zeroTerm? (summand : List Node) : Option Group :=
  (loneTerm? summand).filter fun g => g.coefficient = 0

/-- Add a group to the first like term among some summands, or put it behind them. -/
def addLike (g : Group) : List (List Node) → List (List Node)
  | [] => [[g.toNode]]
  | summand :: rest =>
    match loneTerm? summand with
    | some first =>
      if first.key = g.key then
        [(g.withCoefficient (first.coefficient + g.coefficient)).toNode] :: rest
      else summand :: addLike g rest
    | none => summand :: addLike g rest

/-- The summands with like terms added up. -/
def collectLike (summands : List (List Node)) : List (List Node) :=
  summands.foldl (fun collected summand =>
    match loneTerm? summand with
    | some g => addLike g collected
    | none => collected ++ [summand]) []

/-- The side with like terms added up. -/
def Sequence.collected (side : List Node) : List Node :=
  Sequence.join (collectLike (Sequence.summands side))

/-- Whether a side mentions a variable other than with the coefficient zero. -/
def keepsVariable (side : List Node) : Bool :=
  (Sequence.summands side).any fun summand =>
    Sequence.hasVariable summand && (zeroTerm? summand).isNone

/-- Whether a summand stays.  A plain zero is dropped if there are several summands, and a zero
with a variable if the variable is mentioned elsewhere. -/
def staysBesideOthers (several otherVariables : Bool) (summand : List Node) : Bool :=
  match zeroTerm? summand with
  | some g => if g.letter.isNone then !several else !otherVariables
  | none => true

/-- The side without the zeros that can be dropped. -/
def Sequence.withoutZeros (otherVariables : Bool) (side : List Node) : List Node :=
  let parts := Sequence.summands side
  Sequence.join (parts.filter (staysBesideOthers (1 < parts.length) otherVariables))

/-- The equation with like terms added up on each side. -/
def Sides.collected (s : Sides) : Sides :=
  let left := Sequence.collected s.left
  let right := Sequence.collected s.right
  let otherVariables := keepsVariable left || keepsVariable right
  ⟨Sequence.withoutZeros otherVariables left, s.relation,
    Sequence.withoutZeros otherVariables right⟩

/-! ## Terms that change sides -/

/-- What comes of moving terms to the other side. -/
inductive Crossing where
  /-- Both sides are the same, which settles the problem. -/
  | settled (value : Value)
  | moved (sides : Sides)

/-- Move terms with the variable to the left and numbers to the right. -/
def Sides.crossed (name : Char) (s : Sides) : Crossing :=
  if s.left = s.right then
    .settled (if s.relation.holds 0 0 then .trueForAll name else .noSolution)
  else
    let (leftStays, leftMoves) := (Sequence.summands s.left).partition Sequence.hasVariable
    let (rightMoves, rightStays) := (Sequence.summands s.right).partition Sequence.hasVariable
    if leftMoves.isEmpty && rightMoves.isEmpty then .moved s
    else
      .moved
        ⟨Sequence.join (leftStays ++ rightMoves.map Sequence.negatedSummand), s.relation,
          Sequence.join (rightStays ++ leftMoves.map Sequence.negatedSummand)⟩

end OneUnknown
