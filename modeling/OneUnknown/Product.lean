import OneUnknown.Evaluation
/-!
# Products of groups

The product of two groups is one group again if their variables agree or one of them is a number.
Powers of the same variable are added: `x^2 * x^3` is `x^5`.
-/

namespace OneUnknown

namespace Group

/-- The power that stands for an exponent.  The exponent one is not written. -/
def powerOf (exponent : Rat) : List Node :=
  if exponent = 1 then [] else [Node.constant exponent]

/-- A number with a power as a plain number, and any other group as it is. -/
def resolved? (g : Group) : Option Group :=
  if g.letter = none ∧ g.power ≠ [] then
    match g.value with
    | .ok value => some (Group.constant value)
    | .error _ => none
  else some g

/-- The value of the exponent, if it has one. -/
def exponent? (g : Group) : Option Rat :=
  if g.power.isEmpty then some 1
  else if Sequence.hasVariable g.power then none
  else
    match Sequence.evaluate g.power with
    | .ok value => some value
    | .error _ => none

/-- The product of two groups, if it is one group.  Two different variables are refused. -/
def multiply (left right : Group) : Except SolveError (Option Group) :=
  match left.resolved?, right.resolved? with
  | some left, some right =>
    let coefficient := left.coefficient * right.coefficient
    match left.letter, right.letter with
    | none, none => .ok (some (Group.constant coefficient))
    | some _, none => .ok (some (left.withCoefficient coefficient))
    | none, some _ => .ok (some (right.withCoefficient coefficient))
    | some a, some b =>
      if a ≠ b then .error .mixedVariables
      else
        match left.exponent?, right.exponent? with
        | some p, some q => .ok (some ⟨some a, Number.ofRat coefficient, powerOf (p + q)⟩)
        | _, _ => .ok none
  | _, _ => .ok none

end Group

/-- The product of two nodes, if both are groups and so is their product. -/
def Node.multiply (left right : Node) : Except SolveError (Option Node) :=
  match left.asGroup?, right.asGroup? with
  | some left, some right => do
    let product ← left.multiply right
    return product.map Group.toNode
  | _, _ => .ok none

/-- The rest of a sequence after `held`, with products of groups multiplied out. -/
def Sequence.multipliedAfter (held : Node) : List Node → Except SolveError (List Node)
  | .operator .multiply :: next :: rest => do
    match ← held.multiply next with
    | some product => Sequence.multipliedAfter product rest
    | none =>
      let rest ← Sequence.multipliedAfter (.operator .multiply) (next :: rest)
      return held :: rest
  | node :: rest => do
    let rest ← Sequence.multipliedAfter node rest
    return held :: rest
  | [] => .ok [held]

/-- The sequence with every product of two groups multiplied out. -/
def Sequence.multiplied : List Node → Except SolveError (List Node)
  | [] => .ok []
  | first :: rest => Sequence.multipliedAfter first rest

end OneUnknown
