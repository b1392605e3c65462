import OneUnknown.Expression.Variables
import OneUnknown.SolveError
/-!
# The value of an expression without variables

A sequence is evaluated in four rounds: its parentheses and its fractions become numbers, then its
powers, then products and quotients are applied from left to right, and then sums and differences.
What is left has to be one number.  Where several things are wrong, the first round that notices
one decides, and within a round the leftmost.

* `Node.collapse`: a term as a plain number;
* `Sequence.applied`: all operators of one precedence;
* `Sequence.evaluate`: the value of a sequence;
* `Sequence.compare`: whether a chain of relations holds;
* `positiveIntegerPower?`: an exponent that is a positive integer.
-/

namespace OneUnknown

/-! ## Operators -/

/-- The value of an operand: a number without a power. -/
def Node.operand : Node → Except SolveError Rat
  | .group none n [] => .ok n.value
  | node => .error (.malformed [node])

/-- The value of an operator between two values. -/
def Operator.apply (op : Operator) (left right : Rat) : Except SolveError Rat :=
  match op with
  | .add => .ok (left + right)
  | .subtract => .ok (left - right)
  | .multiply => .ok (left * right)
  | .divide => exactly (Rational.divide left right)

/-- Apply the operators of one precedence from left to right.  `before` holds what comes before
`held`, the latest first; no operator there is left to apply. -/
def Sequence.appliedFrom (tighter : Bool) (before : List Node) (held : Node) :
    List Node → Except SolveError (List Node)
  | [] => .ok (before.reverse ++ [held])
  | .operator op :: rest =>
    if op.bindsTighter = tighter then
      match rest with
      | [] => .error (.malformed (before.reverse ++ [held, .operator op]))
      | next :: rest => do
        let left ← held.operand
        let right ← next.operand
        let value ← op.apply left right
        Sequence.appliedFrom tighter before (Node.constant value) rest
    else Sequence.appliedFrom tighter (held :: before) (.operator op) rest
  | node :: rest => Sequence.appliedFrom tighter (held :: before) node rest

/-- Apply all operators of one precedence.  None of them may stand first or last. -/
def Sequence.applied (tighter : Bool) : List Node → Except SolveError (List Node)
  | [] => .ok []
  | .operator op :: rest =>
    if op.bindsTighter = tighter then .error (.malformed (.operator op :: rest))
    else Sequence.appliedFrom tighter [] (.operator op) rest
  | node :: rest => Sequence.appliedFrom tighter [] node rest

/-! ## Terms -/

/-- The first failure among the nodes of one kind. -/
def firstFailure (kind : Node → Bool) :
    List (Node × Except SolveError Node) → Except SolveError Unit
  | [] => .ok ()
  | (node, result) :: rest =>
    match kind node, result with
    | true, .error e => .error e
    | _, _ => firstFailure kind rest

/-- The value of a sequence, given what each of its nodes becomes. -/
def combined (terms : List (Node × Except SolveError Node)) : Except SolveError Rat := do
  firstFailure Node.isParen terms
  firstFailure Node.isFraction terms
  let nodes ← terms.mapM fun term => term.2
  let nodes ← Sequence.applied true nodes
  let nodes ← Sequence.applied false nodes
  match nodes with
  | [node] => node.operand
  | nodes => .error (.malformed nodes)

mutual
/-- A term as a plain number.  Operators, relations and terms without a power stay. -/
def Node.collapse : Node → Except SolveError Node
  | .group v n p =>
    if p.isEmpty then .ok (.group v n p)
    else if v.isSome then .error (.malformed [.group v n p])
    else do
      let exponent ← combined (Sequence.collapsed p)
      let value ← exactly (Rational.signedPower n.value exponent)
      return Node.constant value
  | .paren b p negative => do
    let content ← combined (Sequence.collapsed b)
    let value ←
      if p.isEmpty then pure content
      else do
        let exponent ← combined (Sequence.collapsed p)
        exactly (Rational.power content exponent)
    return Node.constant (if negative then -value else value)
  | .fraction t b => do
    let top ← combined (Sequence.collapsed t)
    let bottom ← combined (Sequence.collapsed b)
    let value ← exactly (Rational.divide top bottom)
    return Node.constant value
  | .operator op => .ok (.operator op)
  | .relation r => .ok (.relation r)

/-- The nodes of a sequence, each with the plain number it becomes. -/
def Sequence.collapsed : List Node → List (Node × Except SolveError Node)
  | [] => []
  | n :: ns => (n, n.collapse) :: Sequence.collapsed ns
end

/-! ## Sequences -/

/-- The value of a cleaned sequence without variables. -/
def Sequence.evaluate (nodes : List Node) : Except SolveError Rat :=
  combined (Sequence.collapsed nodes)

/-- The value of a group without a variable, its power applied. -/
def Group.value (g : Group) : Except SolveError Rat :=
  if g.letter.isSome then .error (.malformed [g.toNode])
  else if g.power.isEmpty then .ok g.coefficient
  else do
    let exponent ← Sequence.evaluate g.power
    exactly (Rational.signedPower g.coefficient exponent)

/-- The sides of a chain of relations: the first one, and the others with the relation in front
of each. -/
def Sequence.chain : List Node → List Node × List (Relation × List Node)
  | [] => ([], [])
  | .relation r :: rest =>
    let (side, others) := Sequence.chain rest
    ([], (r, side) :: others)
  | node :: rest =>
    let (side, others) := Sequence.chain rest
    (node :: side, others)

/-- Whether each relation of a chain holds between the values on both sides of it. -/
def compareFrom (left : Rat) : List (Relation × List Node) → Except SolveError Bool
  | [] => .ok true
  | (relation, side) :: rest => do
    let right ← Sequence.evaluate side
    let others ← compareFrom right rest
    return relation.holds left right && others

/-- Whether a comparison without variables, such as `1 < 2 < 3`, holds. -/
def Sequence.compare (nodes : List Node) : Except SolveError Bool := do
  let (side, others) := Sequence.chain nodes
  let left ← Sequence.evaluate side
  compareFrom left others

/-! ## Exponents -/

/-- The largest exponent of a power that is multiplied out. -/
def largestWholeExponent : Nat := 4294967295

/-- An exponent without variables whose value is a positive integer. -/
def positiveIntegerPower? (power : List Node) : Option Nat :=
  if power.isEmpty || Sequence.hasVariable power then none
  else
    match Sequence.evaluate power with
    | .ok value =>
      if value.den = 1 ∧ 0 < value.num ∧ value.num ≤ (largestWholeExponent : Int) then
        some value.num.natAbs
      else none
    | .error _ => none

end OneUnknown
