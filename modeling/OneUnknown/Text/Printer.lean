import OneUnknown.Expression.Node
/-!
# Writing an expression

A sequence is written with one blank around operators and relations.  A minus sign in front of a
term stands for the `+` before it, and a factor in parentheses needs no operator.

* `Node.body` writes a term without its sign;
* `Sequence.textAfter` writes a sequence after some node;
* `Sequence.text` is the text of a sequence.
-/

namespace OneUnknown

/-- What stands between two nodes: the sign of the second, and the operator that is implied. -/
def separator (previous : Option Node) (term : Node) : List Char :=
  let afterTerm := previous.any Node.isTerm
  if term.isNegative then
    if afterTerm || previous = some (.operator .add) then [' ', '-', ' '] else ['-']
  else if afterTerm && !term.isParen then [' ', '+', ' ']
  else []

/-- The coefficient of a group, without its sign.  In front of a variable a one is left out. -/
def coefficientText (letter : Option Char) (number : Number) : List Char :=
  match letter with
  | some name => if number.magnitude = 1 then [name] else Rational.plain number.magnitude ++ [name]
  | none => Rational.plain number.magnitude

/-- Whether an exponent need not be written: it is empty, or the number one. -/
def isUnitPower : List Node → Bool
  | [] => true
  | [.group none n []] => n.value = 1
  | _ => false

/-- Put a text in parentheses. -/
def parenthesized (text : List Char) : List Char := '(' :: (text ++ [')'])

mutual
/-- A term without its sign. -/
def Node.body : Node → List Char
  | .group v n p =>
    coefficientText v n ++
      (if isUnitPower p then []
      else if p.length = 1 then '^' :: Sequence.textAfter none p
      else '^' :: parenthesized (Sequence.textAfter none p))
  | .paren b p _ =>
    parenthesized (Sequence.textAfter none b) ++
      (if isUnitPower p then []
      else if p.length = 1 then '^' :: Sequence.textAfter none p
      else '^' :: parenthesized (Sequence.textAfter none p))
  | .fraction t b =>
    (if 1 < t.length then parenthesized (Sequence.textAfter none t)
      else Sequence.textAfter none t) ++ '/' ::
    (if 1 < b.length then parenthesized (Sequence.textAfter none b)
      else Sequence.textAfter none b)
  | .operator _ | .relation _ => []

/-- The text of a sequence that stands after `previous`. -/
def Sequence.textAfter (previous : Option Node) : List Node → List Char
  | [] => []
  | n :: ns =>
    (match n with
      | .operator op =>
        if op = .add ∧ ns.head?.any Node.isNegative then [] else [' ', op.symbol, ' ']
      | .relation r => [' ', r.symbol, ' ']
      | term => separator previous term ++ term.body)
      ++ Sequence.textAfter (some n) ns
end

/-- The text of a sequence. -/
def Sequence.text (nodes : List Node) : List Char := Sequence.textAfter none nodes

/-- The text of a lone node. -/
def Node.text (n : Node) : List Char := Sequence.text [n]

end OneUnknown
