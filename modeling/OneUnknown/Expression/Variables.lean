import OneUnknown.Expression.Node
/-!
# The variables of an expression

Every variable counts that is mentioned anywhere, also inside a power, a parenthesis or a
fraction.  `Sequence.mentions` lists the mentions in the order in which they are written,
`Sequence.hasVariable` asks whether there are any, `Sequence.unknowns` gives the different
variables in the order of their code points, and `Sequence.variableTerm?` is the term of a
sequence that consists of one term with a variable.
-/

namespace OneUnknown

mutual
/-- Every mention of a variable in a node, in order. -/
def Node.mentions : Node → List Char
  | .group v _ p => v.toList ++ Sequence.mentions p
  | .paren b p _ => Sequence.mentions b ++ Sequence.mentions p
  | .fraction t b => Sequence.mentions t ++ Sequence.mentions b
  | .operator _ | .relation _ => []

/-- Every mention of a variable in a sequence, in order. -/
def Sequence.mentions : List Node → List Char
  | [] => []
  | n :: ns => n.mentions ++ Sequence.mentions ns
end

/-- Whether a sequence mentions a variable at all. -/
def Sequence.hasVariable (nodes : List Node) : Bool := !(Sequence.mentions nodes).isEmpty

/-- Insert a character into an ascending list without repetitions. -/
def insertAscending (c : Char) : List Char → List Char
  | [] => [c]
  | d :: ds => if c < d then c :: d :: ds else if c = d then d :: ds else d :: insertAscending c ds

/-- The different variables of a sequence, ascending. -/
def Sequence.unknowns (nodes : List Node) : List Char :=
  (Sequence.mentions nodes).foldr insertAscending []

/-- The group that a sequence consists of, if that has a variable. -/
def Sequence.variableTerm? : List Node → Option Group
  | [.group (some v) n p] => some ⟨some v, n, p⟩
  | _ => none

mutual
/-- The keys of all groups with a variable, wherever they stand, added to those already seen. -/
def Node.variableKeys (seen : List TermKey) : Node → List TermKey
  | .group v _ p =>
    let seen := if v = none ∨ ⟨v, p⟩ ∈ seen then seen else seen ++ [⟨v, p⟩]
    Sequence.variableKeys seen p
  | .paren b p _ => Sequence.variableKeys (Sequence.variableKeys seen b) p
  | .fraction t b => Sequence.variableKeys (Sequence.variableKeys seen t) b
  | .operator _ | .relation _ => seen

/-- The keys of all groups with a variable in a sequence, added to those already seen. -/
def Sequence.variableKeys (seen : List TermKey) : List Node → List TermKey
  | [] => seen
  | n :: ns => Sequence.variableKeys (n.variableKeys seen) ns
end

end OneUnknown
