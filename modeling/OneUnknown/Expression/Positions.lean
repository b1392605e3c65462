import OneUnknown.Expression.Node
/-!
# Where things stand in a sequence

An index of a sequence: the places of its parentheses, powers, fractions, operators and
relations, and the places of the terms that can be added up, collected by their key.  All lists
of places ascend.
-/

namespace OneUnknown

/-- The places of interest in one sequence. -/
structure Positions where
  parentheses : List Nat
  /-- Groups and parentheses that carry an exponent. -/
  powers : List Nat
  fractions : List Nat
  operators : List (Operator × Nat)
  relations : List (Relation × Nat)
  /-- The groups that can be added up, by key, in the order of their first appearance. -/
  terms : List (TermKey × List Nat)
  deriving DecidableEq, Repr

namespace Positions

/-- Enter a term into the collection of like terms. -/
def enter (key : TermKey) (place : Nat) :
    List (TermKey × List Nat) → List (TermKey × List Nat)
  | [] => [(key, [place])]
  | (key', places) :: rest =>
    if key' = key then (key', places ++ [place]) :: rest else (key', places) :: enter key place rest

/-- The places collected under a key. -/
def bucket (key : TermKey) (terms : List (TermKey × List Nat)) : List Nat :=
  ((terms.find? fun (key', _) => key' = key).map Prod.snd).getD []

/-- The places at which a node has a property. -/
def places (property : Node → Bool) (nodes : List Node) : List Nat :=
  nodes.zipIdx.filterMap fun (node, place) => if property node then some place else none

/-- The collection of like terms of a sequence. -/
def likeTerms (nodes : List Node) : List (TermKey × List Nat) :=
  nodes.zipIdx.foldl (fun terms (node, place) =>
    match node.asGroup? with
    | some g => if g.isAddable then enter g.key place terms else terms
    | none => terms) []

/-- The index of a sequence. -/
def ofNodes (nodes : List Node) : Positions where
  parentheses := places Node.isParen nodes
  powers := places Node.isPowered nodes
  fractions := places Node.isFraction nodes
  operators := nodes.zipIdx.filterMap fun
    | (.operator op, place) => some (op, place)
    | _ => none
  relations := nodes.zipIdx.filterMap fun
    | (.relation r, place) => some (r, place)
    | _ => none
  terms := likeTerms nodes

/-- The places of one operator. -/
def operator (p : Positions) (op : Operator) : List Nat :=
  p.operators.filterMap fun (op', place) => if op' = op then some place else none

/-- The places of two operators together, ascending. -/
def merged (p : Positions) (first second : Operator) : List Nat :=
  (p.operator first ++ p.operator second).mergeSort

/-- The places of `*` and `/`, which are applied together from left to right. -/
def multiplicationsAndDivisions (p : Positions) : List Nat := p.merged .multiply .divide

/-- The places of `+` and `-`, which are applied together from left to right. -/
def additionsAndSubtractions (p : Positions) : List Nat := p.merged .add .subtract

/-- The places of the terms with a key. -/
def termPlaces (p : Positions) (key : TermKey) : List Nat := bucket key p.terms

/-- Whether all operators at this level multiply. -/
def onlyMultiplication (p : Positions) : Bool :=
  p.operators.all fun (op, _) => op = .multiply

end Positions

/-- Split an equation around its first relation. -/
def Sequence.split? : List Node → Option (List Node × Relation × List Node)
  | [] => none
  | .relation r :: rest => some ([], r, rest)
  | node :: rest => (Sequence.split? rest).map fun (left, r, right) => (node :: left, r, right)

end OneUnknown
