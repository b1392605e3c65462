import OneUnknown.Cleaning
import OneUnknown.Equation.Step
import OneUnknown.ProblemKind
import OneUnknown.Text.Reader
/-!
# Solving a problem

A problem is cleaned, and then classified and rewritten until a step solves it.  A step may ask
for the solution of smaller problems, the factors of a product.  How deep such problems can be
nested is bounded by the height of the sequence, so the recursion is on a number of levels that
is computed from it.

* `Sequence.height`: how deep parentheses and fractions are nested, divisions counted as the
  fractions they become;
* `solveWithin`: solving with a given number of levels;
* `solveTraced`, `solveNodes` and `solve`: solving a sequence with and without its stages, and a
  text.
-/

namespace OneUnknown

/-! ## Heights -/

mutual
/-- How deep parentheses and fractions are nested in a node, including the fractions that its
divisions become. -/
def Node.height : Node → Nat
  | .paren b _ _ => Sequence.heightFrom 0 0 b + 1
  | .fraction t b => max (Sequence.heightFrom 0 0 t) (Sequence.heightFrom 0 0 b) + 1
  | .group .. | .operator _ | .relation _ => 0

/-- The height of the rest of a sequence, in the middle of a summand with some divisions and a
tallest node so far. -/
def Sequence.heightFrom (divisions tallest : Nat) : List Node → Nat
  | [] => divisions + tallest
  | .operator .divide :: rest => Sequence.heightFrom (divisions + 1) tallest rest
  | .operator .multiply :: rest => Sequence.heightFrom divisions tallest rest
  | .operator _ :: rest | .relation _ :: rest =>
    max (divisions + tallest) (Sequence.heightFrom 0 0 rest)
  | node :: rest => Sequence.heightFrom divisions (max tallest node.height) rest
end

/-- How deep parentheses and fractions are nested in a sequence. -/
def Sequence.height (nodes : List Node) : Nat := Sequence.heightFrom 0 0 nodes

/-- How many levels of problems a sequence can lead to, itself included. -/
def nestingBound (nodes : List Node) : Nat := 2 * Sequence.height nodes + 3

/-! ## Solving -/

/-- Classify and rewrite a cleaned sequence, for a number of rounds. -/
def rewriteUntilSolved (solve : List Node → Traced Solution) (options : Options) :
    (rounds : Nat) → List Node → Traced Solution
  | 0, nodes => Traced.fail (.notConverged nodes)
  | rounds + 1, nodes => do
    match ← Traced.ofExcept (ProblemKind.of nodes) with
    | .arithmetic => do
      let value ← Traced.ofExcept (Sequence.evaluate nodes)
      return Solution.ofRat value
    | .comparison => do
      let holds ← Traced.ofExcept (Sequence.compare nodes)
      return .truth holds
    | .equation unknown => do
      match ← Sequence.step solve options unknown nodes with
      | .solved solution => return solution
      | .rewritten next => rewriteUntilSolved solve options rounds next

/-- Solve a sequence, with problems nested at most `levels` deep. -/
def solveWithin : (levels : Nat) → Options → List Node → Traced Solution
  | 0, _, _ => Traced.tooDeep
  | levels + 1, options, nodes => do
    let cleaned ← Traced.ofExcept (Sequence.cleaned nodes)
    Traced.stage .cleaning cleaned
    rewriteUntilSolved (solveWithin levels options) options options.maxSteps cleaned

/-- Solve a sequence and keep the stages on the way.  Where the search for divisors overflows there
is no answer, and the sequence counts as one that rewriting does not bring to an end. -/
def solveTraced (options : Options) (nodes : List Node) : List Stage × Except SolveError Solution :=
  let traced := solveWithin (nestingBound nodes) options nodes
  match traced.outcome with
  | .ok solution => (traced.stages, .ok solution)
  | .error (.failed reason) => (traced.stages, .error reason)
  | .error .tooDeep | .error .overflow => (traced.stages, .error (.notConverged nodes))

/-- Solve a sequence. -/
def solveNodes (options : Options) (nodes : List Node) : Except SolveError Solution :=
  (solveTraced options nodes).2

/-- Read and solve a problem. -/
def solve (text : List Char) : Except SolveError Solution :=
  match parse text with
  | .ok nodes => solveNodes Options.standard nodes
  | .error reason => .error (.parse reason)

end OneUnknown
