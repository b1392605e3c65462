/-!
# Operators and relations

The symbols that stand between terms: the four binary operators, and the six relations between
the sides of an equation or inequality.
-/

namespace OneUnknown

/-- A binary operator that joins two terms. -/
inductive Operator where
  | add
  | subtract
  | multiply
  | divide
  deriving DecidableEq, Repr

namespace Operator

/-- The character an operator is written with. -/
def symbol : Operator → Char
  | add => '+'
  | subtract => '-'
  | multiply => '*'
  | divide => '/'

/-- Products and quotients are applied before sums and differences. -/
def bindsTighter : Operator → Bool
  | multiply | divide => true
  | add | subtract => false

end Operator

/-- A relation between the two sides of an equation or inequality. -/
inductive Relation where
  | equal
  | notEqual
  | less
  | greater
  | lessOrEqual
  | greaterOrEqual
  deriving DecidableEq, Repr

namespace Relation

/-- The character a relation is written with. -/
def symbol : Relation → Char
  | equal => '='
  | notEqual => '≠'
  | less => '<'
  | greater => '>'
  | lessOrEqual => '≤'
  | greaterOrEqual => '≥'

/-- Whether the relation holds between two values. -/
def holds (relation : Relation) (left right : Rat) : Bool :=
  match relation with
  | equal => left = right
  | notEqual => left ≠ right
  | less => left < right
  | greater => right < left
  | lessOrEqual => left ≤ right
  | greaterOrEqual => right ≤ left

/-- The relation that holds after both sides have been multiplied by a negative number, or
exchanged. -/
def flipped : Relation → Relation
  | less => greater
  | greater => less
  | lessOrEqual => greaterOrEqual
  | greaterOrEqual => lessOrEqual
  | equal => equal
  | notEqual => notEqual

end Relation

end OneUnknown
