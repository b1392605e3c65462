import OneUnknown.Text.Printer
/-!
# Values of an unknown

What can be recorded for an unknown: a number, a fraction, a root or a quotient of roots, a range,
nothing, or everything.  `Value.recorded` is the form in which a value is kept: its numbers are
rounded, so two values that agree in all significant digits are the same value.
-/

namespace OneUnknown

/-- The number rounded to the digits that a recorded value keeps. -/
def Number.rounded (n : Number) : Number := Number.ofRat (Rational.rounded n.value)

/-- The number as a result is shown. -/
def Number.resultText (n : Number) : List Char :=
  Rational.scientific n.value Rational.significantDigits

/-- One end of a range. -/
structure Bound where
  value : Number
  inclusive : Bool
  deriving DecidableEq, Repr

/-- The values between two ends; an end that is missing is infinite. -/
structure Range where
  lower : Option Bound
  upper : Option Bound
  deriving DecidableEq, Repr

/-- A value of an unknown. -/
inductive Value where
  | number (n : Number)
  | fraction (top bottom : List Node)
  /-- A root such as `2^(1 / 2)`. -/
  | root (node : Node)
  /-- A quotient of roots or numbers, such as `3 / 2^(1 / 2)`. -/
  | quotient (top bottom : Node)
  | noSolution
  | trueForAll (name : Char)
  | range (r : Range)
  deriving DecidableEq, Repr

/-! ## Ranges -/

namespace Range

/-- The values that stand in an ordering relation to a bound.  The other relations have no
range. -/
def ofRelation? (relation : Relation) (bound : Rat) : Option Range :=
  let endpoint (inclusive : Bool) : Option Bound := some ⟨Number.ofRat bound, inclusive⟩
  match relation with
  | .less => some ⟨none, endpoint false⟩
  | .lessOrEqual => some ⟨none, endpoint true⟩
  | .greater => some ⟨endpoint false, none⟩
  | .greaterOrEqual => some ⟨endpoint true, none⟩
  | .equal | .notEqual => none

/-- Whether a value is above the lower end. -/
def isAbove (lower : Option Bound) (value : Rat) : Bool :=
  match lower with
  | none => true
  | some bound => bound.value.value < value || (bound.inclusive && value = bound.value.value)

/-- Whether a value is below the upper end. -/
def isBelow (upper : Option Bound) (value : Rat) : Bool :=
  match upper with
  | none => true
  | some bound => value < bound.value.value || (bound.inclusive && value = bound.value.value)

/-- Whether a range has a value in it. -/
def contains (r : Range) (value : Rat) : Bool := isAbove r.lower value && isBelow r.upper value

/-- The range with rounded ends. -/
def rounded (r : Range) : Range :=
  ⟨r.lower.map fun b => { b with value := b.value.rounded },
    r.upper.map fun b => { b with value := b.value.rounded }⟩

/-- The range as an interval, such as `[2, ∞)`. -/
def intervalText (r : Range) : List Char :=
  let lower :=
    match r.lower with
    | some b => (if b.inclusive then '[' else '(') :: b.value.resultText
    | none => ['(', '-', '∞']
  let upper :=
    match r.upper with
    | some b => b.value.resultText ++ [if b.inclusive then ']' else ')']
    | none => ['∞', ')']
  lower ++ ',' :: ' ' :: upper

/-- The range as a condition on an unknown, such as `x ≥ 2`. -/
def conditionText (r : Range) (name : Char) : List Char :=
  let below (b : Bound) : Char := if b.inclusive then '≤' else '<'
  let above (b : Bound) : Char := if b.inclusive then '≥' else '>'
  match r.lower, r.upper with
  | some lower, some upper =>
    lower.value.resultText ++ [' ', below lower, ' ', name, ' ', below upper, ' ']
      ++ upper.value.resultText
  | some lower, none => [name, ' ', above lower, ' '] ++ lower.value.resultText
  | none, some upper => [name, ' ', below upper, ' '] ++ upper.value.resultText
  | none, none => name :: " is unbounded".toList

end Range

/-! ## Values -/

namespace Value

/-- The value as it is recorded: its numbers are rounded. -/
def recorded : Value → Value
  | .number n => .number n.rounded
  | .range r => .range r.rounded
  | value => value

/-- A number, rounded. -/
def ofRat (value : Rat) : Value := (Value.number (Number.ofRat value)).recorded

/-- The number, if the value is one. -/
def asNumber? : Value → Option Rat
  | .number n => some n.value
  | _ => none

/-- The nodes a root or a quotient of roots is written with. -/
def rootNodes : Value → List Node
  | .root node => [node]
  | .quotient top bottom => [top, .operator .divide, bottom]
  | _ => []

/-- The text of a value. -/
def text : Value → List Char
  | .number n => n.resultText
  | .fraction top bottom => (Node.fraction top bottom).text
  | .root node => node.text
  | .quotient top bottom => Sequence.text [top, .operator .divide, bottom]
  | .noSolution => "no solution".toList
  | .trueForAll name => "true for all ".toList ++ [name]
  | .range r => r.intervalText

end Value

end OneUnknown
