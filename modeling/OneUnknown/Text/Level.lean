import OneUnknown.Expression.Node
import OneUnknown.Text.Character
import OneUnknown.Text.ParseError
/-!
# Reading one level of a text

The whole text, the inside of a bracket and an exponent are read in the same way, each as a
*level* of its own.  A level holds the nodes that are finished, the term that is being put
together, and the last thing that was read, which decides whether a minus sign negates or
subtracts.

* `Draft`: a term that is being put together, one character at a time;
* `ScientificDraft`: the exponent after the `E` of scientific notation;
* `Level`: the state of reading, and what each class of characters does to it;
* `Level.raise`: an exponent finds the term it belongs to.
-/

namespace OneUnknown

/-- A term that is being put together. -/
structure Draft where
  letter : Option Char
  number : Number
  power : List Node
  /-- Something other than a sign has been read. -/
  touched : Bool
  hasDigits : Bool
  /-- The digits read since the last decimal point, while digits belong to it. -/
  places : Option Nat
  deriving DecidableEq, Repr

namespace Draft

/-- Nothing read yet. -/
def blank : Draft := ⟨none, Number.zero, [], false, false, none⟩

/-- The sign read so far. -/
def negative (d : Draft) : Bool := d.number.negative

/-- The term with this sign. -/
def withSign (d : Draft) (negative : Bool) : Draft :=
  { d with number := d.number.withSign negative }

/-- One more digit, of the whole part or after the decimal point. -/
def addDigit (d : Draft) (digit : Nat) : Draft :=
  match d.places with
  | none => { d with number := d.number.addDigit digit, hasDigits := true, touched := true }
  | some places =>
    { d with
      number := d.number.addDecimal (places + 1) digit
      places := some (places + 1)
      hasDigits := true
      touched := true }

/-- A variable; its coefficient is one if there were no digits. -/
def setLetter (d : Draft) (name : Char) : Draft :=
  if d.hasDigits then { d with letter := some name, touched := true }
  else
    { d with
      letter := some name
      number := (Number.ofNat 1).withSign d.negative
      touched := true }

/-- The term, if anything but a sign has been read. -/
def group? (d : Draft) : Option Group :=
  if d.touched then some ⟨d.letter, d.number, d.power⟩ else none

end Draft

/-- The exponent of scientific notation that is being read.  `place` is that of the `E`. -/
structure ScientificDraft where
  mantissa : Group
  exponent : Nat
  negative : Bool
  hasDigits : Bool
  place : Nat
  deriving DecidableEq, Repr

namespace ScientificDraft

/-- Read a character into the exponent.  Gives nothing for a character that ends it.  Before the
first digit, `-` changes the sign, `+` means nothing, and no other operator is accepted. -/
def read? (s : ScientificDraft) (place : Nat) :
    CharClass → Except ParseError (Option ScientificDraft)
  | .digit value =>
    .ok (some { s with exponent := s.exponent * 10 + value, hasDigits := true })
  | .blank => .ok (some s)
  | .minus => .ok (if s.hasDigits then none else some { s with negative := !s.negative })
  | .operator op =>
    if s.hasDigits then .ok none
    else if op = .add then .ok (some s)
    else .error (.scientificOperator op.symbol place)
  | _ => .ok none

/-- The literal, as the parenthesis `(mantissa * 10 ^ exponent)`. -/
def node (s : ScientificDraft) : Node :=
  .paren
    [s.mantissa.toNode, .operator .multiply,
      .group none (Number.ofNat 10)
        [.group none ((Number.ofNat s.exponent).withSign s.negative) []]]
    [] false

end ScientificDraft

/-- The last thing that was read, blanks apart. -/
inductive LastRead where
  | nothing
  | operator
  | negation
  | relation
  | term
  | letter
  deriving DecidableEq, Repr

/-- Whether a minus sign now would subtract: something with a value stands before it. -/
def LastRead.endsTerm : LastRead → Bool
  | .term | .letter => true
  | .nothing | .operator | .negation | .relation => false

/-- The state of reading one level. -/
structure Level where
  /-- The finished nodes, the latest first. -/
  emitted : List Node
  draft : Draft
  last : LastRead
  scientific : Option ScientificDraft
  deriving DecidableEq, Repr

namespace Level

/-- Nothing read yet. -/
def blank : Level := ⟨[], Draft.blank, .nothing, none⟩

/-- Add a finished node. -/
def emit (l : Level) (node : Node) : Level := { l with emitted := node :: l.emitted }

/-- Finish the term that is being put together.  A sign alone is dropped. -/
def flush (l : Level) : Level :=
  { l with emitted := (l.draft.group?.map Group.toNode).toList ++ l.emitted, draft := Draft.blank }

/-- Finish scientific notation, if some is being read. -/
def finishScientific (l : Level) : Except ParseError Level :=
  match l.scientific with
  | none => .ok l
  | some s =>
    if s.hasDigits then
      .ok { l with emitted := s.node :: l.emitted, last := .term, scientific := none }
    else .error (.missingExponent s.place)

/-- The nodes of the level, once it has been read to its end. -/
def finish (l : Level) : Except ParseError (List Node) := do
  let l ← l.finishScientific
  return l.flush.emitted.reverse

/-- Digits that follow are digits of the whole part. -/
def leaveFraction (l : Level) : Level := { l with draft := { l.draft with places := none } }

/-- Read a digit.  After an exponent it begins a new term. -/
def readDigit (l : Level) (place value : Nat) : Except ParseError Level :=
  if l.last = .letter then .error (.ambiguousDigit place)
  else
    let l := if l.draft.power = [] then l else l.flush
    .ok { l with draft := l.draft.addDigit value, last := .term }

/-- Read a decimal point. -/
def readPoint (l : Level) (place : Nat) : Except ParseError Level :=
  if l.last = .letter then .error (.ambiguousDigit place)
  else .ok { l with draft := { l.draft with places := some 0, touched := true }, last := .term }

/-- Read a minus sign.  After a term it begins a negative one; otherwise it changes the sign of the
term to come. -/
def readMinus (l : Level) : Level :=
  if l.last.endsTerm then
    let l := l.flush
    { l with draft := l.draft.withSign true, last := .negation }
  else { l with draft := l.draft.withSign (!l.draft.negative), last := .negation }

/-- Read an operator. -/
def readOperator (l : Level) (op : Operator) : Level :=
  { l.flush.emit (.operator op) with last := .operator }

/-- Read a relation. -/
def readRelation (l : Level) (rel : Relation) : Level :=
  { l.flush.emit (.relation rel) with last := .relation }

/-- Read a variable.  A term that has a variable or an exponent already is multiplied by it. -/
def readLetter (l : Level) (place : Nat) (name : Char) : Except ParseError Level :=
  if isAlphabetic name then
    let l :=
      if l.draft.letter ≠ none ∨ l.draft.power ≠ [] then l.flush.emit (.operator .multiply) else l
    .ok { l with draft := l.draft.setLetter name, last := .letter }
  else .error (.invalidCharacter name place)

/-- Read the `E` of scientific notation: the term before it is the mantissa. -/
def readScientific (l : Level) (place : Nat) : Except ParseError Level :=
  match l.draft.group? with
  | some mantissa =>
    .ok { l with
      draft := Draft.blank
      last := .term
      scientific := some ⟨mantissa, 0, false, false, place⟩ }
  | none => .error (.missingMantissa place)

/-- Prepare for a parenthesis: a term before it is finished, and otherwise the sign read so far is
its own. -/
def beforeParen (l : Level) : Level × Bool :=
  if l.draft.touched then (l.flush, false)
  else ({ l with draft := l.draft.withSign false }, l.draft.negative)

/-- Add a parenthesis that has been read. -/
def addParen (l : Level) (body : List Node) (negative : Bool) : Level :=
  { l.emit (.paren body [] negative) with last := .term }

/-- Give an exponent to the term that is being put together, or else to the latest finished one.
A term takes one exponent only. -/
def raise (l : Level) (caret : Nat) (power : List Node) : Except ParseError Level :=
  if power = [] then .error (.danglingExponent caret)
  else if l.draft.touched then
    if l.draft.power = [] then .ok { l with draft := { l.draft with power }, last := .term }
    else .error (.danglingExponent caret)
  else if l.draft.negative || l.last ≠ .term then .error (.danglingExponent caret)
  else
    match l.emitted with
    | .group v n [] :: before => .ok { l with emitted := .group v n power :: before }
    | .paren body [] negative :: before =>
      .ok { l with emitted := .paren body power negative :: before }
    | _ => .error (.danglingExponent caret)

end Level

end OneUnknown
