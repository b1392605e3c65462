import OneUnknown.Expression.Symbol
import OneUnknown.Text.Alphabetic
/-!
# Classes of characters

Every character of an expression has one class.  Relations of two characters (`>=`) are replaced
by their one-character form before anything else, so a relation is one character, too.
-/

namespace OneUnknown

/-- What a character can stand for. -/
inductive CharClass where
  | digit (value : Nat)
  | point
  /-- `-`, which negates a term or subtracts it. -/
  | minus
  /-- `+`, `*` or `/`. -/
  | operator (op : Operator)
  /-- A bracket of any kind that opens. -/
  | opening
  /-- A bracket of any kind that closes. -/
  | closing
  | caret
  | relation (rel : Relation)
  /-- `!`, which is kept for factorials. -/
  | exclamation
  /-- The capital `E` of `3E14`. -/
  | scientific
  | blank
  /-- Any other character.  It names a variable if it is alphabetic. -/
  | letter (name : Char)
  deriving DecidableEq, Repr

/-- Characters that separate and are otherwise skipped: the Unicode property *White_Space*. -/
def isBlank (c : Char) : Bool :=
  c = ' ' || ('\t' ≤ c && c ≤ '\r') || c = '\u0085' || c = '\u00a0' || c = '\u1680' ||
    ('\u2000' ≤ c && c ≤ '\u200a') || c = '\u2028' || c = '\u2029' || c = '\u202f' ||
    c = '\u205f' || c = '\u3000'

/-- The class of a character.  The small `e` is an ordinary letter. -/
def CharClass.of (c : Char) : CharClass :=
  if '0' ≤ c && c ≤ '9' then .digit (c.toNat - '0'.toNat)
  else
    match c with
    | '.' => .point
    | '-' => .minus
    | '+' => .operator .add
    | '*' => .operator .multiply
    | '/' => .operator .divide
    | '(' | '[' | '\x7b' => .opening
    | ')' | ']' | '\x7d' => .closing
    | '^' => .caret
    | '=' => .relation .equal
    | '≠' => .relation .notEqual
    | '<' => .relation .less
    | '>' => .relation .greater
    | '≤' => .relation .lessOrEqual
    | '≥' => .relation .greaterOrEqual
    | '!' => .exclamation
    | 'E' => .scientific
    | c => if isBlank c then .blank else .letter c

/-! ## Relations of two characters -/

/-- Replace every `first` that `second` follows, from left to right, by one character. -/
def replacePair (first second replacement : Char) : List Char → List Char
  | c :: d :: rest =>
    if c = first ∧ d = second then replacement :: replacePair first second replacement rest
    else c :: replacePair first second replacement (d :: rest)
  | [c] => [c]
  | [] => []

/-- Write every relation as one character. -/
def oneCharRelations (text : List Char) : List Char :=
  replacePair '=' '=' '=' <| replacePair '!' '=' '≠' <|
    replacePair '<' '=' '≤' <| replacePair '>' '=' '≥' text

end OneUnknown
