/-!
# Reasons to refuse a text

Each reason names the place of the character it is about, counted in characters of the text in
which every relation is one character.
-/

namespace OneUnknown

/-- Why a text is not an expression. -/
inductive ParseError where
  /-- A bracket that closes no open one of its kind, or that is never closed. -/
  | unmatchedBracket (place : Nat) (closing : Bool)
  /-- A digit or decimal point directly after a variable. -/
  | ambiguousDigit (place : Nat)
  /-- An operator where the exponent of scientific notation should begin. -/
  | scientificOperator (found : Char) (place : Nat)
  /-- Scientific notation without digits after its `E`. -/
  | missingExponent (place : Nat)
  /-- Scientific notation without a term before its `E`. -/
  | missingMantissa (place : Nat)
  /-- A relation inside a bracket or an exponent, or where relations are not accepted at all. -/
  | relationNotAllowed (place : Nat)
  /-- A caret without an exponent, or without a term to raise. -/
  | danglingExponent (place : Nat)
  /-- A bracket with nothing in it. -/
  | emptyBracket (place : Nat)
  /-- A character that is kept for later use. -/
  | reserved (character : Char) (place : Nat)
  /-- A character that names no variable. -/
  | invalidCharacter (character : Char) (place : Nat)
  deriving DecidableEq, Repr

namespace ParseError

/-- The place of the character the error is about. -/
def place : ParseError → Nat
  | unmatchedBracket place _ | ambiguousDigit place | scientificOperator _ place
  | missingExponent place | missingMantissa place | relationNotAllowed place
  | danglingExponent place | emptyBracket place | reserved _ place
  | invalidCharacter _ place => place

/-- The text of a parse error. -/
def message : ParseError → String
  | unmatchedBracket place _ => "unmatched parenthesis at index " ++ toString place
  | ambiguousDigit place => "a digit directly follows a variable at index " ++ toString place
  | scientificOperator found place =>
    "\"" ++ found.toString ++ "\" can't follow scientific notation (index " ++ toString place ++ ")"
  | missingExponent place =>
    "scientific notation at index " ++ toString place ++ " has no exponent"
  | missingMantissa place =>
    "scientific notation at index " ++ toString place ++ " has nothing to scale"
  | relationNotAllowed place =>
    "relational operators aren't allowed here (index " ++ toString place ++ ")"
  | danglingExponent place =>
    "the exponent at index " ++ toString place ++ " has nothing to apply to"
  | emptyBracket place => "empty parentheses at index " ++ toString place
  | reserved character place =>
    "\"" ++ character.toString ++ "\" is reserved (index " ++ toString place ++ ")"
  | invalidCharacter character place =>
    "invalid character \"" ++ character.toString ++ "\" at index " ++ toString place

end ParseError

end OneUnknown
