import OneUnknown.Text.ParseError
/-!
# Matching brackets

Before a text is read, its brackets are checked: round, square and curly ones have to be nested
properly and closed by their own kind.  This comes first, so a text with an unmatched bracket is
refused for that bracket whatever else is wrong with it.
-/

namespace OneUnknown

/-- The bracket that closes an opening one. -/
def closingBracket? : Char → Option Char
  | '(' => some ')'
  | '[' => some ']'
  | '\x7b' => some '\x7d'
  | _ => none

/-- Whether a character closes a bracket of some kind. -/
def isClosingBracket (c : Char) : Bool := c = ')' || c = ']' || c = '\x7d'

/-- Check the brackets of the text that begins at `place`.  `pending` holds the brackets that are
open there, the innermost first, with the character that closes each. -/
def checkBracketsFrom (place : Nat) (pending : List (Nat × Char)) :
    List Char → Except ParseError Unit
  | [] =>
    match pending.getLast? with
    | some (opened, _) => .error (.unmatchedBracket opened false)
    | none => .ok ()
  | c :: rest =>
    match closingBracket? c with
    | some closing => checkBracketsFrom (place + 1) ((place, closing) :: pending) rest
    | none =>
      if isClosingBracket c then
        match pending with
        | (_, expected) :: outer =>
          if c = expected then checkBracketsFrom (place + 1) outer rest
          else .error (.unmatchedBracket place true)
        | [] => .error (.unmatchedBracket place true)
      else checkBracketsFrom (place + 1) pending rest

/-- Check the brackets of a text.  The error is the first closing bracket that does not close the
innermost open one, and otherwise the leftmost opening bracket that is never closed. -/
def checkBrackets (text : List Char) : Except ParseError Unit := checkBracketsFrom 0 [] text

end OneUnknown
