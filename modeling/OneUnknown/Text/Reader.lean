import OneUnknown.Text.Brackets
import OneUnknown.Text.Level
/-!
# Reading a text

A text is read character by character, from left to right, by a machine with a stack: the level
that is being read, and the levels around it that wait for a bracket or an exponent to end.

* `Opening` is what a level was opened for; `Frame` adds the level around it.
* An exponent ends where nothing more can belong to it (`Progress.extend?`).  Ending one ends all
  exponents that it is part of (`closeExponents`), because `2^3^4` is `2^(3^4)`.
* `Reader.step` reads one character, `readFrom` a whole text, and `parseWith` checks the brackets
  first.
-/

namespace OneUnknown

/-- How much of an exponent without brackets has been read. -/
inductive Progress where
  /-- Nothing but blanks. -/
  | nothing
  /-- A sign or a caret, so a number, a variable or a bracket has to follow. -/
  | incomplete
  /-- Something that has a value. -/
  | complete
  deriving DecidableEq, Repr

/-- The progress after one more character, if that character belongs to the exponent.  Signs,
blanks and brackets belong to it only as long as it has no value. -/
def Progress.extend? : Progress → CharClass → Option Progress
  | _, .digit _ | _, .point | _, .letter _ | _, .scientific => some .complete
  | _, .caret => some .incomplete
  | .complete, _ => none
  | progress, .blank => some progress
  | _, .minus | _, .opening => some .incomplete
  | _, _ => none

/-- What a level was opened for. -/
inductive Opening where
  /-- The bracket at `place`, with the sign of the parenthesis. -/
  | bracket (place : Nat) (negative : Bool)
  /-- An exponent that is a bracket, after the caret at `caret`. -/
  | bracketExponent (caret : Nat)
  /-- An exponent without brackets around it. -/
  | exponent (caret : Nat) (progress : Progress)
  deriving DecidableEq, Repr

/-- A level that waits for an inner one. -/
structure Frame where
  opening : Opening
  outer : Level
  deriving DecidableEq, Repr

/-- The state of reading: the current level, and those around it from the innermost on. -/
structure Reader where
  level : Level
  frames : List Frame
  deriving DecidableEq, Repr

namespace Reader

/-- Nothing read yet. -/
def start : Reader := ⟨Level.blank, []⟩

/-- End all exponents without brackets that are being read, from the innermost on. -/
def closeExponents (level : Level) : List Frame → Except ParseError Reader
  | ⟨.exponent caret _, outer⟩ :: frames => do
    let power ← level.finish
    let raised ← outer.raise caret power
    closeExponents raised frames
  | frames => .ok ⟨level, frames⟩

/-- Let the exponent that is being read count as complete: a bracket in it has ended. -/
def completeExponent : List Frame → List Frame
  | ⟨.exponent caret _, outer⟩ :: frames => ⟨.exponent caret .complete, outer⟩ :: frames
  | frames => frames

/-- End the bracket that is being read. -/
def closeBracket (place : Nat) (level : Level) : List Frame → Except ParseError Reader
  | ⟨.bracket opened negative, outer⟩ :: frames => do
    let body ← level.finish
    if body = [] then .error (.emptyBracket opened)
    else return ⟨outer.addParen body negative, completeExponent frames⟩
  | ⟨.bracketExponent caret, outer⟩ :: frames => do
    let power ← level.finish
    let raised ← outer.raise caret power
    return ⟨raised, completeExponent frames⟩
  | _ => .error (.unmatchedBracket place true)

/-- Read a character at a level where no scientific notation is being read. -/
def readPlain (relations : Bool) (place : Nat) (level : Level) (frames : List Frame) :
    CharClass → Except ParseError Reader
  | .digit value => do return ⟨← level.readDigit place value, frames⟩
  | .point => do return ⟨← level.readPoint place, frames⟩
  | .blank => .ok ⟨level.leaveFraction, frames⟩
  | .minus => .ok ⟨level.leaveFraction.readMinus, frames⟩
  | .operator op => .ok ⟨level.readOperator op, frames⟩
  | .relation rel =>
    if relations && frames.isEmpty then .ok ⟨level.readRelation rel, frames⟩
    else .error (.relationNotAllowed place)
  | .opening =>
    let (outer, negative) := level.leaveFraction.beforeParen
    .ok ⟨Level.blank, ⟨.bracket place negative, outer⟩ :: frames⟩
  | .closing => closeBracket place level frames
  | .caret => .ok ⟨Level.blank, ⟨.exponent place .nothing, level.leaveFraction⟩ :: frames⟩
  | .letter name => do return ⟨← level.leaveFraction.readLetter place name, frames⟩
  | .scientific => do return ⟨← level.readScientific place, frames⟩
  | .exclamation => .error (.reserved '!' place)

/-- Read a character at the current level: into the exponent of scientific notation, if that is
being read and the character belongs to it. -/
def readAtLevel (relations : Bool) (place : Nat) (level : Level) (frames : List Frame)
    (cls : CharClass) : Except ParseError Reader :=
  match level.scientific with
  | none => readPlain relations place level frames cls
  | some s => do
    match ← s.read? place cls with
    | some s => return ⟨{ level with scientific := some s }, frames⟩
    | none =>
      let level ← level.finishScientific
      readPlain relations place level frames cls

/-- Read one character.  An exponent that cannot go on with it ends before it. -/
def step (relations : Bool) (place : Nat) (r : Reader) (cls : CharClass) :
    Except ParseError Reader :=
  match r.frames with
  | ⟨.exponent caret progress, outer⟩ :: frames =>
    if progress = .nothing ∧ cls = .opening then
      .ok ⟨r.level, ⟨.bracketExponent caret, outer⟩ :: frames⟩
    else
      match progress.extend? cls with
      | some progress =>
        readAtLevel relations place r.level (⟨.exponent caret progress, outer⟩ :: frames) cls
      | none => do
        let r ← closeExponents r.level r.frames
        readAtLevel relations place r.level r.frames cls
  | frames => readAtLevel relations place r.level frames cls

/-- Read the text that begins at `place`. -/
def readFrom (relations : Bool) (place : Nat) (r : Reader) : List Char → Except ParseError Reader
  | [] => .ok r
  | c :: rest => do
    let r ← r.step relations place (CharClass.of c)
    readFrom relations (place + 1) r rest

/-- The nodes of the text, once it has been read to its end.  Brackets that are still open were
refused before. -/
def finish (r : Reader) : Except ParseError (List Node) := do
  let r ← closeExponents r.level r.frames
  match r.frames with
  | [] => r.level.finish
  | ⟨.bracket opened _, _⟩ :: _ => .error (.unmatchedBracket opened false)
  | ⟨.bracketExponent caret, _⟩ :: _ | ⟨.exponent caret _, _⟩ :: _ =>
    .error (.unmatchedBracket caret false)

end Reader

/-- Read an expression or an equation; without `relations`, an expression only. -/
def parseWith (relations : Bool) (text : List Char) : Except ParseError (List Node) := do
  let text := oneCharRelations text
  checkBrackets text
  let r ← Reader.start.readFrom relations 0 text
  r.finish

/-- Read an expression or an equation. -/
def parse (text : List Char) : Except ParseError (List Node) := parseWith true text

end OneUnknown
