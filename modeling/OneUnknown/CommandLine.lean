import OneUnknown.Solver
/-!
# The command line

Each line of the input is a problem.  Its solution is one line of output, after the stages on the
way if they are asked for; a line that cannot be read or solved is reported as an error.  Blank
lines are skipped.
-/

namespace OneUnknown

/-- What is written for some input. -/
structure Report where
  output : String
  errors : String
  deriving DecidableEq, Repr

namespace Report

/-- Nothing written. -/
def empty : Report := ⟨"", ""⟩

/-- One report after the other. -/
def append (first second : Report) : Report :=
  ⟨first.output ++ second.output, first.errors ++ second.errors⟩

end Report

/-- The lines of a text.  A line ends at a line feed, and a carriage return before it belongs to
its end; what follows the last line feed is a line, too, unless it is empty. -/
def linesFrom (current : List Char) : List Char → List (List Char)
  | [] => if current.isEmpty then [] else [current.reverse]
  | '\n' :: rest =>
    let line :=
      match current with
      | '\r' :: before => before.reverse
      | line => line.reverse
    line :: linesFrom [] rest
  | c :: rest => linesFrom (c :: current) rest

/-- The width of the names of the stages, the longest of which fills it. -/
def stageNameWidth : Nat := 14

/-- A stage, as a line of output, with its name aligned to the right. -/
def Stage.line (s : Stage) : String :=
  let name := s.name.text
  "  " ++ String.ofList (List.replicate (stageNameWidth - name.length) ' ') ++ name ++ ": "
    ++ String.ofList (Sequence.text s.nodes) ++ "\n"

/-- What is written for one line. -/
def answerLine (steps : Bool) (line : List Char) : Report :=
  if line.all isBlank then Report.empty
  else
    match parse line with
    | .error reason =>
      ⟨"", "Unable to parse \"" ++ String.ofList line ++ "\": " ++ reason.message ++ "\n"⟩
    | .ok nodes =>
      let (stages, outcome) := solveTraced Options.standard nodes
      let trace := if steps then String.join (stages.map Stage.line) else ""
      let problem := String.ofList (Sequence.text nodes)
      match outcome with
      | .ok solution => ⟨trace ++ problem ++ " => " ++ String.ofList solution.text ++ "\n", ""⟩
      | .error reason =>
        ⟨trace, "Unable to solve \"" ++ problem ++ "\": " ++ reason.message ++ "\n"⟩

/-- What is written for a whole input. -/
def answerInput (steps : Bool) (input : List Char) : Report :=
  ((linesFrom [] input).map (answerLine steps)).foldl Report.append Report.empty

end OneUnknown
