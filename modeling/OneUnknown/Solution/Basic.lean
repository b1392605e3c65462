import OneUnknown.Solution.Value
/-!
# Solutions

The outcome of solving a problem: whether a comparison holds, the value of an expression, or what
was found for the unknowns of an equation.

* `Binding`: one value of an unknown, or an ordered set of several;
* `Solution.record`: one more value for an unknown;
* `Solution.text`: the text of a solution.
-/

namespace OneUnknown

/-- What was recorded for one unknown. -/
inductive Binding where
  | single (value : Value)
  /-- Several different values, in the order in which they were recorded. -/
  | set (values : List Value)
  deriving DecidableEq, Repr

namespace Binding

/-- The recorded values. -/
def values : Binding → List Value
  | single value => [value]
  | set values => values

/-- A binding of the given values. -/
def ofValues : List Value → Binding
  | [value] => single value
  | values => set values

/-- The binding with one more value, unless it is there already. -/
def insert (binding : Binding) (value : Value) : Binding :=
  if value ∈ binding.values then ofValues binding.values else ofValues (binding.values ++ [value])

/-- The text of a binding of the given unknown. -/
def text (name : Char) : Binding → List Char
  | single (.range r) => r.conditionText name
  | single value => [name, ' ', '=', ' '] ++ value.text
  | set values =>
    [name, ' ', '=', ' ', '\x7b'] ++ [',', ' '].intercalate (values.map Value.text) ++ ['\x7d']

end Binding

/-- The outcome of solving a problem. -/
inductive Solution where
  /-- Whether a comparison holds. -/
  | truth (holds : Bool)
  /-- The value of an expression, rounded. -/
  | number (n : Number)
  /-- What was found for each unknown, in the order of their code points. -/
  | unknowns (bindings : List (Char × Binding))
  deriving DecidableEq, Repr

namespace Solution

/-- Nothing found yet. -/
def empty : Solution := unknowns []

/-- The value of an expression. -/
def ofRat (value : Rat) : Solution := number (Number.ofRat (Rational.rounded value))

/-- The value, if the problem was an expression. -/
def value? : Solution → Option Rat
  | number n => some n.value
  | _ => none

/-- Whether the comparison holds, if the problem was one. -/
def truth? : Solution → Option Bool
  | truth holds => some holds
  | _ => none

/-- What was found for the unknowns. -/
def bindings : Solution → List (Char × Binding)
  | unknowns bindings => bindings
  | _ => []

/-- What was found for one unknown. -/
def get? (s : Solution) (name : Char) : Option Binding :=
  (s.bindings.find? fun (other, _) => other = name).map Prod.snd

/-- Record a value in bindings that ascend by the unknown. -/
def recordIn (name : Char) (value : Value) : List (Char × Binding) → List (Char × Binding)
  | [] => [(name, .single value)]
  | (other, binding) :: rest =>
    if name = other then (other, binding.insert value) :: rest
    else if name < other then (name, .single value) :: (other, binding) :: rest
    else (other, binding) :: recordIn name value rest

/-- Record a value for an unknown.  A solution that is no collection of unknowns is dropped. -/
def record (s : Solution) (name : Char) (value : Value) : Solution :=
  unknowns (recordIn name value.recorded s.bindings)

/-- The solution in which one unknown has one value. -/
def only (name : Char) (value : Value) : Solution := empty.record name value

/-- The solution in which one unknown has the given values. -/
def ofValues (name : Char) (values : List Value) : Solution :=
  values.foldl (fun s value => s.record name value) empty

/-- The text of a solution. -/
def text : Solution → List Char
  | truth true => "true".toList
  | truth false => "false".toList
  | number n => n.resultText
  | unknowns bindings =>
    [',', ' '].intercalate (bindings.map fun (name, binding) => binding.text name)

end Solution

end OneUnknown
