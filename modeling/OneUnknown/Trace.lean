import OneUnknown.SolveError
/-!
# Recording the stages of a solution

`Traced α` is a computation that records the sequences it passes through.  What it records never
influences its outcome: `outcome_bind` says that the outcome of a sequence of steps is determined
by the outcomes of the steps.
-/

namespace OneUnknown

/-- The steps of rewriting an equation, after each of which the sequence is recorded. -/
inductive StageName where
  | cleaning
  | fractions
  | commonFactor
  | multiplication
  | likeTerms
  | crossing
  | parentheses
  deriving DecidableEq, Repr

/-- The name under which a stage is shown. -/
def StageName.text : StageName → String
  | cleaning => "clean"
  | fractions => "fractions"
  | commonFactor => "common factor"
  | multiplication => "multiplication"
  | likeTerms => "like terms"
  | crossing => "cross sides"
  | parentheses => "parentheses"

/-- A sequence as it was after a stage. -/
structure Stage where
  name : StageName
  nodes : List Node
  deriving DecidableEq, Repr

/-- Why a computation has no result. -/
inductive Halt where
  /-- The problem is not solved. -/
  | failed (reason : SolveError)
  /-- Problems within problems are nested deeper than was allowed for. -/
  | tooDeep
  /-- The search for divisors needs a square that does not fit into a machine word. -/
  | overflow
  deriving DecidableEq, Repr

/-- A search in machine words, as a step of solving a problem. -/
def searched : Option α → Except Halt α
  | some found => .ok found
  | none => .error .overflow

/-- The result of a computation with the stages that were recorded on the way. -/
structure Traced (α : Type) where
  stages : List Stage
  outcome : Except Halt α

namespace Traced

/-- A result without stages. -/
protected def pure (value : α) : Traced α := ⟨[], .ok value⟩

/-- One computation after the other.  A failure ends them. -/
protected def bind (first : Traced α) (next : α → Traced β) : Traced β :=
  match first.outcome with
  | .ok value => ⟨first.stages ++ (next value).stages, (next value).outcome⟩
  | .error halt => ⟨first.stages, .error halt⟩

instance : Monad Traced where
  pure := Traced.pure
  bind := Traced.bind

/-- Record a stage. -/
def stage (name : StageName) (nodes : List Node) : Traced Unit := ⟨[⟨name, nodes⟩], .ok ()⟩

/-- A computation that records nothing. -/
def ofExcept : Except SolveError α → Traced α
  | .ok value => ⟨[], .ok value⟩
  | .error reason => ⟨[], .error (.failed reason)⟩

/-- A computation that records nothing and may overflow. -/
def ofHalting (result : Except Halt α) : Traced α := ⟨[], result⟩

/-- A failure. -/
def fail (reason : SolveError) : Traced α := ⟨[], .error (.failed reason)⟩

/-- A problem that is nested too deep. -/
def tooDeep : Traced α := ⟨[], .error .tooDeep⟩

@[simp] theorem outcome_pure (value : α) : (pure value : Traced α).outcome = .ok value := rfl

@[simp] theorem outcome_bind (first : Traced α) (next : α → Traced β) :
    (first >>= next).outcome = first.outcome.bind fun value => (next value).outcome := by
  cases first with
  | mk stages outcome => cases outcome <;> rfl

@[simp] theorem outcome_stage (name : StageName) (nodes : List Node) :
    (stage name nodes).outcome = .ok () := rfl

end Traced

end OneUnknown
