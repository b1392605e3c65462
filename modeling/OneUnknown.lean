import OneUnknown.Rational.Power
import OneUnknown.Rational.Divisors
import OneUnknown.Rational.Rounding
import OneUnknown.Rational.DecimalText
import OneUnknown.Expression.Positions
import OneUnknown.Expression.Summands
import OneUnknown.Expression.Variables
import OneUnknown.Text.Reader
import OneUnknown.Text.Printer
import OneUnknown.Cleaning
import OneUnknown.Division
import OneUnknown.Product
import OneUnknown.Solution.Basic
import OneUnknown.Main
import OneUnknown.Proofs.Solver
import OneUnknown.Proofs.Linear
import OneUnknown.Proofs.Grammar
import OneUnknown.Proofs.Unknowns
import OneUnknown.Proofs.RoundTrip
import OneUnknown.Proofs.Stability
import OneUnknown.Proofs.Joining
import OneUnknown.Proofs.Defects
import OneUnknown.Proofs.Limits
import OneUnknown.Proofs.ErrorPlaces
import OneUnknown.Proofs.Nesting
import OneUnknown.Proofs.Powers
import OneUnknown.Proofs.Isolation
import OneUnknown.Proofs.Negation
import OneUnknown.Proofs.Listing
import OneUnknown.Proofs.Conversion
import OneUnknown.Proofs.ExactDivision
import OneUnknown.Proofs.Folding
import OneUnknown.Proofs.NormalForm
import OneUnknown.Proofs.Subtraction
import OneUnknown.Proofs.NumberLiterals
import OneUnknown.Proofs.MinusRuns
import OneUnknown.Proofs.Spacing
import OneUnknown.Proofs.ShownNumbers
import OneUnknown.Proofs.Recording
import OneUnknown.Proofs.Clearing
import OneUnknown.Proofs.BracketErrors
import OneUnknown.Proofs.Positions
