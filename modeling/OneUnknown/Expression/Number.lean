import OneUnknown.Rational.DecimalText
/-!
# Numbers with a separate sign

A number in an expression keeps its whole part, its fractional part and its sign apart.  Two
numbers are equal when all three agree, so a zero with a minus sign is not equal to a plain zero,
and the sign of a term never depends on its size.  Neither part is ever below zero
(`Number.magnitude_nonneg`).
-/

namespace OneUnknown

/-- An exact number.  `whole` and `part` are magnitudes and add up; `part` may reach one when
digits follow several decimal points. -/
structure Number where
  whole : Nat
  part : Rat
  negative : Bool
  part_nonneg : 0 ≤ part
  deriving DecidableEq, Repr

namespace Number

/-- A natural number. -/
def ofNat (n : Nat) : Number := ⟨n, 0, false, Rat.le_refl⟩

/-- Zero, without a minus sign. -/
def zero : Number := ofNat 0

/-- The parts of a value: `part` is below one, and zero has no minus sign. -/
def ofRat (value : Rat) : Number where
  whole := (Rational.magnitude value).floor.natAbs
  part := Rational.magnitude value - ((Rational.magnitude value).floor : Rat)
  negative := value < 0
  part_nonneg := (Rat.le_iff_sub_nonneg _ _).1 (Rat.floor_le _)

/-- The number without its sign. -/
def magnitude (n : Number) : Rat := (n.whole : Rat) + n.part

theorem magnitude_nonneg (n : Number) : 0 ≤ n.magnitude :=
  Rat.add_nonneg Rat.natCast_nonneg n.part_nonneg

/-- The number as a rational. -/
def value (n : Number) : Rat := if n.negative then -n.magnitude else n.magnitude

/-- A zero of either sign. -/
def isZero (n : Number) : Bool := n.whole = 0 ∧ n.part = 0

/-- The number one, written without a fractional part. -/
def isOne (n : Number) : Bool := n.negative = false ∧ n.whole = 1 ∧ n.part = 0

/-- The number with the other sign; zero has one, too. -/
def negated (n : Number) : Number := { n with negative := !n.negative }

/-- The number with this sign. -/
def withSign (n : Number) (negative : Bool) : Number := { n with negative }

/-- The number with one more digit at the end of its whole part. -/
def addDigit (n : Number) (digit : Nat) : Number := { n with whole := n.whole * 10 + digit }

/-- The number with a digit added at a decimal place, the first place being the tenths. -/
def addDecimal (n : Number) (place digit : Nat) : Number where
  whole := n.whole
  part := n.part + (digit : Rat) * ((10 : Rat) ^ place)⁻¹
  negative := n.negative
  part_nonneg := Rat.add_nonneg n.part_nonneg (Rat.mul_nonneg Rat.natCast_nonneg
    (Rat.le_of_lt (Rat.inv_pos.2 (Rat.pow_pos (by decide)))))

/-- The number as it is written in an expression. -/
def text (n : Number) : List Char := Rational.plain n.value

end Number

end OneUnknown
