import OneUnknown.Equation.Sides
import OneUnknown.Rational.Power
import Mathlib.Algebra.Order.Field.Rat
import Mathlib.Algebra.Order.Field.Basic
import Mathlib.Tactic.Ring
/-!
# The meaning of expressions

What an expression is worth once its variables have values, by ordinary exact arithmetic.  This is
the reading that the passes of the solver are measured against: it goes over a sequence once, from
left to right, products and quotients before sums and differences, and no exponent is too large
for it.

* `Rational.exactPower?`: powers without a limit on the exponent;
* `Node.valueAt` and `Sequence.valueAt`: the value of a term and of a sequence;
* `Sides.HoldsAt`: whether an equation or inequality with one relation holds;
* `Relation.holds_iff_of_scaled`: a relation depends on the sign of the difference only;
* `Sides.Scaled`: an equation whose difference has been multiplied by a positive number.
-/

namespace OneUnknown

/-- `base ^ exponent`, where that is a rational.  Zero has no negative powers, and of two even
roots the one is meant that is not negative. -/
def Rational.exactPower? (base exponent : Rat) : Option Rat :=
  if exponent.den = 1 then
    if base = 0 ∧ exponent < 0 then none else some (base ^ exponent.num)
  else
    match Rational.exactRoot base exponent.den with
    | some root => if root = 0 ∧ exponent < 0 then none else some (root ^ exponent.num)
    | none => none

/-- The value of a number with an exponent: the sign stays outside of the power. -/
def Number.powerValue? (n : Number) (exponent : Rat) : Option Rat :=
  (Rational.exactPower? (Rational.magnitude n.value) exponent).map fun power =>
    if n.value < 0 then -power else power

/-- The value of a fraction. -/
def Rational.quotient? (top bottom : Rat) : Option Rat :=
  if bottom = 0 then none else some (top / bottom)

mutual
/-- The value of a term when `point` gives the values of the variables. -/
def Node.valueAt (point : Char → Rat) : Node → Option Rat
  | .group letter n p =>
    (if p.isEmpty then some 1 else Sequence.valueAt point p).bind fun exponent =>
      match letter with
      | some name => (Rational.exactPower? (point name) exponent).map fun power => n.value * power
      | none => n.powerValue? exponent
  | .paren b p negative =>
    (Sequence.valueAt point b).bind fun content =>
      (if p.isEmpty then some 1 else Sequence.valueAt point p).bind fun exponent =>
        (Rational.exactPower? content exponent).map fun power =>
          if negative then -power else power
  | .fraction t b =>
    (Sequence.valueAt point t).bind fun top =>
      (Sequence.valueAt point b).bind fun bottom => Rational.quotient? top bottom
  | .operator _ | .relation _ => none

/-- The value of the rest of a sequence after a term: `total` is the sum of the summands before,
and `product` is what the present summand is worth so far. -/
def Sequence.valueAfter (point : Char → Rat) (total product : Rat) : List Node → Option Rat
  | [] => some (total + product)
  | .operator op :: node :: rest =>
    (node.valueAt point).bind fun value =>
      match op with
      | .add => Sequence.valueAfter point (total + product) value rest
      | .subtract => Sequence.valueAfter point (total + product) (-value) rest
      | .multiply => Sequence.valueAfter point total (product * value) rest
      | .divide =>
        (Rational.quotient? product value).bind fun quotient =>
          Sequence.valueAfter point total quotient rest
  | _ => none

/-- The value of a sequence.  Terms and operators have to alternate. -/
def Sequence.valueAt (point : Char → Rat) : List Node → Option Rat
  | [] => none
  | node :: rest =>
    (node.valueAt point).bind fun value => Sequence.valueAfter point 0 value rest
end

/-- The point at which every variable has the same value. -/
def everywhere (value : Rat) : Char → Rat := fun _ => value

/-- Whether both sides of an equation or inequality have a value at a point. -/
def Sides.DefinedAt (s : Sides) (point : Char → Rat) : Prop :=
  ∃ left right, Sequence.valueAt point s.left = some left ∧
    Sequence.valueAt point s.right = some right

/-- Whether both sides have a value and stand in the relation. -/
def Sides.HoldsAt (s : Sides) (point : Char → Rat) : Prop :=
  ∃ left right, Sequence.valueAt point s.left = some left ∧
    Sequence.valueAt point s.right = some right ∧ s.relation.holds left right

/-! ## Nested sequences -/

/-- To prove something of all nodes, it may be assumed of the nodes that stand in a power, a
parenthesis or a fraction. -/
theorem Node.nested_induction {motive : Node → Prop}
    (group : ∀ letter n p, (∀ node ∈ p, motive node) → motive (.group letter n p))
    (paren : ∀ b p negative, (∀ node ∈ b, motive node) → (∀ node ∈ p, motive node) →
      motive (.paren b p negative))
    (fraction : ∀ t b, (∀ node ∈ t, motive node) → (∀ node ∈ b, motive node) →
      motive (.fraction t b))
    (operator : ∀ op, motive (.operator op)) (relation : ∀ r, motive (.relation r))
    (node : Node) : motive node :=
  node.rec (motive_1 := motive) (motive_2 := fun nodes => ∀ node ∈ nodes, motive node)
    (fun letter n p hp => group letter n p hp) (fun op => operator op)
    (fun b p negative hb hp => paren b p negative hb hp)
    (fun t b ht hb => fraction t b ht hb) (fun r => relation r) (by simp) (by simp +contextual)

/-! ## Numbers -/

theorem Rational.magnitude_eq_abs (value : Rat) : Rational.magnitude value = |value| := by
  rw [Rational.magnitude]
  split
  · rename_i h
    exact (abs_of_neg h).symm
  · rename_i h
    exact (abs_of_nonneg (not_lt.1 h)).symm

theorem Rational.exactPower?_natCast (base : Rat) (exponent : Nat) :
    Rational.exactPower? base (exponent : Rat) = some (base ^ exponent) := by
  have hneg : ¬ (exponent : Rat) < 0 := not_lt.2 Rat.natCast_nonneg
  simp [Rational.exactPower?, hneg]

@[simp] theorem Rational.exactPower?_one (base : Rat) :
    Rational.exactPower? base 1 = some base := by
  simpa using Rational.exactPower?_natCast base 1

theorem Number.magnitude_ofRat (value : Rat) :
    (Number.ofRat value).magnitude = Rational.magnitude value := by
  have hfloor : 0 ≤ (Rational.magnitude value).floor := by
    rw [Rat.le_floor_iff, Rational.magnitude_eq_abs]
    exact abs_nonneg value
  have hwhole : (((Rational.magnitude value).floor.natAbs : Nat) : Rat) =
      ((Rational.magnitude value).floor : Rat) := by
    rw [← Int.cast_natCast, Int.natAbs_of_nonneg hfloor]
  rw [Number.magnitude, Number.ofRat, hwhole, add_sub_cancel]

@[simp] theorem Number.value_ofRat (value : Rat) : (Number.ofRat value).value = value := by
  rw [Number.value, Number.magnitude_ofRat, Rational.magnitude]
  by_cases h : value < 0 <;> simp [Number.ofRat, h]

@[simp] theorem Number.value_negated (n : Number) : n.negated.value = -n.value := by
  rw [Number.value, Number.value, Number.negated]
  cases n.negative <;> simp [Number.magnitude]

/-- A number is written as zero, with either sign, exactly when its value is zero. -/
theorem Number.isZero_iff {n : Number} : n.isZero = true ↔ n.value = 0 := by
  have hwhole : (0 : Rat) ≤ n.whole := Rat.natCast_nonneg
  have hmagnitude : n.magnitude = 0 ↔ n.whole = 0 ∧ n.part = 0 := by
    rw [Number.magnitude, add_eq_zero_iff_of_nonneg hwhole n.part_nonneg, Nat.cast_eq_zero]
  rw [Number.isZero, decide_eq_true_eq, ← hmagnitude, Number.value]
  split <;> simp

@[simp] theorem Number.powerValue?_one (n : Number) : n.powerValue? 1 = some n.value := by
  rw [Number.powerValue?, Rational.exactPower?_one, Rational.magnitude]
  by_cases h : n.value < 0 <;> simp [h]

/-! ## Plain numbers -/

@[simp] theorem Node.valueAt_constant (point : Char → Rat) (value : Rat) :
    (Node.constant value).valueAt point = some value := by
  simp [Node.constant, Group.constant, Group.toNode, Node.valueAt]

@[simp] theorem Sequence.valueAt_singleton (point : Char → Rat) (node : Node) :
    Sequence.valueAt point [node] = node.valueAt point := by
  cases h : node.valueAt point <;> simp [Sequence.valueAt, Sequence.valueAfter, h]

/-! ## Relations -/

/-- A relation only depends on the sign of the difference of the two sides. -/
theorem Relation.holds_iff_of_scaled (relation : Relation) (left right left' right' scale : Rat)
    (hscale : 0 < scale) (h : left' - right' = scale * (left - right)) :
    relation.holds left' right' = relation.holds left right := by
  have hzero : left' - right' = 0 ↔ left - right = 0 := by
    rw [h, mul_eq_zero]
    exact ⟨fun hz => hz.resolve_left hscale.ne', Or.inr⟩
  have hneg : left' - right' < 0 ↔ left - right < 0 := by
    rw [h, mul_neg_iff]
    exact ⟨fun hn => hn.elim And.right fun hn => absurd hscale hn.1.not_gt, fun hn => .inl ⟨hscale, hn⟩⟩
  have hequal : left' = right' ↔ left = right := by
    rw [← sub_eq_zero, hzero, sub_eq_zero]
  have hless : left' < right' ↔ left < right := by
    rw [← sub_neg, hneg, sub_neg]
  cases relation <;>
    simp only [Relation.holds, ne_eq, hequal, hless, ← not_lt, decide_eq_decide]
  all_goals rw [← not_le, ← not_le, not_iff_not, le_iff_lt_or_eq, le_iff_lt_or_eq, hless, hequal]

/-! ## Equations that say the same -/

/-- What a pass may do to an equation: wherever both sides have a value they still do, and their
difference has been multiplied by `scale`. -/
structure Sides.Scaled (scale : Rat) (s t : Sides) : Prop where
  pos : 0 < scale
  relation : t.relation = s.relation
  values : ∀ point left right, Sequence.valueAt point s.left = some left →
    Sequence.valueAt point s.right = some right →
      ∃ left' right', Sequence.valueAt point t.left = some left' ∧
        Sequence.valueAt point t.right = some right' ∧ left' - right' = scale * (left - right)

namespace Sides.Scaled

variable {scale scale' : Rat} {s t u : Sides} {point : Char → Rat}

protected theorem refl (s : Sides) : Scaled 1 s s where
  pos := one_pos
  relation := rfl
  values := fun _ left right hleft hright => ⟨left, right, hleft, hright, (one_mul _).symm⟩

protected theorem trans (h : Scaled scale s t) (h' : Scaled scale' t u) :
    Scaled (scale' * scale) s u where
  pos := mul_pos h'.pos h.pos
  relation := h'.relation.trans h.relation
  values := by
    intro point left right hleft hright
    obtain ⟨left₁, right₁, hleft₁, hright₁, heq₁⟩ := h.values point left right hleft hright
    obtain ⟨left₂, right₂, hleft₂, hright₂, heq₂⟩ := h'.values point left₁ right₁ hleft₁ hright₁
    exact ⟨left₂, right₂, hleft₂, hright₂, by rw [heq₂, heq₁, mul_assoc]⟩

theorem definedAt (h : Scaled scale s t) (hs : s.DefinedAt point) : t.DefinedAt point := by
  obtain ⟨left, right, hleft, hright⟩ := hs
  obtain ⟨left', right', hleft', hright', -⟩ := h.values point left right hleft hright
  exact ⟨left', right', hleft', hright'⟩

/-- Where both sides have a value, both equations hold or none does. -/
theorem holdsAt_iff (h : Scaled scale s t) (hs : s.DefinedAt point) :
    t.HoldsAt point ↔ s.HoldsAt point := by
  obtain ⟨left, right, hleft, hright⟩ := hs
  obtain ⟨left', right', hleft', hright', heq⟩ := h.values point left right hleft hright
  simp [Sides.HoldsAt, hleft, hright, hleft', hright', h.relation,
    Relation.holds_iff_of_scaled s.relation left right left' right' scale h.pos heq]

end Sides.Scaled

end OneUnknown
