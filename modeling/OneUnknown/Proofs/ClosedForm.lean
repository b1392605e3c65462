import OneUnknown.Equation.ClosedForm
import OneUnknown.Proofs.Answers
import OneUnknown.Proofs.Evaluation
import OneUnknown.Proofs.Expansion
import OneUnknown.Proofs.Roots
import Mathlib.Algebra.Order.Ring.Abs
import Mathlib.Tactic.LinearCombination
/-!
# Equations with a closed form

* `Range.contains_ofRelation?`: the range of an ordering relation;
* `exactQuotient_eq`: a quotient as a fraction or a number;
* `answers_rootsOf`: all rational roots are found;
* `answers_isolate`: the values that stand in a relation to a number;
* `Sides.AmountsTo`, `Sides.IsolatedAs`: what is recorded when the unknown is isolated;
* `Sides.isolatedAs_closedForm`: what is recorded for an equation in closed form.
-/

namespace OneUnknown

/-! ## Relations -/

@[simp] theorem Relation.holds_flipped (relation : Relation) (left right : Rat) :
    relation.flipped.holds left right = relation.holds right left := by
  cases relation <;> simp [Relation.flipped, Relation.holds, eq_comm]

/-- A range has exactly the values in it that stand in the relation to its end. -/
theorem Range.contains_ofRelation? {relation : Relation} {bound : Rat} {range : Range}
    (h : Range.ofRelation? relation bound = some range) (value : Rat) :
    range.contains value = relation.holds value bound := by
  cases relation <;> simp only [Range.ofRelation?, Option.some.injEq, reduceCtorEq] at h <;>
    subst h <;>
    simp [Range.contains, Range.isAbove, Range.isBelow, Relation.holds, le_iff_lt_or_eq, eq_comm]

/-- A relation whose sides are both multiplied by a number other than zero. -/
def Relation.oriented (scale : Rat) (relation : Relation) : Relation :=
  if scale < 0 then relation.flipped else relation

@[simp] theorem Relation.oriented_equal (scale : Rat) :
    Relation.equal.oriented scale = .equal := by
  simp [oriented, flipped]

theorem Relation.oriented_eq_equal {scale : Rat} {relation : Relation} :
    relation.oriented scale = .equal ↔ relation = .equal := by
  unfold oriented
  split <;> cases relation <;> simp [flipped]

/-- Multiplying by a negative number reverses a relation. -/
theorem Relation.holds_oriented (relation : Relation) {left right left' right' scale : Rat}
    (hscale : scale ≠ 0) (h : left' - right' = scale * (left - right)) :
    (relation.oriented scale).holds left' right' = relation.holds left right := by
  rw [oriented]
  split
  · rename_i hneg
    rw [holds_flipped]
    refine relation.holds_iff_of_scaled _ _ _ _ (-scale) (neg_pos.2 hneg) ?_
    linear_combination -h
  · rename_i hneg
    exact relation.holds_iff_of_scaled _ _ _ _ scale (lt_of_le_of_ne (not_lt.1 hneg) hscale.symm) h

theorem Relation.oriented_oriented (relation : Relation) {scale scale' : Rat} (h : scale ≠ 0)
    (h' : scale' ≠ 0) :
    (relation.oriented scale).oriented scale' = relation.oriented (scale' * scale) := by
  have hflipped : relation.flipped.flipped = relation := by
    cases relation <;> rfl
  rcases lt_or_gt_of_ne h with hneg | hpos <;> rcases lt_or_gt_of_ne h' with hneg' | hpos'
  · simp [oriented, hneg, hneg', hflipped, (mul_pos_of_neg_of_neg hneg' hneg).not_gt]
  · simp [oriented, hneg, hpos'.not_gt, mul_neg_of_pos_of_neg hpos' hneg]
  · simp [oriented, hpos.not_gt, hneg', mul_neg_of_neg_of_pos hneg' hpos]
  · simp [oriented, hpos.not_gt, hpos'.not_gt, (mul_pos hpos' hpos).not_gt]

/-- A value stands in a relation to a quotient if its product with the divisor does to the
dividend. -/
theorem Relation.holds_quotient (relation : Relation) {coefficient : Rat} (h : coefficient ≠ 0)
    (value constant : Rat) :
    (relation.oriented coefficient).holds value (constant / coefficient) =
      relation.holds (coefficient * value) constant := by
  have hscaled : value - constant / coefficient =
      coefficient⁻¹ * (coefficient * value - constant) := by
    field_simp
  have horiented : relation.oriented coefficient⁻¹ = relation.oriented coefficient := by
    simp [oriented]
  rw [← horiented, relation.holds_oriented (inv_ne_zero h) hscaled]

/-! ## Linear equations -/

/-- A rational number as a fraction in lowest terms. -/
def Value.fractionOf (q : Rat) : Value :=
  .fraction [Node.constant (q.num : Rat)] [Node.constant (q.den : Rat)]

theorem valueAt_quotientFraction (point : Char → Rat) (value : Rat) :
    (Node.fraction [Node.constant (value.num : Rat)] [Node.constant (value.den : Rat)]).valueAt
      point = some value := by
  refine (Node.valueAt_fraction_eq_some point).2 ⟨value.num, value.den, by simp, by simp, ?_,
    Rat.num_div_den value⟩
  exact Nat.cast_ne_zero.2 value.den_nz

/-- A quotient is kept as a fraction in lowest terms if it is one of two integers and is no integer
itself, and it is a number otherwise. -/
theorem exactQuotient_eq (coefficient constant : Rat) :
    exactQuotient coefficient constant =
      .ok (if (constant / coefficient).den = 1 ∨ coefficient.den ≠ 1 ∨ constant.den ≠ 1 then
        Value.ofRat (constant / coefficient) else Value.fractionOf (constant / coefficient)) := by
  rw [exactQuotient]
  split
  · rfl
  · have hdenominator : (Number.ofRat ((constant / coefficient).den : Rat)).isZero = false := by
      rw [Bool.eq_false_iff, ne_eq, Number.isZero_iff, Number.value_ofRat, Nat.cast_eq_zero]
      exact (constant / coefficient).den_nz
    simp [Node.fraction?, Node.constant, Group.constant, Group.toNode, Group.isPlaceholder,
      hdenominator, Value.fractionOf]

/-- The solution of a linear equation is recorded as a number or as a fraction in lowest terms. -/
theorem exactQuotient_spec {coefficient constant : Rat} {value : Value}
    (h : exactQuotient coefficient constant = .ok value) :
    value = Value.ofRat (constant / coefficient) ∨
      (constant / coefficient).den ≠ 1 ∧ value = Value.fractionOf (constant / coefficient) := by
  rw [exactQuotient_eq] at h
  split at h
  · exact .inl (Except.ok.inj h).symm
  · rename_i hfraction
    exact .inr ⟨fun hone => hfraction (.inl hone), (Except.ok.inj h).symm⟩

theorem answers_exactQuotient {coefficient constant : Rat} {value : Value}
    (h : exactQuotient coefficient constant = .ok value) :
    Answers (fun r => r = constant / coefficient) (RecordedFrom [value]) := by
  obtain rfl | ⟨-, rfl⟩ := exactQuotient_spec h
  · refine Answers.of_rationals [constant / coefficient] (by simp) fun value => ?_
    simp [RecordedFrom, Value.recorded_ofRat]
  · have hvalue := valueAt_quotientFraction (everywhere 0) (constant / coefficient)
    constructor
    · constructor
      · rintro r rfl
        exact ⟨_, ⟨_, .head _, rfl⟩, hvalue⟩
      · rintro ⟨original, horiginal, heq⟩
        rw [List.mem_singleton.1 horiginal] at heq
        cases heq
    · rintro value ⟨original, horiginal, rfl⟩
      rw [List.mem_singleton.1 horiginal]
      exact ⟨_, rfl, hvalue⟩

/-! ## Roots -/

theorem Value.recorded_negated_ofRat (value : Rat) :
    (Value.ofRat value).negated.recorded = Value.ofRat (-value) := by
  rw [Value.ofRat_eq, Value.ofRat_eq, Value.negated, Value.recorded, Number.rounded,
    Number.value_negated, Number.value_ofRat, Rational.rounded_neg, Rational.rounded_neg,
    Rational.rounded_rounded]

/-- Values that are no rational numbers answer a condition without rational solutions. -/
theorem answers_of_irrational {holds : Rat → Prop} {recorded : Value → Prop}
    (h : ∀ r, ¬ holds r)
    (hrecorded : ∀ value, recorded value → value = .noSolution ∨ (∃ node, value = .root node) ∨
      ∃ top bottom, value = .quotient top bottom) : Answers holds recorded where
  sound := by
    intro value hvalue
    obtain rfl | ⟨node, rfl⟩ | ⟨top, bottom, rfl⟩ := hrecorded value hvalue <;> trivial
  admits := fun r hr => absurd hr (h r)
  noSolution := fun _ => h

theorem rootValue_cases (value : Rat) (n : Nat) :
    (∃ node, rootValue value n = .root node) ∨
      ∃ top bottom, rootValue value n = .quotient top bottom := by
  rw [rootValue]
  split
  · exact .inl ⟨_, rfl⟩
  · exact .inr ⟨_, _, rfl⟩

/-- The rational roots of a value, from the root of its magnitude. -/
theorem pow_eq_iff_of_root {quotient root : Rat} {n : Nat} (hn : 0 < n) (hroot : 0 ≤ root)
    (hpow : root ^ n = |quotient|) (hquotient : n % 2 = 0 → 0 ≤ quotient) (r : Rat) :
    r ^ n = quotient ↔
      (n % 2 = 0 ∧ (r = root ∨ r = -root)) ∨
        (n % 2 = 1 ∧ r = if quotient < 0 then -root else root) := by
  rcases Nat.mod_two_eq_zero_or_one n with heven | hodd
  · rw [abs_of_nonneg (hquotient heven)] at hpow
    have heven' : Even n := Nat.even_iff.2 heven
    simp only [heven, true_and, zero_ne_one, false_and, or_false]
    rw [← hpow, ← heven'.pow_abs r, pow_left_inj₀ (abs_nonneg r) hroot hn.ne', abs_eq hroot]
  · have hodd' : Odd n := Nat.odd_iff.2 hodd
    simp only [hodd, one_ne_zero, false_and, true_and, false_or]
    have hsigned : (if quotient < 0 then -root else root) ^ n = quotient := by
      split
      · rename_i hneg
        rw [hodd'.neg_pow, hpow, abs_of_neg hneg, neg_neg]
      · rename_i hneg
        rw [hpow, abs_of_nonneg (not_lt.1 hneg)]
    conv_lhs => rw [← hsigned]
    exact hodd'.pow_inj

/-- Whether a value is a number, or stands for an irrational one. -/
def Value.IsRoot : Value → Prop
  | .number _ | .root _ | .quotient .. => True
  | .fraction .. | .trueForAll _ | .noSolution | .range _ => False

theorem Value.IsRoot.negated {value : Value} (h : value.IsRoot) : value.negated.IsRoot := by
  cases value <;> exact h

theorem Value.isRoot_ofRat (value : Rat) : (Value.ofRat value).IsRoot := by
  rw [Value.ofRat_eq]
  trivial

/-- Unless an even root of a negative number is asked for, the values are roots. -/
theorem isRoot_of_mem_rootsOf {quotient : Rat} {n : Nat} (h : ¬(n % 2 = 0 ∧ quotient < 0)) :
    ∀ value ∈ rootsOf quotient n, value.IsRoot := by
  rw [rootsOf, if_neg h]
  split
  · exact fun value hvalue => List.mem_singleton.1 hvalue ▸ Value.isRoot_ofRat quotient
  · extract_lets magnitude root
    have hroot : root.IsRoot := by
      unfold root
      split
      · exact Value.isRoot_ofRat _
      · obtain ⟨node, hnode⟩ | ⟨top, bottom, hnode⟩ := rootValue_cases magnitude n <;>
          rw [hnode] <;> trivial
    split
    · simpa using ⟨hroot, hroot.negated⟩
    · split
      · simpa using hroot.negated
      · simpa using hroot

/-- There is no real root exactly for even roots of negative numbers. -/
theorem rootsOf_eq_noSolution_iff {quotient : Rat} {n : Nat} :
    rootsOf quotient n = [.noSolution] ↔ n % 2 = 0 ∧ quotient < 0 := by
  constructor
  · intro h
    by_contra hreal
    exact isRoot_of_mem_rootsOf hreal .noSolution (h ▸ .head _)
  · intro h
    rw [rootsOf, if_neg h.2.ne, if_pos h]

/-- Either there is no root, which is the only value then, or the values are roots. -/
theorem rootsOf_cases (quotient : Rat) (n : Nat) :
    rootsOf quotient n = [.noSolution] ∨ ∀ value ∈ rootsOf quotient n, value.IsRoot := by
  rw [rootsOf_eq_noSolution_iff]
  exact (em _).imp_right isRoot_of_mem_rootsOf

/-- The roots of a quotient whose magnitude has a rational root. -/
theorem answers_rootsOf_of_root {quotient root : Rat} {n : Nat} (hn : 0 < n) (hne : quotient ≠ 0)
    (hreal : ¬(n % 2 = 0 ∧ quotient < 0)) (hroot : Rational.exactRoot |quotient| n = some root) :
    Answers (fun r => r ^ n = quotient) (RecordedFrom (rootsOf quotient n)) := by
  obtain ⟨hpos, hpow⟩ := (Rational.exactRoot_eq_some_iff (abs_nonneg quotient) hn).1 hroot
  have hiff := pow_eq_iff_of_root hn hpos hpow fun heven => not_lt.1 fun hneg =>
    hreal ⟨heven, hneg⟩
  simp only [rootsOf, if_neg hne, if_neg hreal, Rational.magnitude_eq_abs, hroot]
  rcases Nat.mod_two_eq_zero_or_one n with heven | hodd
  · refine Answers.of_rationals [root, -root] (fun r => by simp [hiff, heven]) fun value => ?_
    simp [RecordedFrom, heven, Value.recorded_ofRat, Value.recorded_negated_ofRat]
  · by_cases hneg : quotient < 0
    · refine Answers.of_rationals [-root] (fun r => by simp [hiff, hodd, hneg]) fun value => ?_
      simp [RecordedFrom, hodd, hneg, Value.recorded_negated_ofRat]
    · refine Answers.of_rationals [root] (fun r => by simp [hiff, hodd, hneg]) fun value => ?_
      simp [RecordedFrom, hodd, hneg, Value.recorded_ofRat]

/-- The roots of a quotient whose magnitude has none that is rational. -/
theorem answers_rootsOf_of_irrational {quotient : Rat} {n : Nat} (hn : 0 < n) (hne : quotient ≠ 0)
    (hreal : ¬(n % 2 = 0 ∧ quotient < 0)) (hroot : Rational.exactRoot |quotient| n = none) :
    Answers (fun r => r ^ n = quotient) (RecordedFrom (rootsOf quotient n)) := by
  simp only [rootsOf, if_neg hne, if_neg hreal, Rational.magnitude_eq_abs, hroot]
  refine answers_of_irrational (fun r hr => ?_) fun value hvalue => .inr ?_
  · -- A rational root would give one of the magnitude.
    have hsome : Rational.exactRoot |quotient| n = some |r| :=
      (Rational.exactRoot_eq_some_iff (abs_nonneg quotient) hn).2
        ⟨abs_nonneg r, by rw [← abs_pow, hr]⟩
    rw [hroot] at hsome
    cases hsome
  · obtain ⟨original, horiginal, rfl⟩ := hvalue
    have hcases : original = rootValue |quotient| n ∨
        original = (rootValue |quotient| n).negated := by
      split at horiginal
      · simpa using horiginal
      · split at horiginal
        · exact .inr (List.mem_singleton.1 horiginal)
        · exact .inl (List.mem_singleton.1 horiginal)
    obtain ⟨node, hnode⟩ | ⟨top, bottom, hnode⟩ := rootValue_cases |quotient| n <;>
      obtain rfl | rfl := hcases <;> simp [hnode, Value.negated, Value.recorded]

/-- All rational solutions of `x ^ n = quotient` are found. -/
theorem answers_rootsOf (quotient : Rat) {n : Nat} (hn : 0 < n) :
    Answers (fun r => r ^ n = quotient) (RecordedFrom (rootsOf quotient n)) := by
  by_cases hzero : quotient = 0
  · subst hzero
    refine Answers.of_rationals [0] (by simp [hn.ne']) fun value => ?_
    simp [rootsOf, RecordedFrom, Value.recorded_ofRat]
  by_cases hnone : n % 2 = 0 ∧ quotient < 0
  · rw [rootsOf_eq_noSolution_iff.2 hnone]
    refine answers_of_irrational (fun r hr => ?_) ?_
    · rw [← hr] at hnone
      exact hnone.2.not_ge ((Nat.even_iff.2 hnone.1).pow_nonneg r)
    · rintro value ⟨original, horiginal, rfl⟩
      rw [List.mem_singleton.1 horiginal]
      exact .inl rfl
  cases hroot : Rational.exactRoot |quotient| n with
  | some root => exact answers_rootsOf_of_root hn hzero hnone hroot
  | none => exact answers_rootsOf_of_irrational hn hzero hnone hroot

/-! ## Isolating the unknown -/

/-- The ways in which an unknown is isolated. -/
theorem isolate_cases {coefficient constant : Rat} {exponent : Nat} {relation : Relation}
    {name : Char} {values : List Value}
    (h : isolate coefficient exponent relation constant name = .ok values) :
    (coefficient = 0 ∧
        values = [if relation.holds 0 constant then .trueForAll name else .noSolution]) ∨
      coefficient ≠ 0 ∧
        ((exponent = 1 ∧ ∃ range, values = [.range range] ∧
            Range.ofRelation? (relation.oriented coefficient) (constant / coefficient) =
              some range) ∨
          (exponent = 1 ∧ relation = .equal ∧
            ∃ value, exactQuotient coefficient constant = .ok value ∧ values = [value]) ∨
          (exponent ≠ 1 ∧ relation = .equal ∧
            values = rootsOf (constant / coefficient) exponent)) := by
  rw [isolate] at h
  split at h
  · rename_i hzero
    exact .inl ⟨hzero, (Except.ok.inj h).symm⟩
  · rename_i hne
    refine .inr ⟨hne, ?_⟩
    split at h
    · cases h
    · rename_i hnotEqual
      extract_lets oriented quotient at h
      split at h
      · rename_i hone
        split at h
        · rename_i range hrange
          exact .inl ⟨hone, range, (Except.ok.inj h).symm, hrange⟩
        · rename_i hrange
          have hequal : relation = .equal := by
            revert hrange hnotEqual
            by_cases hneg : coefficient < 0 <;>
              cases relation <;> simp [oriented, hneg, Range.ofRelation?, Relation.flipped]
          cases hvalue : exactQuotient coefficient constant with
          | error e => simp [hvalue, Except.map] at h
          | ok value =>
            rw [hvalue] at h
            exact .inr (.inl ⟨hone, hequal, value, rfl, (Except.ok.inj h).symm⟩)
      · rename_i hone
        split at h
        · cases h
        · rename_i hequal
          have hequal : relation = .equal := by
            revert hequal
            by_cases hneg : coefficient < 0 <;>
              cases relation <;> simp [oriented, hneg, Relation.flipped]
          split at h
          · cases h
          · exact .inr (.inr ⟨hone, hequal, (Except.ok.inj h).symm⟩)

theorem answers_truth {holds : Rat → Prop} {relation : Relation} {constant : Rat} (name : Char)
    (h : ∀ r, holds r ↔ relation.holds 0 constant) :
    Answers holds
      (RecordedFrom [if relation.holds 0 constant then .trueForAll name else .noSolution]) := by
  by_cases hholds : relation.holds 0 constant
  · constructor
    · constructor
      · exact fun r _ => ⟨.trueForAll name, ⟨_, .head _, by simp [hholds, Value.recorded]⟩, trivial⟩
      · simp [RecordedFrom, hholds, Value.recorded]
    · rintro value ⟨original, horiginal, rfl⟩
      rw [List.mem_singleton.1 horiginal, if_pos hholds]
      exact fun r => (h r).2 hholds
  · refine answers_of_irrational (fun r hr => hholds ((h r).1 hr)) ?_
    rintro value ⟨original, horiginal, rfl⟩
    rw [List.mem_singleton.1 horiginal, if_neg hholds]
    exact .inl rfl

theorem answers_range {holds : Rat → Prop} {range : Range}
    (h : ∀ r, range.contains r ↔ holds r) : Answers holds (RecordedFrom [.range range]) := by
  constructor
  · constructor
    · exact fun r hr => ⟨_, ⟨_, .head _, rfl⟩, range, rfl, (h r).2 hr, h⟩
    · simp [RecordedFrom, Value.recorded]
  · rintro value ⟨original, horiginal, rfl⟩
    rw [List.mem_singleton.1 horiginal]
    exact ⟨range, rfl, h⟩

/-- What is recorded answers the condition that `coefficient * x ^ exponent` stands in the
relation to a number. -/
theorem answers_isolate {coefficient constant : Rat} {exponent : Nat} {relation : Relation}
    {name : Char} {values : List Value} (hexponent : 0 < exponent)
    (h : isolate coefficient exponent relation constant name = .ok values) :
    Answers (fun r => relation.holds (coefficient * r ^ exponent) constant)
      (RecordedFrom values) := by
  obtain ⟨rfl, rfl⟩ | ⟨hne, ⟨rfl, range, rfl, hrange⟩ | ⟨rfl, rfl, value, hvalue, rfl⟩ |
    ⟨-, rfl, rfl⟩⟩ := isolate_cases h
  · exact answers_truth name fun r => by rw [zero_mul]
  · refine answers_range fun r => ?_
    rw [Range.contains_ofRelation? hrange, relation.holds_quotient hne, pow_one]
  · convert answers_exactQuotient hvalue using 2 with r
    simp only [Relation.holds, decide_eq_true_eq, pow_one, eq_div_iff hne, mul_comm]
  · convert answers_rootsOf (constant / coefficient) hexponent using 2 with r
    simp only [Relation.holds, decide_eq_true_eq, eq_div_iff hne, mul_comm]

/-- No range is recorded for an equation. -/
theorem ne_range_of_isolate {coefficient constant : Rat} {exponent : Nat} {name : Char}
    {values : List Value}
    (h : isolate coefficient exponent .equal constant name = .ok values) {value : Value}
    (hvalue : value ∈ values) (range : Range) : value ≠ .range range := by
  obtain ⟨-, rfl⟩ | ⟨-, ⟨-, found, -, hfound⟩ | ⟨-, -, quotient, hquotient, rfl⟩ | ⟨-, -, rfl⟩⟩ :=
    isolate_cases h
  · rw [List.mem_singleton.1 hvalue]
    split <;> simp
  · simp [Range.ofRelation?] at hfound
  · obtain rfl | ⟨-, rfl⟩ := exactQuotient_spec hquotient <;> rw [List.mem_singleton.1 hvalue] <;>
      simp [Value.ofRat_eq, Value.fractionOf]
  · rintro rfl
    rcases rootsOf_cases (constant / coefficient) exponent with hnone | hroots
    · rw [hnone] at hvalue
      cases List.mem_singleton.1 hvalue
    · exact hroots _ hvalue

/-- Where it is recorded that there is no solution, nothing else is. -/
theorem eq_singleton_of_noSolution_mem {coefficient constant : Rat} {exponent : Nat}
    {relation : Relation} {name : Char} {values : List Value}
    (h : isolate coefficient exponent relation constant name = .ok values)
    (hmem : .noSolution ∈ values) : values = [.noSolution] := by
  obtain ⟨-, rfl⟩ | ⟨-, ⟨-, range, rfl, -⟩ | ⟨-, -, value, -, rfl⟩ | ⟨-, -, rfl⟩⟩ := isolate_cases h
  · rw [← List.mem_singleton.1 hmem]
  · rw [← List.mem_singleton.1 hmem]
  · rw [← List.mem_singleton.1 hmem]
  · exact (rootsOf_cases _ _).resolve_right fun hroots => hroots _ hmem

/-! ## Equations -/

theorem Sides.termAndConstant?_cases {s : Sides} {term : Group} {relation : Relation}
    {other : List Node} (h : s.termAndConstant? = some (term, relation, other)) :
    Sequence.hasVariable other = false ∧
      ((Sequence.variableTerm? s.left = some term ∧ relation = s.relation ∧ other = s.right) ∨
        (Sequence.variableTerm? s.right = some term ∧ relation = s.relation.flipped ∧
          other = s.left)) := by
  unfold termAndConstant? at h
  split at h
  · rename_i hterm _
    split at h
    · cases h
    · rename_i hother
      cases h
      exact ⟨by simpa using hother, .inl ⟨hterm, rfl, rfl⟩⟩
  · rename_i hterm
    split at h
    · cases h
    · rename_i hother
      cases h
      exact ⟨by simpa using hother, .inr ⟨hterm, rfl, rfl⟩⟩
  · cases h

/-- The value of a side that is one term with the unknown. -/
theorem Sequence.valueAt_variableTerm {x : Char} {side : List Node} {term : Group} {exponent : Nat}
    (hside : Sequence.IsPlain x false side) (hterm : Sequence.variableTerm? side = some term)
    (hexponent : term.wholeExponent? = some exponent) :
    0 < exponent ∧ ∀ r, Sequence.valueAt (everywhere r) side =
      some (term.coefficient * r ^ exponent) := by
  obtain ⟨rfl, hletter⟩ := Sequence.variableTerm?_eq_some hterm
  obtain ⟨name, hname⟩ := Option.isSome_iff_exists.1 hletter
  obtain ⟨⟨-, e, hpower⟩, -⟩ := hside
  obtain rfl := hpower.positiveIntegerPower?_eq hexponent
  refine ⟨hpower.pos, fun r => ?_⟩
  rw [Sequence.valueAt_singleton, Group.valueAt_toNode (everywhere r) hpower, Group.valueOf]
  simp only [hname, everywhere]
  rfl

/-- The parts of an equation in closed form. -/
theorem Sides.closedForm?_eq_some {name : Char} {s : Sides} {solution : Solution}
    (h : s.closedForm? name = .ok (some solution)) :
    ∃ term exponent relation other constant values,
      s.termAndConstant? = some (term, relation, other) ∧ term.wholeExponent? = some exponent ∧
        Sequence.evaluate other = .ok constant ∧
        isolate term.coefficient exponent relation constant name = .ok values ∧
        solution = Solution.ofValues name values := by
  unfold closedForm? at h
  split at h
  · cases h
  · rename_i term relation other hform
    split at h
    · cases h
    · rename_i exponent hexponent
      obtain ⟨constant, hconstant, h⟩ := Except.bind_eq_ok.1 h
      obtain ⟨values, hvalues, h⟩ := Except.bind_eq_ok.1 h
      exact ⟨term, exponent, relation, other, constant, values, hform, hexponent, hconstant, hvalues,
        (Option.some.inj (Except.pure_eq_ok.1 h)).symm⟩

/-- An equation says of every value of the unknown that `coefficient * x ^ exponent` stands in
`relation` to `constant`: the difference of its sides is a multiple of the difference of the two. -/
structure Sides.AmountsTo (s : Sides) (coefficient : Rat) (exponent : Nat) (relation : Relation)
    (constant : Rat) : Prop where
  pos : 0 < exponent
  scaled : ∃ scale : Rat, scale ≠ 0 ∧ relation = s.relation.oriented scale ∧ ∀ r, ∃ left right,
    Sequence.valueAt (everywhere r) s.left = some left ∧
      Sequence.valueAt (everywhere r) s.right = some right ∧
      coefficient * r ^ exponent - constant = scale * (left - right)

/-- What is recorded comes of isolating the unknown in something that an equation amounts to. -/
def Sides.IsolatedAs (s : Sides) (x : Char) (solution : Solution) : Prop :=
  ∃ coefficient exponent relation constant values,
    s.AmountsTo coefficient exponent relation constant ∧
      isolate coefficient exponent relation constant x = .ok values ∧
      solution = Solution.ofValues x values

theorem Sides.AmountsTo.holdsAt_iff {s : Sides} {coefficient constant : Rat} {exponent : Nat}
    {relation : Relation} (h : s.AmountsTo coefficient exponent relation constant) (r : Rat) :
    s.HoldsAt (everywhere r) ↔ relation.holds (coefficient * r ^ exponent) constant = true := by
  obtain ⟨scale, hscale, rfl, hvalues⟩ := h.scaled
  obtain ⟨left, right, hleft, hright, heq⟩ := hvalues r
  simp [HoldsAt, hleft, hright, s.relation.holds_oriented hscale heq]

/-- What is recorded for an equation in closed form. -/
theorem Sides.isolatedAs_closedForm {x name : Char} {s : Sides} {solution : Solution}
    (hs : s.IsPlain x false) (h : s.closedForm? name = .ok (some solution)) :
    s.IsolatedAs name solution := by
  obtain ⟨term, exponent, relation, other, constant, values, hform, hexponent, hconstant, hvalues,
    rfl⟩ := Sides.closedForm?_eq_some h
  have hother (r : Rat) := Sequence.valueAt_of_evaluate (everywhere r) hconstant
  refine ⟨_, _, _, _, values, ?_, hvalues, rfl⟩
  obtain ⟨-, ⟨hterm, rfl, rfl⟩ | ⟨hterm, rfl, rfl⟩⟩ := termAndConstant?_cases hform
  · obtain ⟨hpos, hvalue⟩ := Sequence.valueAt_variableTerm hs.1 hterm hexponent
    exact ⟨hpos, 1, one_ne_zero, rfl, fun r => ⟨_, _, hvalue r, hother r, (one_mul _).symm⟩⟩
  · obtain ⟨hpos, hvalue⟩ := Sequence.valueAt_variableTerm hs.2 hterm hexponent
    exact ⟨hpos, -1, by norm_num, rfl, fun r => ⟨_, _, hother r, hvalue r, by ring⟩⟩

/-- What is recorded when the unknown is isolated answers the equation. -/
theorem Sides.IsolatedAs.answers {x : Char} {s : Sides} {solution : Solution}
    (h : s.IsolatedAs x solution) :
    ∃ values, solution = Solution.ofValues x values ∧
      Answers (fun r => s.HoldsAt (everywhere r)) (RecordedFrom values) ∧
      (s.relation = .equal → ∀ value ∈ values, ∀ range, value ≠ .range range) ∧
      (.noSolution ∈ values → values = [.noSolution]) := by
  obtain ⟨coefficient, exponent, relation, constant, values, hs, hvalues, rfl⟩ := h
  refine ⟨values, rfl, ?_, fun hequal _ hmem => ?_, eq_singleton_of_noSolution_mem hvalues⟩
  · convert answers_isolate hs.pos hvalues using 2 with r
    exact hs.holdsAt_iff r
  · obtain ⟨scale, -, rfl, -⟩ := hs.scaled
    rw [hequal, Relation.oriented_equal] at hvalues
    exact ne_range_of_isolate hvalues hmem

end OneUnknown
