import OneUnknown.Proofs.ClosedForm
import OneUnknown.Proofs.Powers
/-!
# What isolating the unknown gives

The values of the unknown for which `c · x ^ n` stands in a relation to `k`, exactly as they are
written: a range, a quotient, rational roots as rounded numbers, and any other root as a root of the
numerator over a root of the denominator.

* `Node.WritesRoot`, `Value.WritesRoot`: how a root is written;
* `integerRoot_writesRoot`, `rootValue_writesRoot`: roots are written like that;
* `mem_rootsOf`, `rootsOf_of_irrational`: rational roots, and the others;
* `isolate_eq_ok`: what is isolated from one equation or inequality.
-/

namespace OneUnknown

/-! ## How a root is written -/

/-- The `n`-th root of a natural number is written as a number where it is one, and otherwise as the
rounded number with the power `1 / n`. -/
inductive Node.WritesRoot (n value : Nat) : Node → Prop where
  | exact {root : Nat} (h : root ^ n = value) : WritesRoot n value (Node.constant root)
  | power (h : ∀ root : Nat, root ^ n ≠ value) :
      WritesRoot n value (.group none (Number.ofRat (Rational.rounded value))
        [Node.constant 1, .operator .divide, Node.constant n])

/-- The `n`-th root of a fraction in lowest terms is written as the root of its numerator over that
of its denominator, which is left out if it is one. -/
inductive Value.WritesRoot (n : Nat) (q : Rat) : Value → Prop where
  | integer {root : Node} (hden : q.den = 1) (hroot : root.WritesRoot n q.num.natAbs) :
      WritesRoot n q (.root root)
  | quotient {top bottom : Node} (hden : q.den ≠ 1) (htop : top.WritesRoot n q.num.natAbs)
      (hbottom : bottom.WritesRoot n q.den) : WritesRoot n q (.quotient top bottom)

/-- The root of a natural number is a rational only if it is a natural number. -/
theorem Rational.exactRoot_natCast (value : Nat) {n : Nat} (hn : 0 < n) :
    exactRoot (value : Rat) n = (exactNatRoot value n).map fun root => (root : Rat) := by
  have hone : exactNatRoot 1 n = some 1 := (exactNatRoot_eq_some_iff hn).2 (one_pow n)
  have hpos : ¬ (value : Rat) < 0 := Rat.natCast_nonneg.not_gt
  rw [exactRoot, if_neg (by simp [hn.ne', hpos])]
  simp only [Rat.num_natCast, Int.natAbs_natCast, Rat.den_natCast, hone, hpos, ite_false]
  cases exactNatRoot value n <;> simp

theorem integerRoot_writesRoot (value : Nat) {n : Nat} (hn : 0 < n) :
    (integerRoot value n).WritesRoot n value := by
  rw [integerRoot, Rational.exactRoot_natCast value hn]
  cases hroot : Rational.exactNatRoot value n with
  | some root => exact .exact ((Rational.exactNatRoot_eq_some_iff hn).1 hroot)
  | none =>
    refine .power fun root hpow => ?_
    rw [(Rational.exactNatRoot_eq_some_iff hn).2 hpow] at hroot
    cases hroot

theorem rootValue_writesRoot (q : Rat) {n : Nat} (hn : 0 < n) :
    (rootValue q n).WritesRoot n q := by
  rw [rootValue]
  split
  · exact .integer ‹_› (integerRoot_writesRoot _ hn)
  · exact .quotient ‹_› (integerRoot_writesRoot _ hn) (integerRoot_writesRoot _ hn)

/-! ## Roots of either sign -/

theorem Rational.rounded_ne_zero {value : Rat} (h : value ≠ 0) : rounded value ≠ 0 := by
  rcases lt_or_gt_of_ne h with hneg | hpos
  · have := rounded_pos (neg_pos.2 hneg)
    rw [rounded_neg] at this
    exact (neg_pos.1 this).ne
  · exact (rounded_pos hpos).ne'

theorem Number.negated_ofRat {value : Rat} (h : value ≠ 0) :
    (Number.ofRat value).negated = Number.ofRat (-value) := by
  have hsign : (!decide (value < 0)) = decide (-value < 0) := by
    rcases lt_or_gt_of_ne h with hneg | hpos
    · simp [hneg, hneg.le]
    · simp [hpos, hpos.le]
  simp only [Number.negated, Number.ofRat, Rational.magnitude_eq_abs, abs_neg, hsign]

/-- The sign of a rounded number may be changed before it is rounded. -/
theorem Value.negated_ofRat {value : Rat} (h : value ≠ 0) :
    (Value.ofRat value).negated = Value.ofRat (-value) := by
  rw [Value.ofRat_eq, Value.ofRat_eq, Value.negated,
    Number.negated_ofRat (Rational.rounded_ne_zero h), Rational.rounded_neg]

theorem Value.ofRat_ne_ofRat_neg {value : Rat} (h : value ≠ 0) :
    Value.ofRat value ≠ Value.ofRat (-value) := by
  intro heq
  rw [Value.ofRat_eq, Value.ofRat_eq, Value.number.injEq] at heq
  have hvalue := congrArg Number.value heq
  rw [Number.value_ofRat, Number.value_ofRat, Rational.rounded_neg] at hvalue
  exact Rational.rounded_ne_zero h (self_eq_neg.1 hvalue)

section

variable {quotient : Rat} {n : Nat}

/-- Where there are rational roots, these are the values, each of them once. -/
theorem mem_rootsOf (hn : 0 < n) {root : Rat} (hroot : root ^ n = quotient) :
    (rootsOf quotient n).Nodup ∧
      ∀ value, value ∈ rootsOf quotient n ↔ ∃ r, r ^ n = quotient ∧ value = Value.ofRat r := by
  rw [rootsOf]
  split
  · rename_i hzero
    simp [hzero, hn.ne']
  · rename_i hne
    have hquotient (heven : n % 2 = 0) : 0 ≤ quotient :=
      hroot ▸ (Nat.even_iff.2 heven).pow_nonneg root
    have hpow : |root| ^ n = |quotient| := by rw [← abs_pow, hroot]
    have hexact : Rational.exactRoot |quotient| n = some |root| :=
      (Rational.exactRoot_eq_some_iff (abs_nonneg _) hn).2 ⟨abs_nonneg root, hpow⟩
    have hrootNe : |root| ≠ 0 := by
      rintro hzero
      rw [hzero, zero_pow hn.ne'] at hpow
      exact hne (abs_eq_zero.1 hpow.symm)
    have hiff := pow_eq_iff_of_root hn (abs_nonneg root) hpow hquotient
    rw [if_neg fun h => (hquotient h.1).not_gt h.2]
    simp only [Rational.magnitude_eq_abs, hexact, Value.negated_ofRat hrootNe, hiff]
    rcases Nat.mod_two_eq_zero_or_one n with heven | hodd
    · simp [heven, Value.ofRat_ne_ofRat_neg hrootNe, or_and_right, exists_or]
    · by_cases hneg : quotient < 0 <;> simp [hodd, hneg]

/-- Where there are real roots but no rational one, the values are those of the magnitude, with the
sign that the exponent asks for. -/
theorem rootsOf_of_irrational (hn : 0 < n) (h : ∀ r : Rat, r ^ n ≠ quotient)
    (hreal : ¬(n % 2 = 0 ∧ quotient < 0)) :
    rootsOf quotient n =
      if n % 2 = 0 then [rootValue |quotient| n, (rootValue |quotient| n).negated]
      else if quotient < 0 then [(rootValue |quotient| n).negated]
      else [rootValue |quotient| n] := by
  have hne : quotient ≠ 0 := fun hzero => h 0 (by rw [hzero, zero_pow hn.ne'])
  have hnone : Rational.exactRoot |quotient| n = none := by
    rw [Rational.exactRoot_eq_none hn]
    rintro ⟨root, hroot⟩
    rcases lt_or_ge quotient 0 with hneg | hpos
    · -- An odd root of the magnitude is one of the number, with the other sign.
      have hodd : Odd n := Nat.odd_iff.2 (Nat.mod_two_ne_zero.1 fun heven => hreal ⟨heven, hneg⟩)
      exact h (-root) (by rw [hodd.neg_pow, hroot, abs_of_neg hneg, neg_neg])
    · exact h root (by rw [hroot, abs_of_nonneg hpos])
  rw [rootsOf, if_neg hne, if_neg hreal]
  simp only [Rational.magnitude_eq_abs, hnone]

end

/-! ## Isolating the unknown -/

section

variable {coefficient constant : Rat} (name : Char)

/-- An ordering is isolated to the range of the values that stand in it. -/
theorem isolate_ordering (h : coefficient ≠ 0) {relation : Relation} (hequal : relation ≠ .equal)
    (hnotEqual : relation ≠ .notEqual) :
    ∃ range, isolate coefficient 1 relation constant name = .ok [.range range] ∧
      ∀ r, range.contains r = relation.holds (coefficient * r) constant := by
  obtain ⟨range, hrange⟩ : ∃ range,
      Range.ofRelation? (relation.oriented coefficient) (constant / coefficient) = some range := by
    unfold Relation.oriented
    split <;> cases relation <;> simp_all [Range.ofRelation?, Relation.flipped]
  refine ⟨range, ?_, fun r => ?_⟩
  · rw [isolate, if_neg h, if_neg hnotEqual]
    rw [Relation.oriented] at hrange
    simp only [hrange, ite_true]
  · rw [Range.contains_ofRelation? hrange, relation.holds_quotient h]

theorem isolate_linear (h : coefficient ≠ 0) :
    isolate coefficient 1 .equal constant name =
      (exactQuotient coefficient constant).map fun value => [value] := by
  simp [isolate, h, Relation.flipped, Range.ofRelation?]

theorem isolate_power (h : coefficient ≠ 0) {n : Nat} (hn : 2 ≤ n)
    (hlimit : n ≤ Rational.maxExponent) :
    isolate coefficient n .equal constant name = .ok (rootsOf (constant / coefficient) n) := by
  have hone : n ≠ 1 := by omega
  simp [isolate, h, hone, hlimit, Relation.flipped]

/-- What isolating the unknown in `c · x ^ n` in relation to `k` gives, for `c` other than zero.  An
ordering of `c · x` gives the range of its solutions.  The equation of `c · x` gives `k / c`, as a
fraction in lowest terms if `c` and `k` are integers and it is none, and otherwise rounded.  The
equation of a higher power gives the rational solutions, rounded, if there are any; nothing but the
statement that there is no solution exactly if an even root of a negative number is asked for; and
otherwise a root, with either sign if the exponent is even. -/
theorem isolate_eq_ok (h : coefficient ≠ 0) :
    (∀ relation, relation ≠ .equal → relation ≠ .notEqual → ∃ range,
      isolate coefficient 1 relation constant name = .ok [.range range] ∧
        ∀ r, range.contains r = relation.holds (coefficient * r) constant) ∧
    isolate coefficient 1 .equal constant name =
      .ok [if coefficient.den = 1 ∧ constant.den = 1 ∧ (constant / coefficient).den ≠ 1 then
          Value.fractionOf (constant / coefficient)
        else .number (Number.ofRat (Rational.rounded (constant / coefficient)))] ∧
    ∀ n, 2 ≤ n → n ≤ Rational.maxExponent → ∃ values,
      isolate coefficient n .equal constant name = .ok values ∧
      ((∃ r, coefficient * r ^ n = constant) → values.Nodup ∧ ∀ value, value ∈ values ↔
        ∃ r, coefficient * r ^ n = constant ∧
          value = .number (Number.ofRat (Rational.rounded r))) ∧
      (values = [.noSolution] ↔ n % 2 = 0 ∧ constant / coefficient < 0) ∧
      ((∀ r, coefficient * r ^ n ≠ constant) → ¬(n % 2 = 0 ∧ constant / coefficient < 0) →
        ∃ root : Value, root.WritesRoot n |constant / coefficient| ∧
          values =
            if n % 2 = 0 then [root, root.negated]
            else if constant / coefficient < 0 then [root.negated]
            else [root]) := by
  refine ⟨fun relation => isolate_ordering name h, ?_, fun n hn hlimit => ?_⟩
  · rw [isolate_linear name h, exactQuotient_eq, ← Value.ofRat_eq, Except.map]
    congr 2
    by_cases hden : (constant / coefficient).den = 1 <;>
      by_cases hcoefficient : coefficient.den = 1 <;> simp [hden, hcoefficient]
  · have hquotient (r : Rat) : coefficient * r ^ n = constant ↔ r ^ n = constant / coefficient := by
      rw [eq_div_iff h, mul_comm]
    have hpos : 0 < n := by omega
    simp only [hquotient, ne_eq, ← Value.ofRat_eq]
    refine ⟨_, isolate_power name h hn hlimit, ?_, rootsOf_eq_noSolution_iff, ?_⟩
    · rintro ⟨root, hroot⟩
      exact mem_rootsOf hpos hroot
    · intro hirrational hreal
      exact ⟨_, rootValue_writesRoot _ hpos, rootsOf_of_irrational hpos hirrational hreal⟩

end

/-- `2 · x ^ 2 = 9` has no rational solution; its solutions are written `3 / 2 ^ (1 / 2)`, with
either sign. -/
theorem isolate_eq_ok_half_of_nine :
    (2 : Rat) ≠ 0 ∧ (∀ r : Rat, 2 * r ^ 2 ≠ 9) ∧
      ∃ root : Value, root.WritesRoot 2 |9 / 2| ∧
        isolate 2 2 .equal 9 'x' = .ok [root, root.negated] := by
  have htwo : (2 : Rat) ≠ 0 := by decide
  have hnone : Rational.exactRoot (9 / 2) 2 = none := by decide +kernel
  have hirrational (r : Rat) : 2 * r ^ 2 ≠ 9 := by
    intro hr
    exact (Rational.exactRoot_eq_none (by decide)).1 hnone ⟨r, by linarith⟩
  obtain ⟨-, -, hpowers⟩ := @isolate_eq_ok 2 9 'x' htwo
  obtain ⟨values, hvalues, -, -, hroots⟩ := hpowers 2 le_rfl (by decide)
  obtain ⟨root, hroot, rfl⟩ := hroots hirrational (by decide +kernel)
  exact ⟨htwo, hirrational, root, hroot, hvalues⟩

end OneUnknown
