import OneUnknown.Proofs.Roots
import Mathlib.Algebra.Order.Ring.Abs
import Mathlib.RingTheory.Coprime.Lemmas
/-!
# No rational power is missed

`b ^ (p / q)` is worked out as the `p`-th power of the `q`-th root of `b`.  The other order, the
`q`-th root of `b ^ p`, asks for less: a power may have a root although its base has none, as `2 ^ 2`
has a square root.  For `p / q` in lowest terms it makes no difference.

* `Rational.exactRoot_eq_some`: the roots of values of either sign;
* `Rational.integerPower_eq`: whole powers;
* `Rational.exists_root_of_pow_eq`, `Rational.exactRoot_zpow`: a base has the root that its power has;
* `Rational.power_eq_iff`: when there is a power, and which one.
-/

namespace OneUnknown.Rational

/-! ## Roots of either sign -/

/-- A negative value has the roots of its magnitude, with the other sign. -/
theorem exactRoot_of_neg {value : Rat} {n : Nat} (hvalue : value < 0) (hn : n % 2 = 1) :
    exactRoot value n = (exactRoot (-value) n).map fun root => -root := by
  have hpos : ¬ -value < 0 := by simpa using hvalue.le
  have hindex : n ≠ 0 := by
    rintro rfl
    cases hn
  simp only [exactRoot, hvalue, hpos, hn, hindex, one_ne_zero, and_false, or_false, ite_true,
    ite_false, Rat.num_neg_eq_neg_num, Rat.den_neg_eq_den, Int.natAbs_neg, Option.bind_eq_bind]
  cases exactNatRoot value.num.natAbs n <;> cases exactNatRoot value.den n <;> rfl

/-- The root of a value is found exactly when it is a rational. -/
theorem exactRoot_eq_some {value root : Rat} {n : Nat} (hn : 0 < n) :
    exactRoot value n = some root ↔ root ^ n = value ∧ (Even n → 0 ≤ root) := by
  rcases le_or_gt 0 value with hpos | hneg
  · rw [exactRoot_eq_some_iff hpos hn, and_comm]
    refine and_congr_right fun hpow => ⟨fun hroot _ => hroot, fun hroot => ?_⟩
    rcases Nat.even_or_odd n with heven | hodd
    · exact hroot heven
    · rwa [← hodd.pow_nonneg_iff, hpow]
  · rcases Nat.even_or_odd n with heven | hodd
    · have hnone : exactRoot value n = none := if_pos (.inr ⟨hneg, Nat.even_iff.1 heven⟩)
      simp only [hnone, reduceCtorEq, false_iff]
      rintro ⟨rfl, -⟩
      exact hneg.not_ge (heven.pow_nonneg root)
    · rw [exactRoot_of_neg hneg (Nat.odd_iff.1 hodd), Option.map_eq_some_iff]
      simp only [exactRoot_eq_some_iff (neg_pos.2 hneg).le hn, Nat.not_even_iff_odd.2 hodd,
        false_imp_iff, and_true]
      constructor
      · rintro ⟨root, ⟨-, hpow⟩, rfl⟩
        rw [hodd.neg_pow, hpow, neg_neg]
      · rintro rfl
        exact ⟨-root, ⟨neg_nonneg.2 (hodd.pow_neg_iff.1 hneg).le, hodd.neg_pow root⟩, neg_neg root⟩

/-! ## Whole powers -/

/-- Whole powers up to the largest exponent have a value, but for negative powers of zero. -/
theorem integerPower_eq {base : Rat} {exponent : Int} (hexponent : exponent.natAbs ≤ maxExponent)
    (hbase : ¬(base = 0 ∧ exponent < 0)) : integerPower base exponent = .ok (base ^ exponent) := by
  rw [integerPower, if_neg hexponent.not_gt]
  split
  · rename_i hneg
    rw [if_neg fun hzero => hbase ⟨hzero, hneg⟩, inv_pow, ← zpow_natCast, ← zpow_neg,
      Int.ofNat_natAbs_of_nonpos hneg.le, neg_neg]
  · rename_i hneg
    rw [← zpow_natCast, Int.natAbs_of_nonneg (not_lt.1 hneg)]

/-! ## Roots of powers -/

/-- A base has the `q`-th root that its `p`-th power has, if `p` and `q` have no common factor: with
`a * p + c * q = 1`, it is the product of the `a`-th power of that root and the `c`-th power of the
base. -/
theorem exists_root_of_pow_eq {base value : Rat} {p : Int} {q : Nat} (hbase : base ≠ 0)
    (hcoprime : IsCoprime p (q : Int)) (h : value ^ q = base ^ p) :
    ∃ root : Rat, root ^ q = base := by
  obtain ⟨a, c, hbezout⟩ := hcoprime
  refine ⟨value ^ a * base ^ c, ?_⟩
  have hvalue : (value ^ a) ^ q = base ^ (a * p) := by
    rw [← zpow_natCast, zpow_comm, zpow_natCast, h, ← zpow_mul, mul_comm]
  calc (value ^ a * base ^ c) ^ q
      = base ^ (a * p) * base ^ (c * q) := by rw [mul_pow, hvalue, zpow_mul base c, zpow_natCast]
    _ = base := by rw [← zpow_add₀ hbase, hbezout, zpow_one]

/-! ## Powers -/

/-- No root is found only where no rational is one. -/
theorem exactRoot_eq_none {value : Rat} {n : Nat} (hn : 0 < n) :
    exactRoot value n = none ↔ ¬ ∃ root : Rat, root ^ n = value := by
  rw [Option.eq_none_iff_forall_ne_some, not_exists]
  simp only [ne_eq, exactRoot_eq_some hn]
  refine ⟨fun h root hpow => ?_, fun h root hroot => h root hroot.1⟩
  rcases Nat.even_or_odd n with heven | hodd
  · exact h |root| ⟨by rw [heven.pow_abs, hpow], fun _ => abs_nonneg root⟩
  · exact h root ⟨hpow, fun heven => absurd heven (Nat.not_even_iff_odd.2 hodd)⟩

/-- For an exponent `p / q` in lowest terms, the `q`-th root of the `p`-th power is the `p`-th power
of the `q`-th root, and there is none without a root of the base. -/
theorem exactRoot_zpow (base exponent : Rat) :
    exactRoot (base ^ exponent.num) exponent.den =
      (exactRoot base exponent.den).map fun root => root ^ exponent.num := by
  have hden := exponent.den_pos
  cases hroot : exactRoot base exponent.den with
  | some root =>
    obtain ⟨hpow, hsign⟩ := (exactRoot_eq_some hden).1 hroot
    rw [Option.map_some, exactRoot_eq_some hden]
    refine ⟨?_, fun heven => zpow_nonneg (hsign heven) _⟩
    rw [← zpow_natCast, zpow_comm, zpow_natCast, hpow]
  | none =>
    have hnone := (exactRoot_eq_none hden).1 hroot
    rw [Option.map_none, exactRoot_eq_none hden]
    rintro ⟨value, hvalue⟩
    have hbase : base ≠ 0 := by
      rintro rfl
      exact hnone ⟨0, zero_pow hden.ne'⟩
    exact hnone (exists_root_of_pow_eq hbase
      (Int.isCoprime_iff_gcd_eq_one.2 exponent.reduced) hvalue)

/-- Within the limits, a power is worked out where the base has a root. -/
theorem power_eq {base exponent : Rat} (hnum : exponent.num.natAbs ≤ maxExponent)
    (hden : exponent.den ≤ maxExponent) (hzero : ¬(base = 0 ∧ exponent < 0)) :
    power base exponent =
      match exactRoot base exponent.den with
      | some root => .ok (root ^ exponent.num)
      | none => .error (.inexactPower base exponent) := by
  have hwhole {root : Rat} (hroot : root ^ exponent.den = base) :
      integerPower root exponent.num = .ok (root ^ exponent.num) := by
    refine integerPower_eq hnum fun h => hzero ⟨?_, Rat.num_neg.1 h.2⟩
    rw [← hroot, h.1, zero_pow exponent.den_nz]
  rw [power]
  split
  · rename_i hone
    have hroot : exactRoot base exponent.den = some base :=
      (exactRoot_eq_some exponent.den_pos).2 (by simp [hone])
    rw [hroot, hwhole (by rw [hone, pow_one])]
  · rw [if_neg hden.not_gt]
    cases hroot : exactRoot base exponent.den with
    | none => rfl
    | some root => exact hwhole ((exactRoot_eq_some exponent.den_pos).1 hroot).1

/-- The power of a base to an exponent `p / q` in lowest terms is the value `v` with
`v ^ q = b ^ p`, and of two such values the one that is not negative; it is refused as inexact if
and only if no rational is such a value. -/
theorem power_eq_iff {base exponent : Rat} (hnum : exponent.num.natAbs ≤ maxExponent)
    (hden : exponent.den ≤ maxExponent) (hzero : ¬(base = 0 ∧ exponent < 0)) :
    (∀ value, power base exponent = .ok value ↔
      value ^ exponent.den = base ^ exponent.num ∧ (Even exponent.den → 0 ≤ value)) ∧
    (power base exponent = .error (.inexactPower base exponent) ↔
      ¬ ∃ value : Rat, value ^ exponent.den = base ^ exponent.num) := by
  simp only [← exactRoot_eq_some exponent.den_pos, ← exactRoot_eq_none exponent.den_pos,
    exactRoot_zpow, power_eq hnum hden hzero]
  cases exactRoot base exponent.den <;> simp

/-- `(-8 / 27) ^ (-2 / 3)` is `9 / 4`, from the cube root of a negative base. -/
theorem power_eq_iff_cube_root :
    (-2 / 3 : Rat).num.natAbs ≤ maxExponent ∧ (-2 / 3 : Rat).den ≤ maxExponent ∧
      ¬((-8 / 27 : Rat) = 0 ∧ (-2 / 3 : Rat) < 0) ∧
      power (-8 / 27) (-2 / 3) = .ok (9 / 4) := by
  have hnum : (-2 / 3 : Rat).num.natAbs ≤ maxExponent := by decide +kernel
  have hden : (-2 / 3 : Rat).den ≤ maxExponent := by decide +kernel
  have hzero : ¬((-8 / 27 : Rat) = 0 ∧ (-2 / 3 : Rat) < 0) := by decide +kernel
  exact ⟨hnum, hden, hzero, ((power_eq_iff hnum hden hzero).1 (9 / 4)).2 (by decide +kernel)⟩

end OneUnknown.Rational
