import OneUnknown.Rational.Power
import Mathlib.Algebra.Order.Field.Rat
import Mathlib.Algebra.Order.Field.Basic
import Mathlib.Data.Rat.Lemmas
import Mathlib.Tactic.Ring
/-!
# Exact roots

* `Rational.floorRoot_spec`: the integer part of a root;
* `Rational.exactNatRoot_eq_some_iff` and `Rational.exactRoot_eq_some_iff`: a root is found exactly
  when there is one.
-/

namespace OneUnknown.Rational

theorem natPower_eq (base n : Nat) : natPower base n = base ^ n := by
  rw [natPower]
  split
  · rename_i h
    obtain rfl | rfl : base = 0 ∨ base = 1 := by omega
    · rw [zero_pow_eq]
    · simp
  · rfl

/-- The invariant of the bits of a root: it is at least `root`, and below what `root` can still
become. -/
theorem rootBits_spec {value n k root : Nat} (hbelow : root ^ n ≤ value)
    (habove : value < (root + 2 ^ k) ^ n) :
    rootBits value n k root ^ n ≤ value ∧ value < (rootBits value n k root + 1) ^ n := by
  induction k generalizing root with
  | zero => exact ⟨hbelow, habove⟩
  | succ k ih =>
    rw [rootBits]
    rw [natPower_eq]
    split
    · rename_i hle
      refine ih hle ?_
      rwa [Nat.add_assoc, show Nat.pow 2 k + 2 ^ k = 2 ^ (k + 1) from (Nat.two_pow_succ k).symm]
    · rename_i hlt
      exact ih hbelow (not_le.1 hlt)

theorem floorRoot_spec (value : Nat) {n : Nat} (hn : 0 < n) :
    floorRoot value n ^ n ≤ value ∧ value < (floorRoot value n + 1) ^ n := by
  refine rootBits_spec (by simp [hn.ne']) ?_
  have hbits : value.log2 + 1 ≤ (value.log2 / n + 1) * n := by
    rw [Nat.add_mul, Nat.one_mul]
    have := Nat.div_add_mod' value.log2 n
    have := Nat.mod_lt value.log2 hn
    omega
  calc value < 2 ^ (value.log2 + 1) := Nat.lt_log2_self
    _ ≤ 2 ^ ((value.log2 / n + 1) * n) := Nat.pow_le_pow_right (by decide) hbits
    _ = (0 + 2 ^ (value.log2 / n + 1)) ^ n := by rw [Nat.zero_add, pow_mul]

/-- The root of a natural number is found exactly when it is one. -/
theorem exactNatRoot_eq_some_iff {value n root : Nat} (hn : 0 < n) :
    exactNatRoot value n = some root ↔ root ^ n = value := by
  rw [exactNatRoot]
  rw [natPower_eq]
  constructor
  · intro h
    split at h
    · rename_i heq
      exact Option.some.inj h ▸ heq
    · cases h
  · rintro rfl
    obtain ⟨hbelow, habove⟩ := floorRoot_spec (root ^ n) hn
    have hle := (Nat.pow_le_pow_iff_left hn.ne').1 hbelow
    have hlt := (Nat.pow_lt_pow_iff_left hn.ne').1 habove
    have heq : floorRoot (root ^ n) n = root := by omega
    rw [heq, if_pos rfl]

/-- The root of a value that is not negative is found exactly when it is a rational. -/
theorem exactRoot_eq_some_iff {value root : Rat} {n : Nat} (hvalue : 0 ≤ value) (hn : 0 < n) :
    exactRoot value n = some root ↔ 0 ≤ root ∧ root ^ n = value := by
  have hnum : ((value.num.natAbs : Nat) : Rat) = value.num := by
    rw [← Int.cast_natCast, Int.natAbs_of_nonneg (Rat.num_nonneg.2 hvalue)]
  rw [exactRoot, if_neg (by simp [hn.ne', hvalue.not_gt])]
  simp only [hvalue.not_gt, ite_false, Option.bind_eq_bind, Option.bind_eq_some_iff,
    exactNatRoot_eq_some_iff hn, Option.some.injEq]
  constructor
  · rintro ⟨top, htop, bottom, hbottom, rfl⟩
    refine ⟨div_nonneg (Nat.cast_nonneg top) (Nat.cast_nonneg bottom), ?_⟩
    rw [div_pow, ← Nat.cast_pow, ← Nat.cast_pow, htop, hbottom, hnum, Rat.num_div_den]
  · rintro ⟨hroot, rfl⟩
    refine ⟨root.num.natAbs, by rw [Rat.num_pow, Int.natAbs_pow], root.den, (Rat.den_pow _ _).symm,
      ?_⟩
    rw [← Int.cast_natCast, Int.natAbs_of_nonneg (Rat.num_nonneg.2 hroot), Rat.num_div_den]

end OneUnknown.Rational
