import OneUnknown.Proofs.Meaning
import OneUnknown.Proofs.Powers
/-!
# Powers of one base

Where a base has two powers with rational exponents, it has the power whose exponent is their sum,
and this is the product of both.  Roots are real here: `(-32768) ^ (1 / 3)` is `-32`.

* `Rational.exactPower?_eq_some`: the powers of a base by its roots;
* `Rational.exists_root_of_roots`: two roots of one base are powers of one root;
* `Rational.exactPower?_add`: the sum of two exponents.
-/

namespace OneUnknown.Rational

/-- A power is a whole power of a root, and there are no negative powers of zero. -/
theorem exactPower?_eq_some {base exponent value : Rat} :
    exactPower? base exponent = some value ↔
      ∃ root, (root ^ exponent.den = base ∧ (Even exponent.den → 0 ≤ root)) ∧
        ¬(root = 0 ∧ exponent < 0) ∧ root ^ exponent.num = value := by
  simp only [← exactRoot_eq_some exponent.den_pos]
  rw [exactPower?]
  split
  · rename_i hden
    have hroot : exactRoot base exponent.den = some base :=
      (exactRoot_eq_some exponent.den_pos).2 (by simp [hden])
    simp [hroot]
  · cases exactRoot base exponent.den <;> simp

theorem exactPower?_zero {exponent value : Rat} :
    exactPower? 0 exponent = some value ↔ 0 ≤ exponent ∧ value = if exponent = 0 then 1 else 0 := by
  rw [exactPower?_eq_some]
  constructor
  · rintro ⟨root, ⟨hroot, -⟩, hneg, rfl⟩
    obtain rfl : root = 0 := pow_eq_zero_iff exponent.den_nz |>.1 hroot
    exact ⟨not_lt.1 fun h => hneg ⟨rfl, h⟩, by simp [zero_zpow_eq]⟩
  · rintro ⟨hpos, rfl⟩
    exact ⟨0, ⟨zero_pow exponent.den_nz, fun _ => le_rfl⟩, fun h => h.2.not_ge hpos,
      by simp [zero_zpow_eq]⟩

/-- With `a * m + c * n = 1`, the product of the `a`-th power of `r` and the `c`-th power of `t` is an
`m`-th root of `r`, if the `n`-th power of `r` is the `m`-th power of `t`. -/
theorem zpow_mul_zpow_pow {r t : Rat} {m n : Nat} {a c : Int} (hr : r ≠ 0)
    (hbezout : a * m + c * n = 1) (h : r ^ n = t ^ m) : (r ^ a * t ^ c) ^ m = r := by
  have ht : (t ^ c) ^ m = r ^ (c * n) := by
    rw [← zpow_natCast, zpow_comm, zpow_natCast, ← h, ← zpow_natCast, zpow_comm, zpow_mul]
  calc (r ^ a * t ^ c) ^ m
      = r ^ (a * m) * r ^ (c * n) := by rw [mul_pow, ht, zpow_mul r a, zpow_natCast]
    _ = r := by rw [← zpow_add₀ hr, hbezout, zpow_one]

theorem exists_common_root {r t : Rat} {m n : Nat} (hr : r ≠ 0) (ht : t ≠ 0)
    (hcoprime : m.Coprime n) (h : r ^ n = t ^ m) : ∃ s : Rat, s ^ m = r ∧ s ^ n = t := by
  obtain ⟨a, c, hbezout⟩ := Nat.isCoprime_iff_coprime.2 hcoprime
  refine ⟨r ^ a * t ^ c, zpow_mul_zpow_pow hr hbezout h, ?_⟩
  rw [mul_comm]
  exact zpow_mul_zpow_pow ht (by rwa [add_comm]) h.symm

/-- Roots of one base, of the orders `p.den` and `q.den`, are powers of one root of the base, whose
order is a multiple of both; of two even roots, that one is positive. -/
theorem exists_root_of_roots {base r t : Rat} {b d : Nat} (hb : 0 < b) (hd : 0 < d)
    (hbase : base ≠ 0) (hr : r ^ b = base) (hrsign : Even b → 0 ≤ r) (ht : t ^ d = base)
    (htsign : Even d → 0 ≤ t) :
    ∃ (s : Rat) (m n : Nat), s ≠ 0 ∧ s ^ m = r ∧ s ^ n = t ∧ b * m = d * n ∧
      (Even (b * m) → 0 < s) := by
  obtain ⟨n, m, hcoprime, hbg, hdg⟩ := Nat.exists_coprime b d
  generalize b.gcd d = g at hbg hdg
  subst hbg hdg
  have hr0 : r ≠ 0 := fun h => hbase (by rw [← hr, h, zero_pow hb.ne'])
  have ht0 : t ≠ 0 := fun h => hbase (by rw [← ht, h, zero_pow hd.ne'])
  have hpow : r ^ n = t ^ m := by
    have hg : (r ^ n) ^ g = (t ^ m) ^ g := by rw [← pow_mul, ← pow_mul, hr, ht]
    rcases Nat.even_or_odd g with heven | hodd
    · have hgne : g ≠ 0 := by
        rintro rfl
        simp at hb
      exact (pow_left_inj₀ (pow_nonneg (hrsign (heven.mul_left n)) n)
        (pow_nonneg (htsign (heven.mul_left m)) m) hgne).1 hg
    · exact hodd.strictMono_pow.injective hg
  obtain ⟨s, rfl, rfl⟩ := exists_common_root hr0 ht0 hcoprime.symm hpow
  have hm : m ≠ 0 := by
    rintro rfl
    simp at hd
  refine ⟨s, m, n, ne_zero_pow hm hr0, rfl, rfl, by ring, fun heven => ?_⟩
  -- One of the two orders is odd, and the root of the other order is positive if the base has
  -- even roots.
  have hpos {k : Nat} {v : Rat} (hk : Odd k) (hv : s ^ k = v) (hsign : 0 ≤ v) (hne : v ≠ 0) : 0 < s :=
    hk.pow_pos_iff.1 (hv ▸ hsign.lt_of_ne' hne)
  rcases Nat.even_or_odd m with hm | hm
  · have hn : Odd n := by
      refine Nat.not_even_iff_odd.1 fun hn => ?_
      have htwo := Nat.dvd_gcd hn.two_dvd hm.two_dvd
      rw [hcoprime] at htwo
      exact absurd htwo (by decide)
    exact hpos hn rfl (htsign (hm.mul_right g)) ht0
  · have hb : Even (n * g) := (Nat.even_mul.1 heven).resolve_right (Nat.not_even_iff_odd.2 hm)
    exact hpos hm rfl (hrsign hb) hr0

/-- The product of two powers of one base is the power whose exponent is the sum of both. -/
theorem exactPower?_add {base p q u w : Rat} (hp : exactPower? base p = some u)
    (hq : exactPower? base q = some w) : exactPower? base (p + q) = some (u * w) := by
  by_cases hbase : base = 0
  · subst hbase
    obtain ⟨hp0, rfl⟩ := exactPower?_zero.1 hp
    obtain ⟨hq0, rfl⟩ := exactPower?_zero.1 hq
    refine exactPower?_zero.2 ⟨add_nonneg hp0 hq0, ?_⟩
    simp only [add_eq_zero_iff_of_nonneg hp0 hq0]
    split_ifs <;> simp_all
  · obtain ⟨r, ⟨hr, hrsign⟩, -, rfl⟩ := exactPower?_eq_some.1 hp
    obtain ⟨t, ⟨ht, htsign⟩, -, rfl⟩ := exactPower?_eq_some.1 hq
    obtain ⟨s, m, n, hs, rfl, rfl, horder, hsign⟩ :=
      exists_root_of_roots p.den_pos q.den_pos hbase hr hrsign ht htsign
    -- The denominator of the sum divides the order of the common root.
    obtain ⟨k, hk⟩ : (p + q).den ∣ p.den * m :=
      (Rat.add_den_dvd_lcm p q).trans (Nat.lcm_dvd ⟨m, rfl⟩ ⟨n, horder⟩)
    have hnum : (p + q).num * k = p.num * m + q.num * n := by
      have horder' : (p.den * m : Rat) = q.den * n := by exact_mod_cast horder
      have hk' : (p.den * m : Rat) = (p + q).den * k := by exact_mod_cast hk
      have hcast : ((p + q).num * k : Rat) = p.num * m + q.num * n := by
        rw [← Rat.mul_den_eq_num (p + q), ← Rat.mul_den_eq_num p, ← Rat.mul_den_eq_num q, mul_assoc,
          ← hk', add_mul, mul_assoc p, mul_assoc q, ← horder']
      exact_mod_cast hcast
    refine exactPower?_eq_some.2 ⟨s ^ k, ⟨?_, fun heven => ?_⟩, ?_, ?_⟩
    · rw [← pow_mul, mul_comm, ← hk, mul_comm, pow_mul, hr]
    · exact (pow_pos (hsign (hk ▸ heven.mul_right k)) k).le
    · exact fun h => pow_ne_zero k hs h.1
    · calc (s ^ k) ^ (p + q).num
          = s ^ ((p + q).num * k) := by rw [mul_comm, zpow_mul, zpow_natCast]
        _ = (s ^ m) ^ p.num * (s ^ n) ^ q.num := by
          rw [hnum, zpow_add₀ hs, mul_comm p.num, mul_comm q.num, zpow_mul, zpow_mul, zpow_natCast,
            zpow_natCast]

end OneUnknown.Rational
