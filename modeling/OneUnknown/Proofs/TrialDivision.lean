import OneUnknown.Rational.Divisors
import Mathlib.NumberTheory.Divisors
/-!
# Trial division

The search for divisors stops at the square root, and the other divisors are the cofactors of those
that it has found.  That is complete: of a divisor and its cofactor one is not above the square root.

The search squares every candidate, and the first one above the square root, too.  In machine words
that is possible only below `wordSearchEnd`, however large the limit is.

* `Rational.mem_trialDivisors`, `Rational.pairwise_trialDivisors`: what the search finds;
* `Rational.mem_natDivisors`, `Rational.pairwise_natDivisors`: all divisors, ascending;
* `Rational.wordDivisors_eq`: the search in machine words finds the same, or overflows;
* `Rational.wrapped_square_le`: a number for which it would not end if squares wrapped around;
* `Rational.divisors_in_words`: the divisors of a coefficient, and where they are found in machine
  words.
-/

namespace OneUnknown.Rational

variable {n fuel candidate d : Nat}

/-! ## The search -/

/-- The search finds the divisors from the first candidate up to the square root. -/
theorem mem_trialDivisors : d ∈ trialDivisors n fuel candidate ↔
    (candidate ≤ d ∧ d < candidate + fuel) ∧ d * d ≤ n ∧ d ∣ n := by
  induction fuel generalizing candidate with
  | zero =>
    simp only [trialDivisors, List.not_mem_nil, false_iff]
    omega
  | succ fuel ih =>
    have hnext : (candidate ≤ d ∧ d < candidate + (fuel + 1)) ↔
        d = candidate ∨ (candidate + 1 ≤ d ∧ d < candidate + 1 + fuel) := by omega
    rw [trialDivisors, hnext, or_and_right]
    split
    · rename_i hsquare
      split
      · rename_i hmod
        rw [List.mem_cons, ih]
        refine or_congr ⟨fun heq => ⟨heq, ?_⟩, And.left⟩ .rfl
        exact heq ▸ ⟨hsquare, Nat.dvd_of_mod_eq_zero hmod⟩
      · rename_i hmod
        rw [ih]
        refine ⟨.inr, fun h => h.resolve_left ?_⟩
        rintro ⟨rfl, -, hdvd⟩
        exact hmod (Nat.mod_eq_zero_of_dvd hdvd)
    · rename_i hsquare
      simp only [List.not_mem_nil, false_iff]
      -- From the first candidate on all squares are too large.
      rintro (⟨rfl, hle, -⟩ | ⟨⟨hle, -⟩, hsmall, -⟩)
      · exact hsquare hle
      · exact hsquare ((Nat.mul_le_mul (by omega) (by omega)).trans hsmall)

theorem pairwise_trialDivisors (n fuel candidate : Nat) :
    (trialDivisors n fuel candidate).Pairwise (· < ·) := by
  induction fuel generalizing candidate with
  | zero => exact .nil
  | succ fuel ih =>
    rw [trialDivisors]
    split
    · split
      · exact List.pairwise_cons.2 ⟨fun d hd => (mem_trialDivisors.1 hd).1.1, ih _⟩
      · exact ih _
    · exact .nil

/-! ## All divisors -/

/-- The divisors up to the square root. -/
theorem mem_trialDivisors_one : d ∈ trialDivisors n n 1 ↔ 0 < d ∧ d * d ≤ n ∧ d ∣ n := by
  rw [mem_trialDivisors]
  constructor
  · rintro ⟨⟨hpos, -⟩, h⟩
    exact ⟨hpos, h⟩
  · rintro ⟨hpos, hsquare, hdvd⟩
    have : d ≤ d * d := Nat.le_mul_self d
    exact ⟨by omega, hsquare, hdvd⟩

/-- The divisors below the square root, whose cofactors are above it. -/
theorem mem_cofactored : d ∈ ((trialDivisors n n 1).filter fun d => d * d < n).reverse ↔
    0 < d ∧ d * d < n ∧ d ∣ n := by
  rw [List.mem_reverse, List.mem_filter, mem_trialDivisors_one, decide_eq_true_eq]
  exact ⟨fun ⟨⟨hpos, _, hdvd⟩, hlt⟩ => ⟨hpos, hlt, hdvd⟩,
    fun ⟨hpos, hlt, hdvd⟩ => ⟨⟨hpos, hlt.le, hdvd⟩, hlt⟩⟩

/-- Of a divisor and its cofactor one is not above the square root. -/
theorem mem_natDivisors (hn : n ≠ 0) : d ∈ natDivisors n ↔ d ∈ n.divisors := by
  rw [natDivisors, withCofactors, List.mem_append, mem_trialDivisors_one, List.mem_map, Nat.mem_divisors]
  simp only [mem_cofactored]
  constructor
  · rintro (⟨-, -, hdvd⟩ | ⟨e, ⟨-, -, he⟩, rfl⟩)
    · exact ⟨hdvd, hn⟩
    · exact ⟨Nat.div_dvd_of_dvd he, hn⟩
  · rintro ⟨⟨e, rfl⟩, -⟩
    obtain ⟨hd, he⟩ : 0 < d ∧ 0 < e := by
      constructor <;> refine Nat.pos_of_ne_zero ?_ <;> rintro rfl <;> simp at hn
    rcases le_or_gt d e with hle | hlt
    · exact .inl ⟨hd, Nat.mul_le_mul_left d hle, Nat.dvd_mul_right d e⟩
    · exact .inr ⟨e, ⟨he, Nat.mul_lt_mul_of_pos_right hlt he, Nat.dvd_mul_left e d⟩,
        Nat.mul_div_cancel d he⟩

theorem pairwise_natDivisors (hn : n ≠ 0) : (natDivisors n).Pairwise (· < ·) := by
  refine List.pairwise_append.2 ⟨pairwise_trialDivisors n n 1, ?_, fun d hd other hother => ?_⟩
  · -- The cofactors descend as the divisors ascend.
    have hdescends := List.pairwise_reverse.2
      ((pairwise_trialDivisors n n 1).filter fun d => decide (d * d < n))
    refine List.pairwise_map.2 (hdescends.imp_of_mem fun {d e} hd he hlt => ?_)
    exact (Nat.div_lt_div_left hn (mem_cofactored.1 hd).2.2 (mem_cofactored.1 he).2.2).2 hlt
  · obtain ⟨e, he, rfl⟩ := List.mem_map.1 hother
    obtain ⟨-, hd, -⟩ := mem_trialDivisors_one.1 hd
    obtain ⟨hpos, hsmall, k, rfl⟩ := mem_cofactored.1 he
    rw [Nat.mul_div_cancel_left k hpos]
    have hek : e < k := lt_of_mul_lt_mul_left hsmall (Nat.zero_le e)
    exact Nat.mul_self_lt_mul_self_iff.1 (hd.trans_lt (Nat.mul_lt_mul_of_pos_right hek (by omega)))

/-! ## Machine words -/

/-- Where the search in machine words ends: at the largest square that fits into a word. -/
def wordSearchEnd : Nat := (2 ^ 32 - 1) ^ 2

/-- The first square that is too large for `n` fits into a word. -/
theorem square_lt_size_iff : (n.sqrt + 1) * (n.sqrt + 1) < UInt64.size ↔ n < wordSearchEnd := by
  rw [show UInt64.size = 2 ^ 32 * 2 ^ 32 from rfl, Nat.mul_self_lt_mul_self_iff, wordSearchEnd,
    ← Nat.sqrt_lt', Nat.lt_sub_iff_add_lt]

/-- Below the end the search in machine words is the search. -/
theorem wordTrialDivisors_eq_some (hn : n < wordSearchEnd) (hcandidate : candidate ≤ n.sqrt + 1) :
    wordTrialDivisors n fuel candidate = some (trialDivisors n fuel candidate) := by
  induction fuel generalizing candidate with
  | zero => rfl
  | succ fuel ih =>
    have hsize : candidate * candidate < UInt64.size :=
      (Nat.mul_le_mul hcandidate hcandidate).trans_lt (square_lt_size_iff.2 hn)
    rw [wordTrialDivisors, trialDivisors, if_neg (not_le.2 hsize)]
    split
    · rename_i hsquare
      rw [ih (Nat.succ_le_succ (Nat.le_sqrt.2 hsquare))]
      split <;> rfl
    · rfl

/-- From the end on it needs a square that does not fit into a word. -/
theorem wordTrialDivisors_eq_none (hn : wordSearchEnd ≤ n) (hcandidate : candidate ≤ n.sqrt + 1)
    (hfuel : n.sqrt + 1 < candidate + fuel) : wordTrialDivisors n fuel candidate = none := by
  induction fuel generalizing candidate with
  | zero => omega
  | succ fuel ih =>
    rw [wordTrialDivisors]
    split
    · rfl
    · rename_i hsize
      have hlt : candidate < n.sqrt + 1 := Nat.mul_self_lt_mul_self_iff.1
        ((not_le.1 hsize).trans_le (not_lt.1 (mt square_lt_size_iff.1 (not_lt.2 hn))))
      rw [if_pos (Nat.le_sqrt.1 (Nat.le_of_lt_succ hlt)), ih hlt (by omega)]
      split <;> rfl

/-- The whole search. -/
theorem wordTrialDivisors_one (n : Nat) : wordTrialDivisors n n 1 =
    if n < wordSearchEnd then some (trialDivisors n n 1) else none := by
  split
  · rename_i hend
    exact wordTrialDivisors_eq_some hend (Nat.le_add_left 1 _)
  · rename_i hend
    have hsqrt : n.sqrt < n :=
      Nat.sqrt_lt_self (lt_of_lt_of_le (by decide) (not_lt.1 hend))
    exact wordTrialDivisors_eq_none (not_lt.1 hend) (Nat.le_add_left 1 _) (by omega)

/-- In machine words the same divisors are found, or the search overflows: it does for an integer
below the limit, from the end on. -/
theorem wordDivisors_eq (value : Rat) (limit : Nat) : wordDivisors value limit =
    if value.den = 1 ∧ wordSearchEnd ≤ value.num.natAbs ∧ value.num.natAbs < limit then none
    else some (divisors value limit) := by
  have hpos : ¬wordSearchEnd ≤ 0 := by decide
  rw [wordDivisors, divisors]
  split
  · rename_i hzero
    rw [if_neg (by simp [hzero, hpos])]
  · split
    · rename_i hden
      rw [if_neg fun h => hden h.1]
    · rename_i hden
      split
      · rename_i hlimit
        rw [if_neg fun h => not_le.2 h.2.2 hlimit]
      · rename_i hlimit
        rw [wordTrialDivisors_one]
        split
        · rename_i hend
          rw [if_neg fun h => not_lt.2 h.2.1 hend]
          rfl
        · rename_i hend
          rw [if_pos ⟨not_not.1 hden, not_lt.1 hend, not_le.1 hlimit⟩]
          rfl

theorem divisors_of_wordDivisors {value : Rat} {limit : Nat} {found : Divisors}
    (h : wordDivisors value limit = some found) : divisors value limit = found := by
  rw [wordDivisors_eq] at h
  split at h
  · cases h
  · exact Option.some.inj h

/-- With a limit up to the end of the search there is no overflow. -/
theorem wordDivisors_ne_none {limit : Nat} (hlimit : limit ≤ wordSearchEnd) (value : Rat) :
    wordDivisors value limit ≠ none := by
  rw [wordDivisors_eq, if_neg fun h => not_lt.2 (hlimit.trans h.2.1) h.2.2]
  exact Option.some_ne_none _

theorem wordDivisors_natCast_eq_none {n limit : Nat} (hend : wordSearchEnd ≤ n) (hlimit : n < limit) :
    wordDivisors n limit = none := by
  rw [wordDivisors_eq, Rat.num_natCast, Int.natAbs_natCast]
  exact if_pos ⟨Rat.den_natCast n, hend, hlimit⟩

/-- No square wraps around to the largest word, which is three modulo four. -/
theorem wrapped_square_le (candidate : UInt64) :
    candidate * candidate ≤ UInt64.ofNat (2 ^ 64 - 2) := by
  have hfour : ∀ r < 4, r * r % 4 ≠ 3 := by decide
  have hsquare : candidate.toNat * candidate.toNat % 4 ≠ 3 := by
    rw [Nat.mul_mod]
    exact hfour _ (Nat.mod_lt _ (by decide))
  have hlast : (UInt64.ofNat (2 ^ 64 - 2)).toNat = 2 ^ 64 - 2 := by decide
  rw [UInt64.le_iff_toNat_le, UInt64.toNat_mul, hlast]
  omega

/-- The divisors of an integer whose magnitude is below the limit are those that are found, each
once and in order.  In machine words they are found below the end of the search, and from there on
nothing is, because of a square that does not fit into a word. -/
theorem divisors_in_words {value : Int} {limit : UInt64} (hzero : value ≠ 0)
    (hlimit : value.natAbs < limit.toNat) :
    (∃ found, divisors (value : Rat) limit.toNat = .known found ∧ found.Pairwise (· < ·) ∧
      ∀ d, d ∈ found ↔ d ∈ value.natAbs.divisors) ∧
    wordTrialDivisors value.natAbs value.natAbs 1 =
      (if value.natAbs < wordSearchEnd then some (trialDivisors value.natAbs value.natAbs 1)
      else none) ∧
    wordDivisors (value : Rat) limit.toNat =
      if value.natAbs < wordSearchEnd then some (divisors (value : Rat) limit.toNat) else none := by
  have hne : value.natAbs ≠ 0 := Int.natAbs_ne_zero.2 hzero
  refine ⟨⟨natDivisors value.natAbs, ?_, pairwise_natDivisors hne, fun d => mem_natDivisors hne⟩,
    wordTrialDivisors_one _, ?_⟩
  · rw [divisors, if_neg (by exact_mod_cast hzero), if_neg (by simp), Rat.num_intCast,
      if_neg (not_le.2 hlimit)]
  · rw [wordDivisors_eq, Rat.num_intCast]
    split
    · rename_i h
      rw [if_neg (not_lt.2 h.2.1)]
    · rename_i h
      rw [if_pos (not_le.1 fun hend => h ⟨Rat.den_intCast _, hend, hlimit⟩)]

/-- With the largest limit there is, the last number whose divisors are found in machine words is
searched, and the one behind it is not. -/
theorem divisors_in_words_last :
    ((wordSearchEnd - 1 : Nat) : Int).natAbs < (UInt64.ofNat (2 ^ 64 - 1)).toNat ∧
    (∃ found, divisors (((wordSearchEnd - 1 : Nat) : Int) : Rat)
        (UInt64.ofNat (2 ^ 64 - 1)).toNat = .known found ∧ 4294967294 ∈ found) ∧
    (∃ small, wordTrialDivisors (wordSearchEnd - 1) (wordSearchEnd - 1) 1 = some small) ∧
    wordTrialDivisors wordSearchEnd wordSearchEnd 1 = none ∧
    wordDivisors (((wordSearchEnd : Nat) : Int) : Rat) (UInt64.ofNat (2 ^ 64 - 1)).toNat = none := by
  have hlast : ((wordSearchEnd - 1 : Nat) : Int).natAbs < (UInt64.ofNat (2 ^ 64 - 1)).toNat := by
    decide
  have hend : ((wordSearchEnd : Nat) : Int).natAbs < (UInt64.ofNat (2 ^ 64 - 1)).toNat := by
    decide
  obtain ⟨⟨found, hfound, -, hmem⟩, hwords, -⟩ := divisors_in_words (by decide) hlast
  obtain ⟨-, hnone, hnone'⟩ := divisors_in_words (by decide) hend
  refine ⟨hlast, ⟨found, hfound, (hmem _).2 ?_⟩, ⟨_, hwords.trans (if_pos (by decide))⟩,
    hnone.trans (if_neg (by decide)), hnone'.trans (if_neg (by decide))⟩
  exact Nat.mem_divisors.2 ⟨by decide, by decide⟩

/-- The largest magnitude below a limit is too large for the search in machine words.  With squares
that wrap around the search would never end. -/
theorem wordTrialDivisors_overflow :
    ((2 ^ 64 - 2 : Nat) : Int) ≠ 0 ∧
    ((2 ^ 64 - 2 : Nat) : Int).natAbs < (UInt64.ofNat (2 ^ 64 - 1)).toNat ∧
    wordTrialDivisors ((2 ^ 64 - 2 : Nat) : Int).natAbs ((2 ^ 64 - 2 : Nat) : Int).natAbs 1 = none ∧
    ∀ candidate : UInt64, candidate * candidate ≤ UInt64.ofNat (2 ^ 64 - 2) := by
  refine ⟨by decide, by decide, ?_, wrapped_square_le⟩
  exact (wordTrialDivisors_one _).trans (if_neg (by decide))

end OneUnknown.Rational
