import OneUnknown.Text.Level
import Mathlib.Algebra.Order.Field.Rat
import Mathlib.Algebra.Order.Ring.Abs
import Mathlib.Data.Nat.Prime.Basic
import Mathlib.Data.Rat.Floor
import Mathlib.Tactic.FieldSimp
import Mathlib.Tactic.Linarith
import Mathlib.Tactic.Ring
/-!
# Decimals

A value whose decimal expansion ends is written exactly, and the digits of its text, read one at a
time, give the value back.

* `Rational.IsDecimal`: the decimal expansion ends;
* `Rational.terminatingPlaces_of_dvd`: the places of such a value are found;
* `Rational.exists_digits_of_isDecimal`: what its text looks like, and what the digits are worth;
* `Draft.addDigits_whole`, `Draft.addDigits_part`: the number that a term has after some digits;
* `Number.eq_ofRat_withSign`: a number is determined by its value below the decimal point and above.
-/

namespace OneUnknown

open Nat (ofDigitChars)

namespace Rational

/-- A value that is a whole number of some decimal place. -/
def IsDecimal (value : Rat) : Prop := ∃ (digits : Int) (places : Nat), value * 10 ^ places = digits

theorem isDecimal_natCast (n : Nat) : IsDecimal n := ⟨n, 0, by simp⟩

theorem IsDecimal.add {value value' : Rat} (h : IsDecimal value) (h' : IsDecimal value') :
    IsDecimal (value + value') := by
  obtain ⟨digits, places, heq⟩ := h
  obtain ⟨digits', places', heq'⟩ := h'
  refine ⟨digits * 10 ^ places' + digits' * 10 ^ places, places + places', ?_⟩
  push_cast
  rw [← heq, ← heq']
  ring

/-- The value of a digit behind the decimal point. -/
theorem isDecimal_digit (digit places : Nat) : IsDecimal ((digit : Rat) * (10 ^ places)⁻¹) :=
  ⟨digit, places, by rw [inv_mul_cancel_right₀ (by positivity), Int.cast_natCast]⟩

theorem IsDecimal.den_dvd {value : Rat} (h : IsDecimal value) :
    ∃ places, value.den ∣ 10 ^ places := by
  obtain ⟨digits, places, heq⟩ := h
  refine ⟨places, ?_⟩
  have hvalue : value = Rat.divInt digits ((10 ^ places : Nat) : Int) := by
    rw [Rat.divInt_eq_div, ← heq]
    push_cast
    rw [mul_div_cancel_right₀ _ (by positivity)]
  rw [hvalue]
  exact Int.natCast_dvd_natCast.1 (Rat.den_dvd _ _)

/-! ## The places that are needed -/

theorem divideOut_spec {divisor : Nat} (hdivisor : 1 < divisor) {fuel n times rest : Nat}
    (hn : n ≠ 0)    (hfuel : n < divisor ^ fuel) (h : divideOut divisor fuel n = (times, rest)) :
    n = divisor ^ times * rest ∧ ¬ divisor ∣ rest := by
  induction fuel generalizing n times with
  | zero => exact absurd hfuel (by simpa using hn)
  | succ fuel ih =>
    rw [divideOut] at h
    split at h
    · rename_i hstep
      have hdvd := Nat.dvd_of_mod_eq_zero hstep.2
      have hquotient : n / divisor ≠ 0 :=
        (Nat.div_pos (Nat.le_of_dvd (Nat.pos_of_ne_zero hn) hdvd) (by omega)).ne'
      obtain ⟨rfl, rfl⟩ := Prod.mk.inj h
      obtain ⟨heq, hrest⟩ := ih hquotient
        (Nat.div_lt_of_lt_mul (by rwa [Nat.pow_succ, mul_comm] at hfuel)) rfl
      refine ⟨?_, hrest⟩
      rw [Nat.pow_succ, mul_right_comm, ← heq, Nat.div_mul_cancel hdvd]
    · rename_i hstop
      obtain ⟨rfl, rfl⟩ := Prod.mk.inj h
      exact ⟨by simp, fun hdvd => hstop ⟨hn, Nat.mod_eq_zero_of_dvd hdvd⟩⟩

theorem lt_pow_log2_succ {base n : Nat} (hbase : 2 ≤ base) : n < base ^ (n.log2 + 1) :=
  Nat.lt_log2_self.trans_le (Nat.pow_le_pow_left hbase _)

/-- A denominator that divides a power of ten has the places that are needed. -/
theorem terminatingPlaces_of_dvd {denominator k : Nat} (h : denominator ∣ 10 ^ k) :
    ∃ places, terminatingPlaces denominator = some places ∧ denominator ∣ 10 ^ places := by
  have hne : denominator ≠ 0 := fun hzero => by simp [hzero] at h
  cases htwos : divideOut 2 (denominator.log2 + 1) denominator with | mk twos odd =>
  obtain ⟨rfl, hodd⟩ := divideOut_spec (by norm_num) hne (lt_pow_log2_succ le_rfl) htwos
  cases hfives : divideOut 5 (odd.log2 + 1) odd with | mk fives rest =>
  obtain ⟨rfl, hrest⟩ := divideOut_spec (by norm_num) (right_ne_zero_of_mul hne)
    (lt_pow_log2_succ (by norm_num)) hfives
  have hcoprime : Nat.Coprime rest (2 * 5) := by
    have htwo : Nat.Coprime rest 2 :=
      (Nat.prime_two.coprime_iff_not_dvd.2 fun hdvd => hodd (hdvd.mul_left _)).symm
    exact htwo.mul_right (Nat.prime_five.coprime_iff_not_dvd.2 hrest).symm
  obtain rfl : rest = 1 :=
    (hcoprime.pow_right k).eq_one_of_dvd (((dvd_mul_left _ _).trans (dvd_mul_left _ _)).trans h)
  refine ⟨max twos fives, by simp only [terminatingPlaces, htwos, hfives, if_true], ?_⟩
  rw [mul_one, show 10 = 2 * 5 from rfl, Nat.mul_pow]
  exact Nat.mul_dvd_mul (Nat.pow_dvd_pow 2 (le_max_left _ _)) (Nat.pow_dvd_pow 5 (le_max_right _ _))

/-! ## The text -/

/-- Digits before and after the decimal point, and what they are worth together. -/
structure Spells (whole part : List Char) (value : Rat) : Prop where
  nonempty : whole ≠ []
  digits : ∀ c ∈ whole ++ part, c.isDigit = true
  value_eq : value = ofDigitChars 10 whole 0 + ofDigitChars 10 part 0 * (10 ^ part.length)⁻¹

/-- Digits with a decimal point at some place. -/
theorem exists_spells_positional {digits : List Char} {places : Nat} {value : Rat}
    (hne : digits ≠ []) (hdigits : ∀ c ∈ digits, c.isDigit = true)
    (hvalue : value * 10 ^ places = (ofDigitChars 10 digits 0 : Nat)) :
    ∃ whole part, Spells whole part value ∧
      Digits.positional ⟨digits, -(places : Int)⟩ =
        whole ++ (if part = [] then [] else '.' :: part) := by
  -- The point only separates the digits, so their value as one number decides.
  have hspells {whole part : List Char} (hwhole : whole ≠ [])
      (hall : ∀ c ∈ whole ++ part, c.isDigit = true) (hlength : part.length = places)
      (heq : ofDigitChars 10 (whole ++ part) 0 = ofDigitChars 10 digits 0) :
      Spells whole part value := by
    refine ⟨hwhole, hall, ?_⟩
    rw [← heq, Nat.ofDigitChars_append, Nat.ofDigitChars_eq_ofDigitChars_zero, hlength] at hvalue
    rw [hlength, ← mul_right_cancel_iff_of_pos (show (0 : Rat) < 10 ^ places by positivity), hvalue,
      add_mul, inv_mul_cancel_right₀ (by positivity)]
    push_cast
    ring
  simp only [Digits.positional]
  by_cases hplaces : places = 0
  · subst hplaces
    exact ⟨digits, [], hspells hne (by simpa using hdigits) rfl (by simp), by simp⟩
  · rw [if_neg (by omega)]
    by_cases hpoint : places < digits.length
    · have hpart : (digits.drop (digits.length - places)).length = places := by
        rw [List.length_drop]
        omega
      refine ⟨digits.take (digits.length - places), digits.drop (digits.length - places),
        hspells ?_ ?_ hpart ?_, ?_⟩
      · rw [← List.length_pos_iff, List.length_take]
        omega
      · simpa using hdigits
      · rw [List.take_append_drop]
      · have hnonempty : digits.drop (digits.length - places) ≠ [] := by
          rw [← List.length_pos_iff, hpart]
          omega
        have htoNat : ((digits.length : Int) + -(places : Int)).toNat = digits.length - places := by
          omega
        simp only [htoNat, if_neg hnonempty]
        rw [if_pos (by omega)]
    · refine ⟨['0'], List.replicate (places - digits.length) '0' ++ digits,
        hspells (by simp) ?_ (by simp; omega) ?_, ?_⟩
      · simp only [List.cons_append, List.nil_append, List.mem_cons, List.mem_append,
          List.mem_replicate]
        rintro c (rfl | ⟨-, rfl⟩ | hc)
        · rfl
        · rfl
        · exact hdigits c hc
      · simp [Nat.ofDigitChars_cons, Nat.ofDigitChars_append]
      · have htoNat :
            (-((digits.length : Int) + -(places : Int))).toNat = places - digits.length := by
          omega
        simp only [htoNat]
        rw [if_neg (by omega), if_neg (by simp [hne])]
        rfl

/-- The text of a decimal: its digits, with a point if there are some after it. -/
theorem exists_spells_of_isDecimal {value : Rat} (hvalue : 0 ≤ value) (h : IsDecimal value) :
    ∃ whole part, Spells whole part value ∧
      plainMagnitude value = whole ++ (if part = [] then [] else '.' :: part) := by
  obtain ⟨k, hdvd⟩ := h.den_dvd
  obtain ⟨places, hplaces, hdvd⟩ := terminatingPlaces_of_dvd hdvd
  obtain ⟨factor, hfactor⟩ := hdvd
  have hscaled : value.num.natAbs * Nat.pow 10 places / value.den = value.num.natAbs * factor := by
    rw [show Nat.pow 10 places = value.den * factor from hfactor, Nat.mul_left_comm,
      Nat.mul_div_cancel_left _ value.den_pos]
  have hnum : ((value.num.natAbs : Nat) : Rat) = value * value.den := by
    rw [Rat.mul_den_eq_num, ← Int.cast_natCast, Int.natAbs_of_nonneg (Rat.num_nonneg.2 hvalue)]
  simp only [plainMagnitude, hplaces, hscaled]
  refine exists_spells_positional Nat.toDigits_ne_nil
    (fun c hc => Nat.isDigit_of_mem_toDigits (by norm_num) le_rfl hc) ?_
  have hpow : (10 : Rat) ^ places = value.den * factor := mod_cast hfactor
  rw [natText, Nat.ofDigitChars_ten_toDigits, Nat.cast_mul, hnum, hpow, mul_assoc]

end Rational

/-! ## Reading the digits -/

theorem toNat_sub_lt_of_isDigit {c : Char} (h : c.isDigit = true) : c.toNat - '0'.toNat < 10 := by
  have hle : c.toNat ≤ 57 := by
    rw [Char.isDigit, Bool.and_eq_true, decide_eq_true_eq, decide_eq_true_eq] at h
    exact UInt32.le_iff_toNat_le.1 h.2
  rw [show '0'.toNat = 48 from rfl]
  omega

theorem ofDigitChars_lt {digits : List Char} (h : ∀ c ∈ digits, c.isDigit = true) :
    ofDigitChars 10 digits 0 < 10 ^ digits.length := by
  induction digits with
  | nil => simp
  | cons c rest ih =>
    have hfirst := toNat_sub_lt_of_isDigit (h c (.head _))
    have hrest := ih fun d hd => h d (.tail _ hd)
    rw [Nat.ofDigitChars_cons, Nat.ofDigitChars_eq_ofDigitChars_zero, List.length_cons,
      Nat.pow_succ]
    have hmul := Nat.mul_le_mul_left (10 ^ rest.length) (Nat.lt_succ_iff.1 hfirst)
    simp only [Nat.mul_zero, Nat.zero_add] at hmul ⊢
    omega

namespace Number

@[ext] theorem ext {n n' : Number} (hwhole : n.whole = n'.whole) (hpart : n.part = n'.part)
    (hnegative : n.negative = n'.negative) : n = n' := by
  cases n
  cases n'
  simp_all

/-- The number as it is read from its own digits. -/
def reread (n : Number) : Number := (ofRat n.magnitude).withSign n.negative

/-- The number with digits at the end of its whole part. -/
def addDigits (n : Number) (digits : List Char) : Number :=
  { n with whole := ofDigitChars 10 digits n.whole }

@[simp] theorem addDecimal_zero (n : Number) (place : Nat) : n.addDecimal place 0 = n :=
  Number.ext rfl (by simp [addDecimal]) rfl

theorem addDecimal_addDecimal (n : Number) (place : Nat) (c : Char) (rest : List Char) :
    (n.addDecimal (place + 1) (c.toNat - '0'.toNat)).addDecimal (place + 1 + rest.length)
        (ofDigitChars 10 rest 0) =
      n.addDecimal (place + (c :: rest).length) (ofDigitChars 10 (c :: rest) 0) := by
  refine Number.ext rfl ?_ rfl
  have hvalue : ofDigitChars 10 rest (c.toNat - '0'.toNat) =
      10 ^ rest.length * (c.toNat - '0'.toNat) + ofDigitChars 10 rest 0 :=
    Nat.ofDigitChars_eq_ofDigitChars_zero
  simp only [addDecimal, List.length_cons, Nat.ofDigitChars_cons, Nat.mul_zero, Nat.zero_add,
    hvalue]
  push_cast
  field_simp
  ring

end Number

namespace Draft

/-- The draft after some more digits. -/
def addDigits (d : Draft) (digits : List Char) : Draft :=
  digits.foldl (fun d c => d.addDigit (c.toNat - '0'.toNat)) d

theorem addDigits_cons (d : Draft) (c : Char) (rest : List Char) :
    d.addDigits (c :: rest) = (d.addDigit (c.toNat - '0'.toNat)).addDigits rest := rfl

/-- Digits of the whole part. -/
theorem addDigits_whole {d : Draft} (h : d.places = none) {digits : List Char} (hne : digits ≠ []) :
    d.addDigits digits =
      { d with number := d.number.addDigits digits, touched := true, hasDigits := true } := by
  induction digits generalizing d with
  | nil => exact absurd rfl hne
  | cons c rest ih =>
    have hfirst : d.addDigit (c.toNat - '0'.toNat) =
        { d with number := d.number.addDigits [c], touched := true, hasDigits := true } := by
      simp [addDigit, h, Number.addDigits, Number.addDigit, Nat.ofDigitChars_cons, Nat.mul_comm]
    by_cases hrest : rest = []
    · subst hrest
      exact hfirst
    · rw [addDigits_cons, ih (by rw [hfirst]; exact h) hrest, hfirst]
      simp [Number.addDigits, Nat.ofDigitChars_cons]

/-- Digits after the decimal point. -/
theorem addDigits_part {d : Draft} {places : Nat} (h : d.places = some places) {digits : List Char}
    (hne : digits ≠ []) :
    d.addDigits digits =
      { d with
        number := d.number.addDecimal (places + digits.length) (ofDigitChars 10 digits 0)
        places := some (places + digits.length)
        touched := true
        hasDigits := true } := by
  induction digits generalizing d places with
  | nil => exact absurd rfl hne
  | cons c rest ih =>
    have hfirst : d.addDigit (c.toNat - '0'.toNat) =
        { d with
          number := d.number.addDecimal (places + 1) (c.toNat - '0'.toNat)
          places := some (places + 1)
          touched := true
          hasDigits := true } := by
      simp [addDigit, h]
    by_cases hrest : rest = []
    · subst hrest
      simpa [addDigits, Nat.ofDigitChars_cons] using hfirst
    · rw [addDigits_cons, hfirst, ih rfl hrest]
      simp only [Number.addDecimal_addDecimal, List.length_cons]
      simp only [Nat.add_assoc, Nat.add_comm 1]

end Draft

/-- What is read from the digits of a decimal. -/
theorem Rational.Spells.number_eq {whole part : List Char} {value : Rat}
    (h : Spells whole part value) (negative : Bool) :
    ((Number.zero.withSign negative).addDigits whole).addDecimal part.length
        (ofDigitChars 10 part 0) = (Number.ofRat value).withSign negative := by
  have hpart : ((ofDigitChars 10 part 0 : Nat) : Rat) * (10 ^ part.length)⁻¹ < 1 := by
    rw [← div_eq_mul_inv, div_lt_one (by positivity)]
    exact_mod_cast ofDigitChars_lt fun c hc => h.digits c (List.mem_append_right _ hc)
  have hnonneg : (0 : Rat) ≤ (ofDigitChars 10 part 0 : Nat) * (10 ^ part.length)⁻¹ := by positivity
  have hmagnitude : magnitude value = value := by
    rw [magnitude, if_neg (not_lt.2 ?_)]
    rw [h.value_eq]
    positivity
  have hfloor : value.floor = (ofDigitChars 10 whole 0 : Nat) := by
    refine le_antisymm (Int.lt_add_one_iff.1 (Rat.floor_lt_iff.2 ?_)) (Rat.le_floor_iff.2 ?_)
    · rw [h.value_eq]
      push_cast
      linarith
    · rw [h.value_eq]
      push_cast
      linarith
  refine Number.ext ?_ ?_ rfl
  · simp [Number.ofRat, hmagnitude, hfloor, Number.withSign, Number.addDecimal, Number.addDigits,
      Number.zero, Number.ofNat]
  · simp only [Number.ofRat, hmagnitude, hfloor, Number.withSign, Number.addDecimal,
      Number.addDigits, Number.zero, Number.ofNat]
    rw [h.value_eq]
    simp

end OneUnknown
