import OneUnknown.Proofs.CleanForm
import OneUnknown.Proofs.Grammar
import OneUnknown.Proofs.Nearest
import OneUnknown.Proofs.Powers
import OneUnknown.Proofs.RoundTrip
import Mathlib.Data.List.TakeWhile
/-!
# Reading a number that is shown

The digits of a rational are written with a point among them, or with an exponent behind them, and
the reader puts them together again one by one.  What it finds is the value that was written: the
rational itself, or what it was rounded to.

* `Digits.value`: what digits at some place are worth, which zeros at their end do not change;
* `Digits.exists_spells_positional`, `Digits.exists_spells_exponential`: what is written of them;
* `Rational.Spells.parse`: a decimal is read as one number;
* `Rational.Shows`: a text that is read as something with a value;
* `Rational.Spells.shows_exponential`: what a decimal with an exponent shows;
* `Rational.parse_plain`, `Rational.evaluate_parse_scientific`: the results.
-/

namespace OneUnknown

open Nat (ofDigitChars)

/-! ## Digits -/

namespace Digits

/-- What digits are worth at their place. -/
def value (d : Digits) : Rat := (ofDigitChars 10 d.digits 0 : Nat) * (10 : Rat) ^ d.exponent

variable {d : Digits} {digits : List Char} {exponent : Int}

/-- A zero at the end counts for a place. -/
theorem value_append_zeros (digits : List Char) (zeros : Nat) (exponent : Int) :
    value ⟨digits ++ List.replicate zeros '0', exponent⟩ = value ⟨digits, exponent + zeros⟩ := by
  have hzeros : ofDigitChars 10 (digits ++ List.replicate zeros '0') 0 =
      10 ^ zeros * ofDigitChars 10 digits 0 := by
    rw [Nat.ofDigitChars_append, Nat.ofDigitChars_eq_ofDigitChars_zero, List.length_replicate]
    simp
  rw [value, value, hzeros, zpow_add₀ (by norm_num), zpow_natCast]
  push_cast
  ring

theorem value_natText (n : Nat) (exponent : Int) :
    value ⟨Rational.natText n, exponent⟩ = n * (10 : Rat) ^ exponent := by
  rw [value, Rational.natText, Nat.ofDigitChars_ten_toDigits]

theorem isDigit_of_mem_natText {n : Nat} {c : Char} (hc : c ∈ Rational.natText n) :
    c.isDigit = true := Nat.isDigit_of_mem_toDigits (by norm_num) le_rfl hc

theorem dropZeros_spec (places : Nat) (reversed : List Char) :
    ∃ zeros, reversed = List.replicate zeros '0' ++ (dropZeros places reversed).2 ∧
      (dropZeros places reversed).1 + zeros = places := by
  fun_induction dropZeros places reversed with
  | case1 places rest ih =>
    obtain ⟨zeros, hrest, hplaces⟩ := ih
    refine ⟨zeros + 1, ?_, by omega⟩
    rw [List.replicate_succ, List.cons_append, ← hrest]
  | case2 places reversed => exact ⟨0, rfl, rfl⟩

/-- Only zeros are dropped, and the last place moves up by one for each. -/
theorem exists_trimmed (d : Digits) :
    ∃ zeros : Nat, d.digits = d.trimmed.digits ++ List.replicate zeros '0' ∧
      d.trimmed.exponent = d.exponent + zeros := by
  obtain ⟨zeros, hdigits, hplaces⟩ := dropZeros_spec (-d.exponent).toNat d.digits.reverse
  refine ⟨zeros, ?_, ?_⟩
  · rw [trimmed, ← List.reverse_replicate, ← List.reverse_append, ← hdigits, List.reverse_reverse]
  · rw [trimmed]
    dsimp only
    omega

/-- All zeros at the end of some digits. -/
theorem exists_dropped (digits : List Char) :
    ∃ zeros, digits =
      (digits.reverse.dropWhile (· == '0')).reverse ++ List.replicate zeros '0' := by
  have hzeros : digits.reverse.takeWhile (· == '0') =
      List.replicate (digits.reverse.takeWhile (· == '0')).length '0' :=
    List.eq_replicate_of_mem fun c hc => by simpa using List.mem_takeWhile_imp hc
  refine ⟨(digits.reverse.takeWhile (· == '0')).length, ?_⟩
  rw [← List.reverse_replicate, ← hzeros, ← List.reverse_append, List.takeWhile_append_dropWhile,
    List.reverse_reverse]

theorem value_trimmed (d : Digits) : d.trimmed.value = d.value := by
  obtain ⟨zeros, hdigits, hexponent⟩ := exists_trimmed d
  have hd : d = ⟨d.trimmed.digits ++ List.replicate zeros '0', d.exponent⟩ := by rw [← hdigits]
  calc d.trimmed.value = value ⟨d.trimmed.digits, d.exponent + zeros⟩ := by rw [← hexponent]
    _ = d.value := by rw [← value_append_zeros, ← hd]

theorem ne_nil_of_value_ne_zero (h : d.value ≠ 0) : d.digits ≠ [] := by
  intro hnil
  simp [value, hnil] at h

/-- Digits in place, with zeros where some are missing. -/
theorem exists_spells_positional (hne : d.digits ≠ [])
    (hdigits : ∀ c ∈ d.digits, c.isDigit = true) :
    ∃ whole part, Rational.Spells whole part d.value ∧
      d.positional = whole ++ (if part = [] then [] else '.' :: part) := by
  obtain ⟨digits, exponent⟩ := d
  rcases le_or_gt 0 exponent with hexponent | hexponent
  · obtain ⟨zeros, rfl⟩ := Int.eq_ofNat_of_zero_le hexponent
    refine ⟨digits ++ List.replicate zeros '0', [], ⟨by simp [hne], ?_, ?_⟩, ?_⟩
    · intro c hc
      simp only [List.append_nil, List.mem_append, List.mem_replicate] at hc
      rcases hc with hc | ⟨-, rfl⟩
      · exact hdigits c hc
      · rfl
    · rw [← zero_add (zeros : Int), ← value_append_zeros, value]
      simp
    · simp [positional]
  · obtain ⟨places, rfl⟩ : ∃ places : Nat, exponent = -(places : Int) :=
      ⟨(-exponent).toNat, by omega⟩
    refine Rational.exists_spells_positional hne hdigits ?_
    rw [value, zpow_neg, zpow_natCast, inv_mul_cancel_right₀ (by positivity)]

/-- The first digit with the others behind the point, and the exponent of the first one. -/
theorem exists_spells_exponential (hne : digits ≠ []) (hdigits : ∀ c ∈ digits, c.isDigit = true)
    (leading : Int) :
    ∃ whole part shown, Rational.Spells whole part shown ∧
      shown * (10 : Rat) ^ leading = value ⟨digits, leading + 1 - digits.length⟩ ∧
      exponential digits leading = whole ++ (if part = [] then [] else '.' :: part) ++
        'E' :: (if leading < 0 then '-' else '+') :: Nat.toDigits 10 leading.natAbs := by
  obtain ⟨first, rest, rfl⟩ := List.exists_cons_of_ne_nil hne
  have hten : (10 : Rat) ≠ 0 := by norm_num
  refine ⟨[first], rest, ofDigitChars 10 (first :: rest) 0 * ((10 : Rat) ^ rest.length)⁻¹,
    ⟨by simp, by simpa using hdigits, ?_⟩, ?_, ?_⟩
  · have hsplit : ofDigitChars 10 (first :: rest) 0 =
        10 ^ rest.length * ofDigitChars 10 [first] 0 + ofDigitChars 10 rest 0 := by
      rw [Nat.ofDigitChars_cons, Nat.ofDigitChars_eq_ofDigitChars_zero, Nat.ofDigitChars_cons,
        Nat.ofDigitChars_nil]
    rw [hsplit]
    push_cast
    field_simp
  · rw [value, mul_assoc, ← zpow_natCast, ← zpow_neg, ← zpow_add₀ hten]
    congr 2
    rw [List.length_cons]
    push_cast
    ring
  · cases rest with
    | nil => rfl
    | cons second rest => simp [exponential]

end Digits

/-! ## Numbers -/

/-- A text that leads from the start to its end is read. -/
theorem parse_of_leads {text : List Char} {nodes : List Node} (htidy : IsTidyText text)
    (h : Reader.start.Leads true text fun r => r.finish = .ok nodes) : parse text = .ok nodes := by
  obtain ⟨r, hr, hfinish⟩ := h 0
  rw [parse, parseWith, htidy.oneCharRelations_eq, htidy.checkBrackets_eq]
  simp only [bind, Except.bind, hr]
  exact hfinish

namespace Reader

variable {relations : Bool}

theorem leads_sign (negative : Bool) :
    start.Leads relations (if negative then ['-'] else []) (AtGap [] [] negative) := by
  have hstart : start.AtGap [] [] false := ⟨rfl, Level.gap_blank⟩
  cases negative with
  | false => exact .nil hstart
  | true => exact hstart.leads_minus (IsSettled.not_complete trivial)

/-- The digits of the exponent of scientific notation. -/
theorem readFrom_exponentDigits {digits : List Char} (hdigits : ∀ c ∈ digits, c.isDigit = true)
    (hne : digits ≠ []) (place : Nat) (level : Level) (s : ScientificDraft) :
    readFrom relations place ⟨{ level with scientific := some s }, []⟩ digits =
      .ok ⟨{ level with scientific := some { s with
        exponent := ofDigitChars 10 digits s.exponent, hasDigits := true } }, []⟩ := by
  induction digits generalizing place s with
  | nil => exact absurd rfl hne
  | cons c rest ih =>
    rw [List.forall_mem_cons] at hdigits
    have hstep : step relations place ⟨{ level with scientific := some s }, []⟩ (CharClass.of c) =
        .ok ⟨{ level with scientific := some { s with
          exponent := ofDigitChars 10 [c] s.exponent, hasDigits := true } }, []⟩ := by
      rw [CharClass.of_digit hdigits.1, Nat.ofDigitChars_cons, Nat.ofDigitChars_nil, Nat.mul_comm]
      rfl
    rw [readFrom, hstep]
    by_cases hrest : rest = []
    · subst hrest
      rfl
    · refine (ih hdigits.2 hrest (place + 1) _).trans ?_
      rw [Nat.ofDigitChars_cons, Nat.ofDigitChars_nil, Nat.ofDigitChars_cons]

/-- A number with an exponent is a product in parentheses. -/
theorem leads_exponent {emitted : List Node} {n : Number} {places : Option Nat} (exponent : Int) :
    (⟨⟨emitted, ⟨none, n, [], true, true, places⟩, .term, none⟩, []⟩ : Reader).Leads relations
      ('E' :: (if exponent < 0 then '-' else '+') :: Nat.toDigits 10 exponent.natAbs) fun r =>
        r.finish = .ok (emitted.reverse ++ [.paren [.group none n [], .operator .multiply,
          .group none (Number.ofNat 10) [.group none
            ((Number.ofNat exponent.natAbs).withSign (exponent < 0)) []]] [] false]) := by
  intro place
  -- Behind the sign of the exponent.
  let s : ScientificDraft := ⟨⟨none, n, []⟩, 0, exponent < 0, false, place⟩
  let level : Level := ⟨emitted, Draft.blank, .term, none⟩
  have hsign : readFrom relations place
      ⟨⟨emitted, ⟨none, n, [], true, true, places⟩, .term, none⟩, []⟩
      ('E' :: (if exponent < 0 then '-' else '+') :: Nat.toDigits 10 exponent.natAbs) =
      readFrom relations (place + 1 + 1) ⟨{ level with scientific := some s }, []⟩
        (Nat.toDigits 10 exponent.natAbs) := by
    by_cases hnegative : exponent < 0
    · simp only [hnegative, if_true, s, decide_true]
      rfl
    · simp only [hnegative, if_false, s, decide_false]
      rfl
  have hdigits : ∀ c ∈ Nat.toDigits 10 exponent.natAbs, c.isDigit = true :=
    fun c hc => Nat.isDigit_of_mem_toDigits (by norm_num) le_rfl hc
  refine ⟨_, hsign.trans (readFrom_exponentDigits hdigits Nat.toDigits_ne_nil _ level s), ?_⟩
  simp [finish, closeExponents, Level.finish, Level.finishScientific, ScientificDraft.node,
    Level.flush, Draft.group?, Draft.blank, Group.toNode, Nat.ofDigitChars_ten_toDigits, level, s,
    bind, Except.bind, pure, Except.pure]

end Reader

namespace Rational

theorem isTidyText_sign (negative : Bool) : IsTidyText (if negative then ['-'] else []) := by
  cases negative with
  | false => exact .nil
  | true => exact .char (by decide)

theorem Spells.isTidyText {whole part : List Char} {value : Rat} (h : Spells whole part value) :
    IsTidyText (whole ++ (if part = [] then [] else '.' :: part)) := by
  have hdigits := List.forall_mem_append.1 h.digits
  have htidy {digits : List Char} (h : ∀ c ∈ digits, c.isDigit = true) : IsTidyText digits :=
    .of_forall fun c hc => isPlainChar_of_isDigit (h c hc)
  refine .append (htidy hdigits.1) ?_
  split
  · exact .nil
  · exact .append (.char (by decide) : IsTidyText ['.']) (htidy hdigits.2)

/-- A decimal is read as one number. -/
theorem Spells.parse {whole part : List Char} {value : Rat} (h : Spells whole part value)
    (negative : Bool) :
    OneUnknown.parse ((if negative then ['-'] else []) ++
        (whole ++ (if part = [] then [] else '.' :: part))) =
      .ok [.group none ((Number.ofRat value).withSign negative) []] := by
  refine parse_of_leads ((isTidyText_sign negative).append h.isTidyText)
    ((Reader.leads_sign negative).append fun r hr => (hr.leads_spelled h).mono ?_)
  rintro ⟨level, frames⟩ ⟨rfl, places, rfl⟩
  exact Reader.finish_of_atRest ⟨rfl, _, rfl, rfl, rfl⟩

/-! ### The places that are needed -/

theorem isDecimal_of_dvd {value : Rat} {places : Nat} (h : value.den ∣ 10 ^ places) :
    IsDecimal value := by
  obtain ⟨factor, hfactor⟩ := h
  refine ⟨value.num * factor, places, ?_⟩
  have hpow : (10 : Rat) ^ places = value.den * factor := mod_cast hfactor
  rw [hpow, ← mul_assoc, Rat.mul_den_eq_num]
  push_cast
  rfl

/-- Only a denominator that divides a power of ten has a number of places. -/
theorem dvd_of_terminatingPlaces {denominator places : Nat} (hne : denominator ≠ 0)
    (h : terminatingPlaces denominator = some places) : denominator ∣ 10 ^ places := by
  cases htwos : divideOut 2 (denominator.log2 + 1) denominator with | mk twos odd =>
  obtain ⟨rfl, -⟩ := divideOut_spec (by norm_num) hne (lt_pow_log2_succ le_rfl) htwos
  cases hfives : divideOut 5 (odd.log2 + 1) odd with | mk fives rest =>
  obtain ⟨rfl, -⟩ := divideOut_spec (by norm_num) (right_ne_zero_of_mul hne)
    (lt_pow_log2_succ (by norm_num)) hfives
  simp only [terminatingPlaces, htwos, hfives, Option.ite_none_right_eq_some,
    Option.some.injEq] at h
  obtain ⟨rfl, rfl⟩ := h
  rw [mul_one, show 10 = 2 * 5 from rfl, Nat.mul_pow]
  exact Nat.mul_dvd_mul (Nat.pow_dvd_pow 2 (le_max_left _ _)) (Nat.pow_dvd_pow 5 (le_max_right _ _))

theorem terminatingPlaces_eq_none {value : Rat} (h : ¬ IsDecimal value) :
    terminatingPlaces value.den = none := by
  rw [Option.eq_none_iff_forall_ne_some]
  intro places hplaces
  exact h (isDecimal_of_dvd (dvd_of_terminatingPlaces value.den_nz hplaces))

theorem isDecimal_neg {value : Rat} : IsDecimal (-value) ↔ IsDecimal value := by
  have hneg {value : Rat} (h : IsDecimal value) : IsDecimal (-value) := by
    obtain ⟨digits, places, heq⟩ := h
    exact ⟨-digits, places, by rw [neg_mul, heq, Int.cast_neg]⟩
  exact ⟨fun h => neg_neg value ▸ hneg h, hneg⟩

theorem isDecimal_magnitude {value : Rat} : IsDecimal (magnitude value) ↔ IsDecimal value := by
  rw [magnitude]
  split
  · exact isDecimal_neg
  · exact Iff.rfl

/-! ### The text of a value -/

theorem signText_eq (value : Rat) :
    signText value = if decide (value < 0) then ['-'] else [] := by
  simp [signText]

theorem rounded_neg_iff {value : Rat} : rounded value < 0 ↔ value < 0 := by
  refine ⟨fun h => ?_, fun h => ?_⟩
  · by_contra hge
    rcases (not_lt.1 hge).lt_or_eq with hlt | rfl
    · exact (rounded_pos hlt).not_gt h
    · exact absurd rounded_zero h.ne
  · have := rounded_pos (neg_pos.2 h)
    rwa [rounded_neg, neg_pos] at this

theorem magnitude_rounded (value : Rat) :
    magnitude (rounded value) = rounded (magnitude value) := by
  by_cases h : value < 0
  · rw [magnitude, magnitude, if_pos (rounded_neg_iff.2 h), if_pos h, rounded_neg]
  · rw [magnitude, magnitude, if_neg (mt rounded_neg_iff.1 h), if_neg h]

/-- A text with the sign and the digits of a value is read as that value. -/
theorem Spells.parse_signed {whole part : List Char} {value : Rat}
    (h : Spells whole part (magnitude value)) :
    OneUnknown.parse (signText value ++ (whole ++ (if part = [] then [] else '.' :: part))) =
      .ok [Node.constant value] := by
  have hmagnitude : magnitude (magnitude value) = magnitude value :=
    if_neg (not_lt.2 (magnitude_eq_abs value ▸ abs_nonneg value))
  rw [signText_eq, h.parse, Number.ofRat_withSign_congr hmagnitude]
  rfl

/-- The text of a value that is no decimal holds the digits that it is rounded to. -/
theorem exists_spells_of_not_isDecimal {value : Rat} (hvalue : 0 ≤ value) (h : ¬ IsDecimal value) :
    ∃ whole part, Spells whole part (rounded value) ∧
      plainMagnitude value = whole ++ (if part = [] then [] else '.' :: part) := by
  have hpos : 0 < value := hvalue.lt_of_ne fun hzero => h (hzero ▸ isDecimal_natCast 0)
  obtain ⟨hbelow, -⟩ := roundMagnitude_spec hpos significantDigits (by decide) (by decide)
  let digits : Digits := ⟨natText (roundSignificant value significantDigits).mantissa.natAbs,
    (roundSignificant value significantDigits).exponent⟩
  have hmantissa : 0 < (roundSignificant value significantDigits).mantissa := by
    rw [roundSignificant_of_pos hpos]
    exact (by positivity : (0 : Int) < 10 ^ (significantDigits - 1)).trans_le hbelow
  have hrounded : digits.trimmed.value = rounded value := by
    rw [Digits.value_trimmed, Digits.value_natText, rounded, Scaled.value, tenPower_eq,
      ← Int.cast_natCast, Int.natAbs_of_nonneg hmantissa.le]
  have hne : digits.trimmed.digits ≠ [] :=
    Digits.ne_nil_of_value_ne_zero (hrounded ▸ (rounded_pos hpos).ne')
  have hdigits : ∀ c ∈ digits.trimmed.digits, c.isDigit = true := by
    obtain ⟨zeros, hzeros, -⟩ := Digits.exists_trimmed digits
    exact fun c hc => Digits.isDigit_of_mem_natText (hzeros ▸ List.mem_append_left _ hc)
  have htext : plainMagnitude value = digits.trimmed.positional := by
    simp only [plainMagnitude, terminatingPlaces_eq_none h, digits]
  rw [htext, ← hrounded]
  exact Digits.exists_spells_positional hne hdigits

/-- The text of a value is read as the value if it is a decimal, and else as what the value is
rounded to. -/
theorem parse_plain (value : Rat) :
    (IsDecimal value → OneUnknown.parse (plain value) = .ok [Node.constant value]) ∧
      (¬ IsDecimal value →
        OneUnknown.parse (plain value) = .ok [Node.constant (rounded value)]) := by
  have hmagnitude : 0 ≤ magnitude value := magnitude_eq_abs value ▸ abs_nonneg value
  constructor
  · intro h
    obtain ⟨whole, part, hspells, htext⟩ :=
      exists_spells_of_isDecimal hmagnitude (isDecimal_magnitude.2 h)
    rw [plain, htext, hspells.parse_signed]
  · intro h
    obtain ⟨whole, part, hspells, htext⟩ :=
      exists_spells_of_not_isDecimal hmagnitude (mt isDecimal_magnitude.1 h)
    have hsign : signText value = signText (rounded value) := by
      simp only [signText, rounded_neg_iff]
    rw [← magnitude_rounded] at hspells
    rw [plain, htext, hsign, hspells.parse_signed]

/-- A decimal is read exactly, and a third is rounded. -/
theorem parse_plain_third :
    IsDecimal (-5 / 4) ∧ ¬ IsDecimal (-1 / 3) ∧
      OneUnknown.parse (plain (-5 / 4)) = .ok [Node.constant (-5 / 4)] ∧
      OneUnknown.parse (plain (-1 / 3)) = .ok [Node.constant (-333333333333 / 10 ^ 12)] := by
  have hdecimal : IsDecimal (-5 / 4) := ⟨-125, 2, by norm_num⟩
  have hthird : ¬ IsDecimal (-1 / 3) := by
    intro h
    obtain ⟨places, hdvd⟩ := h.den_dvd
    have hden : (-1 / 3 : Rat).den = 3 := by decide +kernel
    exact absurd (Nat.prime_three.dvd_of_dvd_pow (hden ▸ hdvd)) (by decide)
  have hrounded : rounded (-1 / 3) = -333333333333 / 10 ^ 12 := by decide +kernel
  exact ⟨hdecimal, hthird, (parse_plain (-5 / 4)).1 hdecimal,
    hrounded ▸ (parse_plain (-1 / 3)).2 hthird⟩

/-! ### The text of a result -/

/-- A text that is read as something with a value. -/
def Shows (text : List Char) (value : Rat) : Prop :=
  ∃ nodes cleaned, OneUnknown.parse text = .ok nodes ∧ Sequence.cleaned nodes = .ok cleaned ∧
    Sequence.evaluate cleaned = .ok value

theorem shows_of_parse {text : List Char} {node : Node} {value : Rat}
    (hparse : OneUnknown.parse text = .ok [node]) (hclean : node.IsClean)
    (hvalue : node.HasValue value) : Shows text value :=
  ⟨[node], [node], hparse,
    Sequence.cleaned_eq_ok_iff.2 (Sequence.isClean_singleton.2 hclean).isCleanProblem,
    Sequence.evaluate_eq_ok.2 (SumHasValue.singleton_iff.2 hvalue)⟩

theorem Spells.value_nonneg {whole part : List Char} {value : Rat} (h : Spells whole part value) :
    0 ≤ value := by
  rw [h.value_eq]
  positivity

theorem Spells.number_value {whole part : List Char} {value : Rat} (h : Spells whole part value)
    (negative : Bool) :
    ((Number.ofRat value).withSign negative).value = if negative then -value else value := by
  have hmagnitude : (Number.ofRat value).magnitude = value := by
    rw [Number.magnitude_ofRat, magnitude_eq_abs, abs_of_nonneg h.value_nonneg]
  rw [Number.value]
  exact if_congr Iff.rfl (congrArg _ hmagnitude) hmagnitude

theorem Spells.shows {whole part : List Char} {value : Rat} (h : Spells whole part value)
    (negative : Bool) :
    Shows ((if negative then ['-'] else []) ++ (whole ++ (if part = [] then [] else '.' :: part)))
      (if negative then -value else value) :=
  shows_of_parse (h.parse negative) trivial (h.number_value negative ▸ .number _)

theorem isTidyText_exponent (exponent : Int) :
    IsTidyText ('E' :: (if exponent < 0 then '-' else '+') :: Nat.toDigits 10 exponent.natAbs) := by
  refine .append (.char (by decide) : IsTidyText ['E']) (.append (?_ : IsTidyText [_]) ?_)
  · split
    · exact .char (by decide)
    · exact .char (by decide)
  · exact .of_forall fun c hc =>
      isPlainChar_of_isDigit (Nat.isDigit_of_mem_toDigits (by norm_num) le_rfl hc)

theorem signedPower_ten {exponent : Int} (h : exponent.natAbs ≤ maxExponent) :
    signedPower 10 exponent = .ok (10 ^ exponent) := by
  have hpower : power (magnitude 10) exponent = .ok (10 ^ exponent) := by
    rw [show magnitude 10 = 10 from rfl, power, if_pos (Rat.den_intCast exponent),
      Rat.num_intCast]
    exact integerPower_eq h (by norm_num)
  rw [signedPower, hpower]
  rfl

theorem value_exponent (exponent : Int) :
    ((Number.ofNat exponent.natAbs).withSign (exponent < 0)).value = exponent := by
  by_cases h : exponent < 0
  · have hsize : ((exponent.natAbs : Int) : Rat) = -exponent := by
      rw [Int.ofNat_natAbs_of_nonpos h.le, Int.cast_neg]
    rw [Int.cast_natCast] at hsize
    simp [Number.value, Number.withSign, Number.magnitude, Number.ofNat, h, hsize]
  · have hsize : ((exponent.natAbs : Int) : Rat) = exponent := by
      rw [Int.natAbs_of_nonneg (not_lt.1 h)]
    rw [Int.cast_natCast] at hsize
    simp [Number.value, Number.withSign, Number.magnitude, Number.ofNat, h, hsize]

/-- A number with an exponent is read as a product in parentheses. -/
theorem Spells.parse_exponential {whole part : List Char} {value : Rat}
    (h : Spells whole part value) (negative : Bool) (exponent : Int) :
    OneUnknown.parse ((if negative then ['-'] else []) ++
        ((whole ++ (if part = [] then [] else '.' :: part)) ++
          'E' :: (if exponent < 0 then '-' else '+') :: Nat.toDigits 10 exponent.natAbs)) =
      .ok [.paren [.group none ((Number.ofRat value).withSign negative) [], .operator .multiply,
        .group none (Number.ofNat 10) [.group none
          ((Number.ofNat exponent.natAbs).withSign (exponent < 0)) []]] [] false] := by
  refine parse_of_leads
    ((isTidyText_sign negative).append (h.isTidyText.append (isTidyText_exponent exponent)))
    ((Reader.leads_sign negative).append fun r hr => (hr.leads_spelled h).append ?_)
  rintro ⟨level, frames⟩ ⟨rfl, places, rfl⟩
  exact Reader.leads_exponent exponent

/-- It shows the product with that power of ten, if the power can be evaluated. -/
theorem Spells.shows_exponential {whole part : List Char} {value : Rat}
    (h : Spells whole part value) (negative : Bool) {exponent : Int}
    (hexponent : exponent.natAbs ≤ maxExponent) :
    Shows ((if negative then ['-'] else []) ++
        ((whole ++ (if part = [] then [] else '.' :: part)) ++
          'E' :: (if exponent < 0 then '-' else '+') :: Nat.toDigits 10 exponent.natAbs))
      ((if negative then -value else value) * 10 ^ exponent) := by
  refine shows_of_parse (h.parse_exponential negative exponent) ?_ ?_
  · simp [Node.IsClean, Sequence.IsClean, Node.isTerm]
  · have hten : (Number.ofNat 10).value = 10 := by
      simp [Number.value, Number.magnitude, Number.ofNat]
    have hpower : (Node.group none (Number.ofNat 10) [.group none
        ((Number.ofNat exponent.natAbs).withSign (exponent < 0)) []]).HasValue (10 ^ exponent) := by
      refine .power (by simp) (SumHasValue.singleton_iff.2 (.number _)) ?_
      rw [hten, value_exponent, signedPower_ten hexponent]
    rw [← h.number_value negative]
    exact .paren false (.product (.multiply (.term (.number _)) hpower))

/-- Digits show their value with an exponent when zeros at their end are left out. -/
theorem shows_exponential_of_dropped {digits kept : List Char} {zeros : Nat} {exponent : Int}
    (hkept : digits = kept ++ List.replicate zeros '0')
    (hdigits : ∀ c ∈ digits, c.isDigit = true) (hne : Digits.value ⟨digits, exponent⟩ ≠ 0)
    (negative : Bool) {leading : Int} (hleading : leading = exponent + digits.length - 1)
    (hbound : leading.natAbs ≤ maxExponent) :
    Shows ((if negative then ['-'] else []) ++ Digits.exponential kept leading)
      (if negative then -Digits.value ⟨digits, exponent⟩ else Digits.value ⟨digits, exponent⟩) := by
  have hvalue :
      Digits.value ⟨kept, leading + 1 - kept.length⟩ = Digits.value ⟨digits, exponent⟩ := by
    have hplace : leading + 1 - kept.length = exponent + zeros := by
      rw [hleading, hkept, List.length_append, List.length_replicate]
      push_cast
      ring
    rw [hplace, ← Digits.value_append_zeros, ← hkept]
  have hnonempty : kept ≠ [] := Digits.ne_nil_of_value_ne_zero (hvalue ▸ hne)
  obtain ⟨whole, part, shown, hspells, hshown, htext⟩ := Digits.exists_spells_exponential hnonempty
    (fun c hc => hdigits c (hkept ▸ List.mem_append_left _ hc)) leading
  rw [htext, ← hvalue, ← hshown]
  have hresult : (if negative then -(shown * 10 ^ leading) else shown * 10 ^ leading) =
      (if negative then -shown else shown) * (10 : Rat) ^ leading := by
    cases negative <;> simp
  rw [hresult]
  exact hspells.shows_exponential negative hbound

/-- The digits of a result show their value, whichever way they are written. -/
theorem shows_scientificDigits {digits : List Char} {exponent : Int}
    (hdigits : ∀ c ∈ digits, c.isDigit = true) (hne : Digits.value ⟨digits, exponent⟩ ≠ 0)
    (negative : Bool) (hbound : (exponent + digits.length - 1).natAbs ≤ maxExponent) :
    Shows ((if negative then ['-'] else []) ++ scientificDigits ⟨digits, exponent⟩)
      (if negative then -Digits.value ⟨digits, exponent⟩ else Digits.value ⟨digits, exponent⟩) := by
  obtain ⟨zeros, hkept, -⟩ := Digits.exists_trimmed ⟨digits, exponent⟩
  rcases lt_or_ge 0 exponent with hwhole | hwhole
  · obtain ⟨zeros, hkept⟩ := Digits.exists_dropped digits
    simp only [scientificDigits, if_pos hwhole]
    exact shows_exponential_of_dropped hkept hdigits hne negative rfl hbound
  rcases lt_or_ge (exponent + (digits.length : Int) - 1) leastPositional with hsmall | hsmall
  · simp only [scientificDigits, if_neg hwhole.not_gt, if_pos hsmall]
    exact shows_exponential_of_dropped hkept hdigits hne negative rfl hbound
  · rw [← Digits.value_trimmed] at hne ⊢
    have hmem (c : Char) (hc : c ∈ (Digits.trimmed ⟨digits, exponent⟩).digits) : c ∈ digits := by
      have := List.mem_append_left (List.replicate zeros '0') hc
      rwa [← hkept] at this
    obtain ⟨whole, part, hspells, htext⟩ := Digits.exists_spells_positional
      (Digits.ne_nil_of_value_ne_zero hne) fun c hc => hdigits c (hmem c hc)
    simp only [scientificDigits, if_neg hwhole.not_gt, if_neg hsmall.not_gt, htext]
    exact hspells.shows negative

/-- The exponent of the first digit of a scaled number. -/
theorem log_scaled {n : Nat} (hn : 0 < n) (exponent : Int) :
    Int.log 10 ((n : Rat) * 10 ^ exponent) = exponent + (natText n).length - 1 := by
  obtain ⟨hbelow, habove⟩ := digitCount_spec hn
  have hten : (10 : Rat) ≠ 0 := by norm_num
  have hpower : (0 : Rat) < 10 ^ exponent := zpow_pos (by norm_num) exponent
  rw [log_eq_decimalExponent (mul_pos (Nat.cast_pos.2 hn) hpower)]
  refine decimalExponent_eq ?_ ?_
  · calc (10 : Rat) ^ (exponent + (natText n).length - 1)
        = 10 ^ ((digitCount n : Int) - 1) * 10 ^ exponent := by
          rw [← zpow_add₀ hten, digitCount, natText]
          congr 1
          ring
      _ ≤ n * 10 ^ exponent := mul_le_mul_of_nonneg_right hbelow hpower.le
  · calc (n : Rat) * 10 ^ exponent < 10 ^ (digitCount n : Int) * 10 ^ exponent :=
          mul_lt_mul_of_pos_right habove hpower
      _ = 10 ^ (exponent + (natText n).length - 1 + 1) := by
          rw [← zpow_add₀ hten, digitCount, natText]
          congr 1
          ring

/-- A value is rounded to one of its sign, or to zero. -/
theorem mantissa_neg_iff {value : Rat} {digits : Nat}
    (h : (roundSignificant value digits).mantissa ≠ 0) :
    (roundSignificant value digits).mantissa < 0 ↔ value < 0 := by
  rcases lt_trichotomy value 0 with hneg | rfl | hpos
  · obtain ⟨magnitude, rfl⟩ : ∃ magnitude, value = -magnitude := ⟨-value, (neg_neg value).symm⟩
    rw [roundSignificant_neg_of_pos (neg_lt_zero.1 hneg)] at h ⊢
    refine iff_of_true (lt_of_le_of_ne ?_ h) hneg
    exact neg_nonpos.2 (mantissa_roundMagnitude_nonneg (neg_lt_zero.1 hneg) digits)
  · simp [roundSignificant] at h
  · rw [roundSignificant_of_pos hpos]
    exact iff_of_false (mantissa_roundMagnitude_nonneg hpos digits).not_gt hpos.not_gt

/-- What is shown of a value, rounded to any number of digits, is read as something that is evaluated to
exactly what the value is rounded to, unless the power of ten in it is too large to evaluate. -/
theorem evaluate_parse_scientific {value : Rat} {digits : Nat}
    (hleading : |Int.log 10 (|(roundSignificant value digits).value|)| ≤ 10000) :
    ∃ nodes cleaned, OneUnknown.parse (scientific value digits) = .ok nodes ∧
      Sequence.cleaned nodes = .ok cleaned ∧
      Sequence.evaluate cleaned = .ok ((roundSignificant value digits).mantissa *
        10 ^ (roundSignificant value digits).exponent) := by
  show Shows _ _
  have hsign : (roundSignificant value digits).mantissa ≠ 0 →
      ((roundSignificant value digits).mantissa < 0 ↔ value < 0) := mantissa_neg_iff
  rw [Scaled.value, tenPower_eq] at hleading
  rw [scientific]
  generalize roundSignificant value digits = rounded at hleading hsign ⊢
  obtain ⟨mantissa, exponent⟩ := rounded
  dsimp only at hleading hsign ⊢
  split
  · rename_i hmantissa
    have hspells : Spells ['0'] [] 0 :=
      ⟨by simp, List.forall_mem_singleton.2 rfl, by simp [Nat.ofDigitChars_cons]⟩
    rw [hmantissa, Int.cast_zero, zero_mul]
    exact hspells.shows false
  · rename_i hmantissa
    have hsign := hsign hmantissa
    have hcount : 0 < mantissa.natAbs := Int.natAbs_pos.2 hmantissa
    have hpower : (0 : Rat) < 10 ^ exponent := zpow_pos (by norm_num) exponent
    have hsize : ((mantissa.natAbs : Nat) : Rat) = |(mantissa : Rat)| := by
      rw [← Int.cast_abs, Int.abs_eq_natAbs, Int.cast_natCast]
    have hvalue : (if value < 0 then -Digits.value ⟨natText mantissa.natAbs, exponent⟩
        else Digits.value ⟨natText mantissa.natAbs, exponent⟩) = mantissa * 10 ^ exponent := by
      rw [Digits.value_natText, hsize]
      split
      · rename_i hneg
        rw [abs_of_neg (Int.cast_lt_zero.2 (hsign.2 hneg)), neg_mul, neg_neg]
      · rename_i hpos
        rw [abs_of_nonneg (Int.cast_nonneg (not_lt.1 (mt hsign.1 hpos)))]
    rw [abs_mul, abs_of_pos hpower, ← hsize, log_scaled hcount] at hleading
    rw [signText_eq, ← hvalue]
    have hne : Digits.value ⟨natText mantissa.natAbs, exponent⟩ ≠ 0 := by
      rw [Digits.value_natText]
      exact (mul_pos (Nat.cast_pos.2 hcount) hpower).ne'
    have hshows := shows_scientificDigits (fun c => Digits.isDigit_of_mem_natText) hne
      (decide (value < 0)) (by rw [Int.abs_eq_natAbs] at hleading; exact_mod_cast hleading)
    simpa using hshows

/-- A small negative value, which is shown with an exponent. -/
theorem evaluate_parse_scientific_small :
    |Int.log 10 (|(roundSignificant (-1 / 600000000000000) 3).value|)| ≤ 10000 ∧
      scientific (-1 / 600000000000000) 3 = "-1.67E-15".toList ∧
      ∃ nodes cleaned, OneUnknown.parse "-1.67E-15".toList = .ok nodes ∧
        Sequence.cleaned nodes = .ok cleaned ∧
        Sequence.evaluate cleaned = .ok ((-167 : Int) * 10 ^ (-17 : Int)) := by
  have hrounded : roundSignificant (-1 / 600000000000000) 3 = ⟨-167, -17⟩ := by decide +kernel
  have htext : scientific (-1 / 600000000000000) 3 = "-1.67E-15".toList := by decide +kernel
  have hleading : |Int.log 10 (|(roundSignificant (-1 / 600000000000000) 3).value|)| ≤ 10000 := by
    decide +kernel
  have hshown := evaluate_parse_scientific hleading
  rw [htext, hrounded] at hshown
  exact ⟨hleading, htext, hshown⟩

end Rational

end OneUnknown
